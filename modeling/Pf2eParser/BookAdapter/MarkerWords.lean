import Mathlib
import Pf2eParser.BookAdapter.Feats
import Pf2eParser.BookAdapter.Pieces

/-!
# Words that spell a level marker

A level marker is two words, `FEAT` and the level.  In title case a line loses its own spacing, so
that a line of two words becomes a marker whatever stands between them
(`isMarkerOf_titleCase_iff`).  A name or trait line is no marker itself.  If it has ASCII characters
only, it becomes one by odd spacing (`SpellsMarker.spaced_oddly`), and it has one in its list of
traits by a comma (`comma_mem_of_isMarkerOf`).
-/

namespace Pf2eParser

open Text

variable {U : CaseTables}

/-! ## Markers of a page -/

/-- A level marker, in any letter case. -/
def IsLevelText (line : Str) : Prop :=
  ∃ level, isFeatLevelMarker level = true ∧ eqIgnoreAsciiCase line level = true

/-- A text that is a level marker of the page, in any letter case. -/
def IsMarkerOf (text word : Str) : Prop :=
  ∃ line ∈ (lines text).map trim, IsLevelText line ∧ eqIgnoreAsciiCase word line = true

/-- The word that opens a level marker. -/
def featWord : Str := "FEAT".toList

/-- The line is two words, of which the first is `FEAT` in title case and the second is the level of
a marker of the page. -/
def SpellsMarker (U : CaseTables) (text line : Str) : Prop :=
  ∃ word level, splitWhitespace line = [word, level] ∧
    eqIgnoreAsciiCase (titleCaseWord U word) featWord = true ∧
      IsMarkerOf text (featWord ++ ' ' :: level)

/-- Digits are the same in every letter case. -/
theorem eq_of_map_toLower {s digits : Str} (hdigits : ∀ c ∈ digits, c.isDigit = true)
    (h : s.map Char.toLower = digits.map Char.toLower) : s = digits := by
  induction digits generalizing s with
  | nil => simpa using h
  | cons digit digits ih =>
    obtain ⟨c, rest, rfl, hc, hrest⟩ := List.map_eq_cons_iff.mp h
    obtain ⟨-, hletter, -, hsame, -⟩ := CaseTables.digit_spec (hdigits digit List.mem_cons_self)
    obtain rfl : c = digit :=
      CaseTables.eq_of_eq_toLower_toUpper hletter (Or.inl (hsame.symm.trans hc.symm))
    rw [ih (fun d hd => hdigits d (List.mem_cons_of_mem _ hd)) hrest]

/-- A level marker in any letter case is `FEAT` in some letter case, a space and digits. -/
theorem IsMarkerOf.exists_level {text word : Str} (h : IsMarkerOf text word) :
    ∃ feat level, word = feat ++ ' ' :: level ∧ eqIgnoreAsciiCase feat featWord = true ∧
      level ≠ [] ∧ ∀ c ∈ level, c.isDigit = true := by
  obtain ⟨line, -, ⟨marker, hmarker, hline⟩, hword⟩ := h
  have hcase : word.map Char.toLower = marker.map Char.toLower :=
    (beq_iff_eq.mp hword).trans (beq_iff_eq.mp hline)
  unfold isFeatLevelMarker at hmarker
  split at hmarker
  case h_2 => exact absurd hmarker (by decide)
  case h_1 digits hstrip =>
    obtain rfl := stripPrefix_eq_some_iff.mp hstrip
    obtain ⟨hne, hdigits⟩ := Bool.and_eq_true_iff.mp hmarker
    have hall : ∀ c ∈ digits, c.isDigit = true := List.all_eq_true.mp hdigits
    have hsplit : word.map Char.toLower =
        "feat".toList ++ ' ' :: digits.map Char.toLower := by
      rw [hcase, List.map_append]
      rfl
    obtain ⟨feat, tail, rfl, hfeat, htail⟩ := List.map_eq_append_iff.mp hsplit
    obtain ⟨space, level, rfl, hspace, hlevel⟩ := List.map_eq_cons_iff.mp htail
    obtain rfl : space = ' ' :=
      CaseTables.eq_of_eq_toLower_toUpper (by decide) (Or.inl hspace.symm)
    obtain rfl : level = digits := eq_of_map_toLower hall hlevel
    exact ⟨feat, level, rfl, by simp [eqIgnoreAsciiCase, hfeat, featWord], by simpa using hne, hall⟩

/-- Letter case does not matter for a marker of the page. -/
theorem IsMarkerOf.of_eqIgnoreAsciiCase {text word word' : Str} (h : IsMarkerOf text word)
    (heq : eqIgnoreAsciiCase word' word = true) : IsMarkerOf text word' := by
  obtain ⟨line, hline, hlevel, hword⟩ := h
  exact ⟨line, hline, hlevel, beq_iff_eq.mpr ((beq_iff_eq.mp heq).trans (beq_iff_eq.mp hword))⟩

/-- Whether words that are joined by spaces are a marker of the page. -/
theorem isMarkerOf_intercalate_iff {text : Str} {words : List Str}
    (h : ∀ word ∈ words, word ≠ [] ∧ ∀ c ∈ word, isWhitespace c = false) :
    IsMarkerOf text ([' '].intercalate words) ↔ ∃ feat level, words = [feat, level] ∧
      eqIgnoreAsciiCase feat featWord = true ∧ IsMarkerOf text (featWord ++ ' ' :: level) := by
  have hcase : ∀ {feat level : Str}, eqIgnoreAsciiCase feat featWord = true →
      (feat ++ ' ' :: level).map Char.toLower = (featWord ++ ' ' :: level).map Char.toLower := by
    intro feat level hfeat
    rw [List.map_append, List.map_append, beq_iff_eq.mp hfeat]
  constructor
  · intro hmarker
    obtain ⟨feat, level, heq, hfeat, hne, hdigits⟩ := hmarker.exists_level
    have hwords : words = [feat, level] := by
      have hself : words.flatMap splitWhitespace = words := by
        rw [List.flatMap_congr fun word hword => splitWhitespace_eq_singleton (h word hword).1
          (h word hword).2, List.flatMap_singleton']
      have hfeatWord : ∀ c ∈ feat, isWhitespace c = false := by
        intro c hc
        have hmem : c.toLower ∈ featWord.map Char.toLower :=
          beq_iff_eq.mp hfeat ▸ List.mem_map_of_mem hc
        have hletters : ∀ d ∈ featWord.map Char.toLower, isWhitespace d = false :=
          List.all_iff_forall_prop.mp (by decide)
        rw [← (CaseTables.isWhitespace_toLower_toUpper c).1]
        exact hletters _ hmem
      have hfeatNe : feat ≠ [] := by
        rintro rfl
        exact absurd hfeat (by decide)
      rw [← hself, ← splitWhitespace_intercalate, heq, splitWhitespace_append_cons feat (by decide),
        splitWhitespace_eq_singleton hfeatNe hfeatWord,
        splitWhitespace_eq_singleton hne fun c hc => (CaseTables.digit_spec (hdigits c hc)).2.2.2.2]
      rfl
    refine ⟨feat, level, hwords, hfeat, hmarker.of_eqIgnoreAsciiCase ?_⟩
    rw [heq]
    exact beq_iff_eq.mpr (hcase hfeat).symm
  · rintro ⟨feat, level, rfl, hfeat, hmarker⟩
    apply hmarker.of_eqIgnoreAsciiCase
    simpa [eqIgnoreAsciiCase] using @hcase feat level hfeat

/-! ## Digits in other letter cases -/

/-- Digits and hyphens are ASCII characters without case. -/
theorem digit_or_hyphen_spec {c : Char} (h : c.isDigit = true ∨ c = '-') :
    c.toNat < 128 ∧ c.isAlpha = false ∧ c.toLower = c ∧ c.toUpper = c := by
  have hascii : c.toNat < 128 := by
    rcases h with h | rfl
    · exact (CaseTables.digit_spec h).1
    · decide
  have hall : ∀ n < 128, ((Char.ofNat n).isDigit = true ∨ Char.ofNat n = '-') →
      (Char.ofNat n).isAlpha = false ∧ (Char.ofNat n).toLower = Char.ofNat n ∧
        (Char.ofNat n).toUpper = Char.ofNat n := by decide
  have hthis := hall c.toNat hascii
  rw [Char.ofNat_toNat] at hthis
  exact ⟨hascii, hthis h⟩

/-- Where a form of a character keeps and makes neither digits nor hyphens, a text that starts with
it has the same digits in front of its first separator. -/
theorem firstPiece_form_iff {form rest : Str} {c : Char} {s : Str} (hne : form ≠ [])
    (hmade : ∀ d ∈ form, d.isDigit = true ∨ d = '-' → c = d)
    (hkept : c.isDigit = true ∨ c = '-' → form = [c])
    (hdashes : ∀ n, List.replicate n '-' <+: rest ↔ List.replicate n '-' <+: s)
    (hrest : ∀ digits : Str, (∀ d ∈ digits, d.isDigit = true) →
      (firstPiece blockSeparator rest = digits ↔ firstPiece blockSeparator s = digits))
    {digits : Str} (hdigits : ∀ d ∈ digits, d.isDigit = true) :
    firstPiece blockSeparator (form ++ rest) = digits ↔
      firstPiece blockSeparator (c :: s) = digits := by
  have hsep : blockSeparator ≠ [] := by decide
  have hstart : ∀ t : Str, blockSeparator <+: c :: t ↔ c = '-' ∧ List.replicate 2 '-' <+: t :=
    fun t => (List.cons_prefix_cons (b := c)).trans (and_congr_left' eq_comm)
  by_cases hc : c.isDigit = true ∨ c = '-'
  · rw [hkept hc, List.singleton_append, firstPiece_cons hsep, firstPiece_cons hsep]
    simp only [hstart, hdashes]
    split_ifs
    · rfl
    · cases digits with
      | nil => simp
      | cons digit digits =>
        simp only [List.cons.injEq, hrest digits fun d hd => hdigits d (List.mem_cons_of_mem _ hd)]
  · have hdash : ∀ d ∈ blockSeparator, d ∉ form := by
      have hall : ∀ d ∈ blockSeparator, d = '-' := List.all_iff_forall_prop.mp (by decide)
      exact fun d hd hmem => hc (hmade d hmem (Or.inr (hall d hd)) ▸ Or.inr (hall d hd))
    obtain ⟨d, form, rfl⟩ := List.exists_cons_of_ne_nil hne
    rw [firstPiece, split_append_of_notMem hsep hdash, split_eq_cons hsep rest,
      firstPiece_cons hsep, if_neg fun hpre => hc (Or.inr ((hstart s).mp hpre).1)]
    refine iff_of_false (fun heq => ?_) fun heq =>
      hc (Or.inl (hdigits c (heq ▸ List.mem_cons_self)))
    have hd : d.isDigit = true := hdigits d (heq ▸ by simp)
    exact hc (hmade d List.mem_cons_self (Or.inl hd) ▸ Or.inl hd)

/-- The digits in front of the first separator are the same in lower case. -/
theorem firstPiece_toLowercaseAfter_iff (hU : U.KeepsSpacing) (hA : U.FollowsAscii) (before s : Str)
    {digits : Str} (hdigits : ∀ d ∈ digits, d.isDigit = true) :
    firstPiece blockSeparator (U.toLowercaseAfter before s) = digits ↔
      firstPiece blockSeparator s = digits := by
  induction s generalizing before digits with
  | nil => rfl
  | cons c s ih =>
    rw [CaseTables.toLowercaseAfter]
    refine firstPiece_form_iff ?_ (fun d hd hdigit => ?_) (fun hdigit => ?_)
      (fun n => hA.keepsHyphens.replicate_prefix_iff hU n _ s) (fun digits => ih _) hdigits
    · split
      · split <;> simp
      · exact hU.lower_ne_nil c
    · obtain ⟨hascii, hletter, -, -⟩ := digit_or_hyphen_spec hdigit
      split_ifs at hd
      · exact absurd (List.mem_singleton.mp hd ▸ hascii) (by decide)
      · exact absurd (List.mem_singleton.mp hd ▸ hascii) (by decide)
      · exact hA.eq_of_mem_lower c d hd hascii hletter
    · obtain ⟨hascii, -, hlower, -⟩ := digit_or_hyphen_spec hdigit
      have hsigma : c ≠ 'Σ' := by
        rintro rfl
        exact absurd hascii (by decide)
      rw [if_neg hsigma, hA.lower c hascii, hlower]

/-- The digits in front of the first separator of a word are the same in title case. -/
theorem firstPiece_titleCaseWord_iff (hU : U.KeepsSpacing) (hA : U.FollowsAscii) (word : Str)
    {digits : Str} (hdigits : ∀ d ∈ digits, d.isDigit = true) :
    firstPiece blockSeparator (titleCaseWord U word) = digits ↔
      firstPiece blockSeparator word = digits := by
  cases word with
  | nil => rfl
  | cons c rest =>
    refine firstPiece_form_iff (hU.upper_ne_nil c) (fun d hd hdigit => ?_) (fun hdigit => ?_)
      (fun n => hA.keepsHyphens.replicate_prefix_iff hU n [] rest)
      (fun digits => firstPiece_toLowercaseAfter_iff hU hA [] rest) hdigits
    · obtain ⟨hascii, hletter, -, -⟩ := digit_or_hyphen_spec hdigit
      exact hA.eq_of_mem_upper c d hd hascii hletter
    · obtain ⟨hascii, -, -, hupper⟩ := digit_or_hyphen_spec hdigit
      rw [hA.upper c hascii, hupper]

/-! ## Names -/

/-- The level of a marker of the page is digits. -/
theorem IsMarkerOf.level_spec {text level : Str} (h : IsMarkerOf text (featWord ++ ' ' :: level)) :
    level ≠ [] ∧ ∀ c ∈ level, c.isDigit = true := by
  obtain ⟨feat, level', heq, hfeat, hne, hdigits⟩ := h.exists_level
  have hspace : ' ' ∉ feat := by
    intro hmem
    have hin := List.mem_map_of_mem (f := Char.toLower) hmem
    rw [beq_iff_eq.mp hfeat] at hin
    exact absurd hin (by decide)
  obtain ⟨-, rfl⟩ := (append_cons_inj_iff (by decide) hspace).mp heq
  exact ⟨hne, hdigits⟩

/-- Where in front of the first separator there is at most one word and it is digits, it is the same
in title case. -/
theorem firstWords_titleCaseWord_iff (hU : U.KeepsSpacing) (hA : U.FollowsAscii) (words : List Str)
    {level : Str} (hlevel : ∀ d ∈ level, d.isDigit = true) :
    firstWords blockSeparator (words.map (titleCaseWord U)) =
        [level].filter (fun word => !word.isEmpty) ↔
      firstWords blockSeparator words = [level].filter (fun word => !word.isEmpty) := by
  have hfilter : ∀ a b : Str, [a].filter (fun word => !word.isEmpty) =
      [b].filter (fun word => !word.isEmpty) ↔ a = b := by
    intro a b
    cases a <;> cases b <;> simp
  induction words generalizing level with
  | nil => rfl
  | cons word words ih =>
    have hpiece := firstPiece_titleCaseWord_iff hU hA word hlevel
    have hsep : blockSeparator <:+: titleCaseWord U word ↔ blockSeparator <:+: word :=
      hasSeparator_titleCaseWord_iff hU hA word
    rw [List.map_cons, firstWords, firstWords]
    by_cases hin : blockSeparator <:+: word
    · rw [if_pos (hsep.mpr hin), if_pos hin, hfilter, hfilter, hpiece]
    · rw [(pieces_of_unmatched hin).1, (pieces_of_unmatched (mt hsep.mp hin)).1] at hpiece
      have hnone := @ih [] (by simp)
      rw [if_neg (mt hsep.mp hin), if_neg hin]
      cases level with
      | nil => simp
      | cons c level => simpa [hpiece] using fun _ => hnone

/-- Whether the title case of a line is a marker of the page, as far as the first separator. -/
theorem isMarkerOf_titleCase_iff (hU : U.KeepsSpacing) (hA : U.FollowsAscii) (text line : Str) :
    IsMarkerOf text (upToSeparator (titleCase U line)) ↔
      SpellsMarker U text (upToSeparator line) := by
  have hsolid : ∀ c ∈ blockSeparator, isWhitespace c = false :=
    List.all_iff_forall_prop.mp (by decide)
  have hwords : ∀ word ∈ (splitWhitespace line).map (titleCaseWord U),
      word ≠ [] ∧ ∀ c ∈ word, isWhitespace c = false := by
    refine List.forall_mem_map.mpr fun word hword => ?_
    exact titleCaseWord_spec hU (isSolid_of_mem_splitWhitespace hword).ne_nil
      (eq_false_of_mem_splitOnP (List.mem_filter.mp hword).1)
  rw [upToSeparator, titleCase, trim_firstPiece_intercalate (by decide) hsolid hwords,
    isMarkerOf_intercalate_iff (mem_firstWords (by decide) hwords), SpellsMarker, upToSeparator,
    splitWhitespace_trim, splitWhitespace_firstPiece (by decide) hsolid]
  cases splitWhitespace line with
  | nil => simp [firstWords]
  | cons word words =>
    have hsep : blockSeparator <:+: titleCaseWord U word ↔ blockSeparator <:+: word :=
      hasSeparator_titleCaseWord_iff hU hA word
    rw [List.map_cons, firstWords, firstWords]
    by_cases hin : blockSeparator <:+: word
    · have hshort : ∀ a b c : Str, [a].filter (fun word => !word.isEmpty) ≠ [b, c] := by
        intro a b c
        cases a <;> simp
      simp only [if_pos (hsep.mpr hin), if_pos hin, hshort, false_and, exists_false]
    · rw [if_neg (mt hsep.mp hin), if_neg hin]
      have hrest : ∀ level, IsMarkerOf text (featWord ++ ' ' :: level) →
          (firstWords blockSeparator (words.map (titleCaseWord U)) = [level] ↔
            firstWords blockSeparator words = [level]) := by
        intro level hmarker
        obtain ⟨hne, hdigits⟩ := hmarker.level_spec
        have hiff := firstWords_titleCaseWord_iff hU hA words hdigits
        rwa [List.filter_cons_of_pos (by simpa using hne), List.filter_nil] at hiff
      constructor
      · rintro ⟨feat, level, heq, hfeat, hmarker⟩
        obtain ⟨rfl, hlevel⟩ := List.cons.inj heq
        exact ⟨word, level, by rw [(hrest level hmarker).mp hlevel], hfeat, hmarker⟩
      · rintro ⟨word', level, heq, hfeat, hmarker⟩
        obtain ⟨rfl, hlevel⟩ := List.cons.inj heq
        exact ⟨_, level, by rw [(hrest level hmarker).mpr hlevel], hfeat, hmarker⟩

/-! ## Odd spelling -/

/-- A line of ASCII characters in capitals that is a level marker in some letter case is one. -/
theorem isFeatLevelMarker_of_isMarkerOf (hA : U.FollowsAscii) {text line : Str}
    (hascii : ∀ c ∈ line, c.toNat < 128) (hshouty : isShouty U line = true)
    (h : IsMarkerOf text line) : isFeatLevelMarker line = true := by
  obtain ⟨feat, level, rfl, hfeat, hne, hdigits⟩ := h.exists_level
  have hcapital : ∀ c ∈ feat, c.toLower ∈ featWord.map Char.toLower → c = c.toLower.toUpper := by
    intro c hc hletter
    have hmem : c ∈ feat ++ ' ' :: level := List.mem_append_left _ hc
    have hlower : c.isLower = false := by
      by_contra hlower
      have hquiet := isShouty_eq_false hA hmem (hascii c hmem) (by simpa using hlower)
      exact absurd (hquiet.symm.trans hshouty) (by simp)
    have hall : ∀ n < 128, (Char.ofNat n).toLower ∈ featWord.map Char.toLower →
        (Char.ofNat n).isLower = false → Char.ofNat n = (Char.ofNat n).toLower.toUpper := by decide
    have hthis := hall c.toNat (hascii c hmem)
    rw [Char.ofNat_toNat] at hthis
    exact hthis hletter hlower
  obtain rfl : feat = featWord := by
    have hlower : feat.map Char.toLower = featWord.map Char.toLower := beq_iff_eq.mp hfeat
    have hback : (feat.map Char.toLower).map Char.toUpper = feat := by
      rw [List.map_map]
      refine (List.map_congr_left fun c hc => ?_).trans (List.map_id feat)
      exact (hcapital c hc (hlower ▸ List.mem_map_of_mem hc)).symm
    rw [← hback, hlower]
    decide
  have hstrip : stripPrefix "FEAT ".toList (featWord ++ ' ' :: level) = some level :=
    stripPrefix_eq_some_iff.mpr (by rfl)
  unfold isFeatLevelMarker
  rw [hstrip]
  simpa [hne] using hdigits

/-- Title case does not matter where letter case does not. -/
theorem eqIgnoreAsciiCase_titleCaseWord (hA : U.FollowsAscii) {word : Str}
    (hascii : ∀ c ∈ word, c.toNat < 128) :
    eqIgnoreAsciiCase word (titleCaseWord U word) = true := by
  apply beq_iff_eq.mpr
  cases word with
  | nil => rfl
  | cons c rest =>
    rw [List.forall_mem_cons] at hascii
    rw [titleCaseWord, hA.upper c hascii.1, hA.toLowercase_eq_map hascii.2]
    simp

/-- A heading line of ASCII characters that spells a marker does not spell it with a single space.
-/
theorem SpellsMarker.spaced_oddly (hA : U.FollowsAscii) {text line : Str}
    (hascii : ∀ c ∈ line, c.toNat < 128) (hheading : isHeadingLine U line = true)
    (h : SpellsMarker U text line) : line ≠ [' '].intercalate (splitWhitespace line) := by
  obtain ⟨hshouty, hmarker⟩ : isShouty U line = true ∧ isFeatLevelMarker line = false := by
    simpa [isHeadingLine] using hheading
  obtain ⟨word, level, hwords, hfeat, hlevel⟩ := h
  intro hline
  rw [hwords] at hline
  have hsame : eqIgnoreAsciiCase word (titleCaseWord U word) = true :=
    eqIgnoreAsciiCase_titleCaseWord hA fun c hc => hascii c (hline ▸ by simp [hc])
  have hmarked : IsMarkerOf text line := by
    refine hlevel.of_eqIgnoreAsciiCase (beq_iff_eq.mpr ?_)
    have hword : word.map Char.toLower = featWord.map Char.toLower :=
      (beq_iff_eq.mp hsame).trans (beq_iff_eq.mp hfeat)
    rw [hline]
    simp [hword]
  exact absurd (isFeatLevelMarker_of_isMarkerOf hA hascii hshouty hmarked) (by simp [hmarker])

/-- A trait line of ASCII characters that has a marker in its list has a comma. -/
theorem comma_mem_of_isMarkerOf (hU : U.KeepsSpacing) (hA : U.FollowsAscii) {text line item : Str}
    (hsolid : IsSolid line) (hascii : ∀ c ∈ line, c.toNat < 128)
    (hheading : isHeadingLine U line = true) (hitem : item ∈ splitList (U.toLowercase line))
    (h : IsMarkerOf text item) : ',' ∈ line := by
  obtain ⟨hshouty, hmarker⟩ : isShouty U line = true ∧ isFeatLevelMarker line = false := by
    simpa [isHeadingLine] using hheading
  by_contra hcomma
  have hnone : ',' ∉ U.toLowercase line := by
    rwa [hA.mem_toLowercase_iff (by decide) (by decide)]
  rw [splitList_of_notMem (hU.isSolid_toLowercase hsolid) hnone, List.mem_singleton] at hitem
  have hline : IsMarkerOf text line := by
    apply h.of_eqIgnoreAsciiCase
    rw [hitem, hA.toLowercase_eq_map hascii]
    simp [eqIgnoreAsciiCase]
  exact absurd (isFeatLevelMarker_of_isMarkerOf hA hascii hshouty hline) (by simp [hmarker])

end Pf2eParser
