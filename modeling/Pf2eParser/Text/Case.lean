import Pf2eParser.Text.Search
import Pf2eParser.Text.Whitespace

/-!
# Letter case of Unicode texts

The case operations of a string library read the Unicode character database.  `CaseTables` is that
database as far as they read it, and everything here is stated for arbitrary tables.

Lower-casing a text maps its characters one by one, with the one exception of the Greek capital
sigma, whose lower-case form depends on the letters around it.  `KeepsSpacing` collects the fact
about the database that the layout of a text depends on: a character that is not whitespace is
mapped to a nonempty text without whitespace.
-/

namespace Text

/-- The part of the Unicode character database that the case operations read. -/
structure CaseTables where
  /-- The property `Alphabetic`. -/
  isAlphabetic : Char → Bool
  /-- The property `Uppercase`. -/
  isUppercase : Char → Bool
  /-- The property `Lowercase`. -/
  isLowercase : Char → Bool
  /-- The property `Cased`. -/
  isCased : Char → Bool
  /-- The property `Case_Ignorable`. -/
  isCaseIgnorable : Char → Bool
  /-- The upper-case mapping of a character, which may be several characters. -/
  upper : Char → Str
  /-- The lower-case mapping of a character outside any context. -/
  lower : Char → Str

namespace CaseTables

variable (U : CaseTables)

/-- Behind the case-ignorable characters there is a cased letter. -/
def caseIgnorableThenCased (s : Str) : Bool :=
  match s.dropWhile U.isCaseIgnorable with
  | [] => false
  | c :: _ => U.isCased c

/-- Lower-case a text, given what stands before it in reverse order. -/
def toLowercaseAfter (before : Str) : Str → Str
  | [] => []
  | c :: rest =>
    (if c = 'Σ' then
      if U.caseIgnorableThenCased before && !U.caseIgnorableThenCased rest then ['ς'] else ['σ']
    else U.lower c) ++ toLowercaseAfter (c :: before) rest

/-- The lower-case form of a text. -/
def toLowercase (s : Str) : Str := U.toLowercaseAfter [] s

/-- The case mappings neither produce nor swallow whitespace. -/
structure KeepsSpacing : Prop where
  /-- No character vanishes in lower case. -/
  lower_ne_nil : ∀ c, U.lower c ≠ []
  /-- A character that is not whitespace does not become whitespace in lower case. -/
  lower_solid : ∀ c, isWhitespace c = false → ∀ d ∈ U.lower c, isWhitespace d = false
  /-- No character vanishes in upper case. -/
  upper_ne_nil : ∀ c, U.upper c ≠ []
  /-- A character that is not whitespace does not become whitespace in upper case. -/
  upper_solid : ∀ c, isWhitespace c = false → ∀ d ∈ U.upper c, isWhitespace d = false

/-- Lower-casing neither produces nor changes hyphens. -/
structure KeepsHyphens : Prop where
  /-- The hyphen has no case. -/
  lower_hyphen : U.lower '-' = ['-']
  /-- Nothing else has a hyphen in lower case. -/
  eq_of_mem_lower : ∀ c, '-' ∈ U.lower c → c = '-'

/-- The tables agree with ASCII: they know the ASCII letters and their case, and no other ASCII
character takes part in a case mapping. -/
structure FollowsAscii : Prop where
  /-- The ASCII letters. -/
  isAlphabetic : ∀ c : Char, c.toNat < 128 → U.isAlphabetic c = c.isAlpha
  /-- The ASCII upper-case letters. -/
  isUppercase : ∀ c : Char, c.toNat < 128 → U.isUppercase c = c.isUpper
  /-- The lower-case mapping of ASCII. -/
  lower : ∀ c : Char, c.toNat < 128 → U.lower c = [c.toLower]
  /-- Of the ASCII characters only letters are the lower-case form of something else. -/
  eq_of_mem_lower : ∀ c d : Char, d ∈ U.lower c → d.toNat < 128 → d.isAlpha = false → c = d
  /-- The upper-case mapping of ASCII. -/
  upper : ∀ c : Char, c.toNat < 128 → U.upper c = [c.toUpper]
  /-- Of the ASCII characters only letters are the upper-case form of something else. -/
  eq_of_mem_upper : ∀ c d : Char, d ∈ U.upper c → d.toNat < 128 → d.isAlpha = false → c = d

/-- The tables of the ASCII characters: every other character is caseless and not a letter. -/
def ascii : CaseTables where
  isAlphabetic := Char.isAlpha
  isUppercase := Char.isUpper
  isLowercase := Char.isLower
  isCased := Char.isAlpha
  isCaseIgnorable c := c.toNat == 0x27 || c == '.' || c == ':' || c == '^' || c.toNat == 0x60
  upper c := [c.toUpper]
  lower c := [c.toLower]

variable {U}

/-- The lower-case form of one character of a text: never empty and never whitespace, unless the
character is whitespace. -/
theorem KeepsSpacing.toLowercaseAfter_cons (h : U.KeepsSpacing) (before : Str) {c : Char}
    (hc : isWhitespace c = false) (rest : Str) :
    ∃ d ds, U.toLowercaseAfter before (c :: rest) =
      d :: ds ++ U.toLowercaseAfter (c :: before) rest ∧
      ∀ e ∈ d :: ds, isWhitespace e = false := by
  simp only [toLowercaseAfter]
  split
  · split
    · exact ⟨'ς', [], rfl, List.all_iff_forall_prop.mp (by decide)⟩
    · exact ⟨'σ', [], rfl, List.all_iff_forall_prop.mp (by decide)⟩
  · obtain ⟨d, ds, hd⟩ := List.exists_cons_of_ne_nil (h.lower_ne_nil c)
    exact ⟨d, ds, by rw [hd], fun e he => h.lower_solid c hc e (hd ▸ he)⟩

/-- A text without whitespace has none in lower case. -/
theorem KeepsSpacing.forall_mem_toLowercase (h : U.KeepsSpacing) {s : Str}
    (hs : ∀ c ∈ s, isWhitespace c = false) : ∀ d ∈ U.toLowercase s, isWhitespace d = false := by
  have hmain : ∀ before, ∀ d ∈ U.toLowercaseAfter before s, isWhitespace d = false := by
    induction s with
    | nil => simp [toLowercaseAfter]
    | cons c s ih =>
      intro before d hd
      obtain ⟨e, es, heq, hes⟩ := h.toLowercaseAfter_cons before (hs c (by simp)) s
      rw [heq] at hd
      rcases List.mem_append.mp hd with hd | hd
      · exact hes d hd
      · exact ih (fun c' hc' => hs c' (by simp [hc'])) _ d hd
  exact hmain []

/-- The lower-case form of a text that does not end with whitespace does not end with whitespace. -/
theorem KeepsSpacing.getLast?_toLowercaseAfter (h : U.KeepsSpacing) {s : Str} (before : Str)
    (hs : s ≠ []) (hlast : ∀ c ∈ s.getLast?, isWhitespace c = false) :
    U.toLowercaseAfter before s ≠ [] ∧
      ∀ d ∈ (U.toLowercaseAfter before s).getLast?, isWhitespace d = false := by
  induction s generalizing before with
  | nil => exact absurd rfl hs
  | cons c rest ih =>
    cases rest with
    | nil =>
      obtain ⟨d, ds, heq, hds⟩ := h.toLowercaseAfter_cons before (hlast c (by simp)) []
      rw [heq, toLowercaseAfter, List.append_nil]
      exact ⟨by simp, fun e he => hds e (List.mem_of_mem_getLast? he)⟩
    | cons c' rest =>
      obtain ⟨hne, hl⟩ := ih (c :: before) (by simp) fun d hd => hlast d (by simpa using hd)
      simp only [toLowercaseAfter] at hne hl ⊢
      refine ⟨by simp_all, fun d hd => hl d ?_⟩
      rwa [List.getLast?_append_of_ne_nil _ hne] at hd

/-- Lower-casing keeps texts solid. -/
theorem KeepsSpacing.isSolid_toLowercase (h : U.KeepsSpacing) {s : Str} (hs : IsSolid s) :
    IsSolid (U.toLowercase s) := by
  obtain ⟨hne, hl⟩ := h.getLast?_toLowercaseAfter [] hs.ne_nil hs.last
  refine ⟨⟨fun d hd => ?_, hl⟩, hne⟩
  obtain ⟨c, rest, rfl⟩ := List.exists_cons_of_ne_nil hs.ne_nil
  obtain ⟨e, es, heq, hes⟩ := h.toLowercaseAfter_cons [] (hs.head c (by simp)) rest
  rw [toLowercase, heq] at hd
  simp only [List.cons_append, List.head?_cons, Option.mem_def, Option.some.injEq] at hd
  exact hd ▸ hes e (by simp)

/-- Lower-casing a text after a character that is not a hyphen: some symbols without a hyphen, and
then the rest. -/
theorem KeepsHyphens.toLowercaseAfter_cons (h : U.KeepsHyphens) (hs : U.KeepsSpacing) (before : Str)
    {c : Char} (hc : c ≠ '-') (rest : Str) :
    ∃ d ds, U.toLowercaseAfter before (c :: rest) =
      d :: ds ++ U.toLowercaseAfter (c :: before) rest ∧ '-' ∉ d :: ds := by
  simp only [toLowercaseAfter]
  split
  · split
    · exact ⟨'ς', [], rfl, by decide⟩
    · exact ⟨'σ', [], rfl, by decide⟩
  · obtain ⟨d, ds, hd⟩ := List.exists_cons_of_ne_nil (hs.lower_ne_nil c)
    exact ⟨d, ds, by rw [hd], fun hmem => hc (h.eq_of_mem_lower c (hd ▸ hmem))⟩

/-- Lower-casing a text after a hyphen. -/
theorem KeepsHyphens.toLowercaseAfter_hyphen (h : U.KeepsHyphens) (before rest : Str) :
    U.toLowercaseAfter before ('-' :: rest) = '-' :: U.toLowercaseAfter ('-' :: before) rest := by
  rw [toLowercaseAfter, if_neg (by decide), h.lower_hyphen, List.singleton_append]

/-- A text starts with as many hyphens in lower case as it does anyway. -/
theorem KeepsHyphens.replicate_prefix_iff (h : U.KeepsHyphens) (hs : U.KeepsSpacing) (n : ℕ)
    (before s : Str) :
    List.replicate n '-' <+: U.toLowercaseAfter before s ↔ List.replicate n '-' <+: s := by
  induction s generalizing n before with
  | nil => rfl
  | cons c s ih =>
    cases n with
    | zero => simp
    | succ n =>
      by_cases hc : c = '-'
      · subst hc
        rw [h.toLowercaseAfter_hyphen, List.replicate_succ, List.cons_prefix_cons,
          List.cons_prefix_cons, ih]
      · obtain ⟨d, ds, heq, hd⟩ := h.toLowercaseAfter_cons hs before hc s
        have hne : '-' ≠ d := fun hcd => hd (hcd ▸ List.mem_cons_self)
        rw [heq, List.replicate_succ, List.cons_append, List.cons_prefix_cons,
          List.cons_prefix_cons]
        simp [hne, Ne.symm hc]

/-- A text has a row of hyphens in lower case exactly when it has one anyway. -/
theorem KeepsHyphens.replicate_infix_iff (h : U.KeepsHyphens) (hs : U.KeepsSpacing) (n : ℕ)
    (s : Str) :
    List.replicate n '-' <:+: U.toLowercase s ↔ List.replicate n '-' <:+: s := by
  have hmain : ∀ before, List.replicate n '-' <:+: U.toLowercaseAfter before s ↔
      List.replicate n '-' <:+: s := by
    induction s with
    | nil => exact fun before => Iff.rfl
    | cons c s ih =>
      intro before
      by_cases hc : c = '-'
      · rw [List.infix_cons_iff, ← h.replicate_prefix_iff hs n before]
        subst hc
        rw [h.toLowercaseAfter_hyphen, List.infix_cons_iff, ih]
      · obtain ⟨d, ds, heq, hd⟩ := h.toLowercaseAfter_cons hs before hc s
        cases n with
        | zero => simp
        | succ n =>
          have hpat : List.replicate (n + 1) '-' ≠ [] := by simp
          have hone : '-' ∉ [c] := by simpa using Ne.symm hc
          rw [heq, infix_append_iff_right hpat fun e he => List.eq_of_mem_replicate he ▸ hd,
            show c :: s = [c] ++ s from rfl,
            infix_append_iff_right hpat fun e he => List.eq_of_mem_replicate he ▸ hone, ih]
  exact hmain []

/-- Tables that agree with ASCII keep hyphens. -/
theorem FollowsAscii.keepsHyphens (h : U.FollowsAscii) : U.KeepsHyphens where
  lower_hyphen := h.lower '-' (by decide)
  eq_of_mem_lower c hc := h.eq_of_mem_lower c '-' hc (by decide) (by decide)

/-- An ASCII text in lower case. -/
theorem FollowsAscii.toLowercase_eq_map (h : U.FollowsAscii) {s : Str}
    (hs : ∀ c ∈ s, c.toNat < 128) : U.toLowercase s = s.map Char.toLower := by
  have hmain : ∀ before, U.toLowercaseAfter before s = s.map Char.toLower := by
    induction s with
    | nil => exact fun _ => rfl
    | cons c s ih =>
      intro before
      have hsigma : c ≠ 'Σ' := by
        rintro rfl
        exact absurd (hs 'Σ' (by simp)) (by decide)
      rw [toLowercaseAfter, if_neg hsigma, h.lower c (hs c (by simp)),
        ih (fun d hd => hs d (by simp [hd])), List.map_cons, List.singleton_append]
  exact hmain []

/-- An ASCII character that is not a letter is in the lower-case form of a text exactly when it is
in the text. -/
theorem FollowsAscii.mem_toLowercase_iff (h : U.FollowsAscii) {d : Char} (hd : d.toNat < 128)
    (halpha : d.isAlpha = false) (s : Str) : d ∈ U.toLowercase s ↔ d ∈ s := by
  have hlower : d.toLower = d := by
    refine dif_neg fun hrange => ?_
    have hupper : d.isUpper = true := decide_eq_true hrange
    have hnot : (d.isUpper || d.isLower) = false := halpha
    rw [hupper, Bool.true_or] at hnot
    exact absurd hnot (by decide)
  have hmain : ∀ before, d ∈ U.toLowercaseAfter before s ↔ d ∈ s := by
    induction s with
    | nil => exact fun _ => Iff.rfl
    | cons c s ih =>
      intro before
      rw [toLowercaseAfter, List.mem_append, List.mem_cons, ih]
      refine or_congr_left ?_
      split
      case isTrue hsigma =>
        subst hsigma
        have hne : ∀ e : Char, 128 ≤ e.toNat → d ≠ e := by
          rintro e he rfl
          omega
        split <;> simp [hne _ (show 128 ≤ ('ς' : Char).toNat by decide),
          hne _ (show 128 ≤ ('σ' : Char).toNat by decide),
          hne _ (show 128 ≤ ('Σ' : Char).toNat by decide)]
      case isFalse =>
        constructor
        · exact fun hmem => (h.eq_of_mem_lower c d hmem hd halpha).symm
        · rintro rfl
          rw [h.lower d hd, hlower, List.mem_singleton]
  exact hmain []

/-- The characters outside ASCII have no ASCII case. -/
theorem toLower_toUpper_of_not_ascii {c : Char} (h : 128 ≤ c.toNat) :
    c.toLower = c ∧ c.toUpper = c := by
  constructor
  · refine dif_neg ?_
    rintro ⟨-, hz⟩
    have hle : c.toNat ≤ 'Z'.toNat := hz
    exact absurd (h.trans hle) (by decide)
  · refine dif_neg ?_
    rintro ⟨-, hz⟩
    have hle : c.toNat ≤ 'z'.toNat := hz
    exact absurd (h.trans hle) (by decide)

/-- ASCII case mapping does not touch whitespace. -/
theorem isWhitespace_toLower_toUpper (c : Char) :
    isWhitespace c.toLower = isWhitespace c ∧ isWhitespace c.toUpper = isWhitespace c := by
  rcases lt_or_ge c.toNat 128 with h | h
  · have hall : ∀ n < 128, isWhitespace (Char.ofNat n).toLower = isWhitespace (Char.ofNat n) ∧
        isWhitespace (Char.ofNat n).toUpper = isWhitespace (Char.ofNat n) := by decide
    simpa only [Char.ofNat_toNat] using hall c.toNat h
  · obtain ⟨hl, hu⟩ := toLower_toUpper_of_not_ascii h
    rw [hl, hu]
    exact ⟨rfl, rfl⟩

/-- The ASCII tables keep the spacing of texts. -/
theorem ascii_keepsSpacing : ascii.KeepsSpacing where
  lower_ne_nil _ := by simp [ascii]
  lower_solid c hc d hd := by
    rw [List.mem_singleton.mp hd, (isWhitespace_toLower_toUpper c).1, hc]
  upper_ne_nil _ := by simp [ascii]
  upper_solid c hc d hd := by
    rw [List.mem_singleton.mp hd, (isWhitespace_toLower_toUpper c).2, hc]

/-- The ASCII tables keep hyphens. -/
theorem ascii_keepsHyphens : ascii.KeepsHyphens where
  lower_hyphen := by decide
  eq_of_mem_lower c hc := by
    have heq : '-' = c.toLower := List.mem_singleton.mp hc
    rcases lt_or_ge c.toNat 128 with h | h
    · have hall : ∀ n < 128, '-' = (Char.ofNat n).toLower → Char.ofNat n = '-' := by decide
      simpa only [Char.ofNat_toNat, heq, true_implies] using hall c.toNat h
    · rw [heq, (toLower_toUpper_of_not_ascii h).1]

/-- A digit is a visible ASCII character without case. -/
theorem digit_spec {c : Char} (h : c.isDigit = true) : c.toNat < 128 ∧ c.isAlpha = false ∧
    c.isUpper = false ∧ c.toLower = c ∧ isWhitespace c = false := by
  have hascii : c.toNat < 128 := lt_of_le_of_lt (Char.isDigit_iff_toNat.mp h).2 (by decide)
  have hall : ∀ n < 128, (Char.ofNat n).isDigit = true → (Char.ofNat n).isAlpha = false ∧
      (Char.ofNat n).isUpper = false ∧ (Char.ofNat n).toLower = Char.ofNat n ∧
        isWhitespace (Char.ofNat n) = false := by decide
  have hthis := hall c.toNat hascii
  rw [Char.ofNat_toNat] at hthis
  exact ⟨hascii, hthis h⟩

/-- An ASCII character that is not a letter is the case mapping of nothing else. -/
theorem eq_of_eq_toLower_toUpper {c d : Char} (hd : d.isAlpha = false)
    (h : d = c.toLower ∨ d = c.toUpper) : c = d := by
  rcases lt_or_ge c.toNat 128 with hc | hc
  · have hall : ∀ n < 128, ((Char.ofNat n).toLower.isAlpha = false →
        Char.ofNat n = (Char.ofNat n).toLower) ∧ ((Char.ofNat n).toUpper.isAlpha = false →
          Char.ofNat n = (Char.ofNat n).toUpper) := by decide
    have hthis := hall c.toNat hc
    rw [Char.ofNat_toNat] at hthis
    rcases h with rfl | rfl
    · exact hthis.1 hd
    · exact hthis.2 hd
  · obtain ⟨hl, hu⟩ := toLower_toUpper_of_not_ascii hc
    rw [hl, hu, or_self] at h
    exact h.symm

/-- The ASCII tables agree with ASCII. -/
theorem ascii_followsAscii : ascii.FollowsAscii where
  isAlphabetic _ _ := rfl
  isUppercase _ _ := rfl
  lower _ _ := rfl
  eq_of_mem_lower _ _ hmem _ hd := eq_of_eq_toLower_toUpper hd (Or.inl (List.mem_singleton.mp hmem))
  upper _ _ := rfl
  eq_of_mem_upper _ _ hmem _ hd := eq_of_eq_toLower_toUpper hd (Or.inr (List.mem_singleton.mp hmem))

end CaseTables

end Text
