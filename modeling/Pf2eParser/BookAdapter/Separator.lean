import Pf2eParser.BookAdapter
import Pf2eParser.Parser.Blocks

/-!
# Separators in joined blocks

The converters join their blocks with a line `---`, and the block parser cuts at every occurrence of
`---`.  So joined blocks are read back one by one exactly when no block contains `---` itself:
`parseCandidates_joined_iff`.  The other sections follow the separator, and the absence of
whitespace at the ends of a text, through the operations that blocks are rendered with.
-/

namespace Pf2eParser

open Text

variable {U : CaseTables}

/-! ## Joined blocks -/

/-- Joined blocks are cut apart again, and each of them is cut as if it stood alone. -/
theorem sourceBlocks_joined (blocks : List Str) :
    sourceBlocks (blockJoint.intercalate blocks) = blocks.flatMap sourceBlocks := by
  have hfeed : ∀ c ∈ ['\n'], isWhitespace c = true := List.all_iff_forall_prop.mp (by decide)
  induction blocks with
  | nil => rfl
  | cons block blocks ih =>
    cases blocks with
    | nil => simp
    | cons block' blocks =>
      have hcut : blockJoint.intercalate (block :: block' :: blocks) = block ++ ['\n'] ++
          (blockSeparator ++ (['\n'] ++ blockJoint.intercalate (block' :: blocks))) := by
        rw [List.intercalate_cons_cons]
        simp [blockJoint, blockSeparator]
      rw [hcut, sourceBlocks_append_separator hfeed hfeed (Or.inr (by simp)), ih]
      simp only [List.flatMap_cons]

/-- A solid block without the separator is its only block. -/
theorem sourceBlocks_eq_singleton {block : Str} (hsolid : IsSolid block)
    (h : ¬ blockSeparator <:+: block) : sourceBlocks block = [block] := by
  rw [sourceBlocks_of_no_separator h, hsolid.trim_eq]
  simp [hsolid.ne_nil]

/-- Joined solid blocks are cut apart again exactly when none of them contains the separator. -/
theorem sourceBlocks_joined_iff {blocks : List Str} (hsolid : ∀ block ∈ blocks, IsSolid block) :
    sourceBlocks (blockJoint.intercalate blocks) = blocks ↔
      ∀ block ∈ blocks, ¬ blockSeparator <:+: block := by
  constructor
  · intro h block hmem
    exact not_infix_of_mem_sourceBlocks (h ▸ hmem)
  · intro h
    rw [sourceBlocks_joined]
    induction blocks with
    | nil => rfl
    | cons block blocks ih =>
      rw [List.flatMap_cons, sourceBlocks_eq_singleton (hsolid block (by simp)) (h block (by simp)),
        ih (fun b hb => hsolid b (by simp [hb])) fun b hb => h b (by simp [hb]),
        List.singleton_append]

/-- Joined solid blocks are parsed block by block exactly when none of them contains the separator.
-/
theorem parseCandidates_joined_iff (fresh : ℕ → Uuid) {blocks : List Str}
    (hsolid : ∀ block ∈ blocks, IsSolid block) :
    (parseCandidates U fresh (blockJoint.intercalate blocks)).map Candidate.anonymous =
        blocks.map (parseBlock U 0) ↔
      ∀ block ∈ blocks, ¬ blockSeparator <:+: block := by
  rw [anonymous_parseCandidates, (List.map_injective_iff.mpr (parseBlock_injective 0)).eq_iff,
    sourceBlocks_joined_iff hsolid]

/-- Joined blocks without the separator are parsed one by one. -/
theorem parseCandidates_joined {Entry : Type} (fresh : ℕ → Uuid) {entries : List Entry}
    {render : Entry → Str} {candidate : Entry → Uuid → Candidate}
    (hsolid : ∀ entry ∈ entries, IsSolid (render entry))
    (hclean : ∀ entry ∈ entries, ¬ blockSeparator <:+: render entry)
    (hparse : ∀ entry ∈ entries, ∀ id, parseBlock U id (render entry) = candidate entry id) :
    parseCandidates U fresh (blockJoint.intercalate (entries.map render)) =
      entries.mapIdx fun i entry => candidate entry (fresh i) := by
  have hblocks : sourceBlocks (blockJoint.intercalate (entries.map render)) =
      entries.map render := by
    rw [sourceBlocks_joined_iff (List.forall_mem_map.mpr hsolid)]
    exact List.forall_mem_map.mpr hclean
  rw [parseCandidates, hblocks]
  apply List.ext_getElem
  · simp
  · intro i hi hi'
    simp only [List.getElem_mapIdx, List.getElem_map]
    exact hparse _ (List.getElem_mem _) _

/-! ## Texts with the separator -/

/-- The text contains the block separator. -/
def HasSeparator (s : Str) : Prop := blockSeparator <:+: s

/-- A front without hyphens does not matter. -/
theorem hasSeparator_append_iff {front s : Str} (h : '-' ∉ front) :
    HasSeparator (front ++ s) ↔ HasSeparator s :=
  infix_append_iff_right (by decide) fun c hc => by
    have hall : ∀ c ∈ blockSeparator, c = '-' := List.all_iff_forall_prop.mp (by decide)
    rwa [hall c hc]

/-- A first character that is not a hyphen does not matter. -/
theorem hasSeparator_cons_iff {c : Char} {s : Str} (hc : c ≠ '-') :
    HasSeparator (c :: s) ↔ HasSeparator s :=
  hasSeparator_append_iff fun h => hc (List.mem_singleton.mp h).symm

/-- The separator does not straddle another character. -/
theorem hasSeparator_append_cons_iff {a b : Str} {c : Char} (hc : c ≠ '-') :
    HasSeparator (a ++ c :: b) ↔ HasSeparator a ∨ HasSeparator b :=
  infix_append_cons_iff fun hmem => hc ((List.all_iff_forall_prop.mp (by decide) :
    ∀ c ∈ blockSeparator, c = '-') c hmem)

/-- The separator in joined texts is the separator in one of them. -/
theorem hasSeparator_intercalate_iff {joint : Str} (hne : joint ≠ []) (h : '-' ∉ joint)
    (parts : List Str) :
    HasSeparator (joint.intercalate parts) ↔ ∃ part ∈ parts, HasSeparator part :=
  infix_intercalate_iff (by decide) hne (fun c hc => by
    have hall : ∀ c ∈ blockSeparator, c = '-' := List.all_iff_forall_prop.mp (by decide)
    rwa [hall c hc]) parts

/-- Trimming does not touch the separator. -/
theorem hasSeparator_trim_iff (s : Str) : HasSeparator (trim s) ↔ HasSeparator s :=
  infix_trim_iff (by decide) (List.all_iff_forall_prop.mp (by decide))

/-- Lower-casing does not touch the separator. -/
theorem hasSeparator_toLowercase_iff (hU : U.KeepsSpacing) (hH : U.KeepsHyphens) (s : Str) :
    HasSeparator (U.toLowercase s) ↔ HasSeparator s :=
  hH.replicate_infix_iff hU 3 s

/-- The empty text does not contain the separator. -/
theorem not_hasSeparator_nil : ¬ HasSeparator [] := by simp [HasSeparator, blockSeparator]

/-- The separator in a labelled list is the separator in one of its items. -/
theorem hasSeparator_listLine_iff {label joint : String} (hl : '-' ∉ label.toList)
    (hne : joint.toList ≠ []) (hj : '-' ∉ joint.toList) (items : List Str) :
    (∃ line ∈ listLine label joint items, HasSeparator line) ↔
      ∃ item ∈ items, HasSeparator item := by
  unfold listLine
  split
  case isTrue h =>
    rw [List.isEmpty_iff.mp h]
  case isFalse h =>
    simp only [List.mem_singleton, exists_eq_left]
    rw [hasSeparator_append_iff hl, hasSeparator_intercalate_iff hne hj]

/-- The separator in a labelled value is the separator in the value. -/
theorem hasSeparator_valueLine_iff {label : String} (hl : '-' ∉ label.toList)
    (value : Option Str) :
    (∃ line ∈ valueLine label value, HasSeparator line) ↔ ∃ text ∈ value, HasSeparator text := by
  cases value with
  | none => simp [valueLine]
  | some text => simp [valueLine, hasSeparator_append_iff hl]

/-! ## Solid lines -/

/-- A text that starts with a visible character and ends like a solid text is solid. -/
theorem isSolid_append {front s : Str} {c : Char} (hfront : front.head? = some c)
    (hc : isWhitespace c = false) (hs : IsSolid s) : IsSolid (front ++ s) where
  head d hd := by
    rw [List.head?_append, hfront, Option.some_or, Option.mem_some_iff] at hd
    exact hd ▸ hc
  last d hd := hs.last d (by rwa [List.getLast?_append_of_ne_nil _ hs.ne_nil] at hd)
  ne_nil := by simp [hs.ne_nil]

/-- The lines of a labelled list of solid items are solid. -/
theorem isSolid_of_mem_listLine {label joint : String} {c : Char}
    (hl : label.toList.head? = some c) (hc : isWhitespace c = false) {items : List Str}
    (hitems : ∀ item ∈ items, IsSolid item) :
    ∀ line ∈ listLine label joint items, IsSolid line := by
  intro line hline
  unfold listLine at hline
  split at hline
  case isTrue => simp at hline
  case isFalse h =>
    rw [List.mem_singleton.mp hline]
    exact isSolid_append hl hc (isSolid_intercalate _ (by simpa using h) hitems)

/-- The line of a labelled solid value is solid. -/
theorem isSolid_of_mem_valueLine {label : String} {c : Char} (hl : label.toList.head? = some c)
    (hc : isWhitespace c = false) {value : Option Str} (hvalue : ∀ text ∈ value, IsSolid text) :
    ∀ line ∈ valueLine label value, IsSolid line := by
  intro line hline
  obtain ⟨text, htext, rfl⟩ := List.mem_map.mp hline
  exact isSolid_append hl hc (hvalue text (by simpa using htext))

/-- A word in title case is a word. -/
theorem titleCaseWord_spec (hU : U.KeepsSpacing) {word : Str} (hne : word ≠ [])
    (hword : ∀ c ∈ word, isWhitespace c = false) :
    titleCaseWord U word ≠ [] ∧ ∀ c ∈ titleCaseWord U word, isWhitespace c = false := by
  obtain ⟨first, rest, rfl⟩ := List.exists_cons_of_ne_nil hne
  rw [titleCaseWord]
  refine ⟨List.append_ne_nil_of_left_ne_nil (hU.upper_ne_nil first) _, fun c hc => ?_⟩
  rcases List.mem_append.mp hc with hc | hc
  · exact hU.upper_solid first (hword first (by simp)) c hc
  · exact hU.forall_mem_toLowercase (fun d hd => hword d (by simp [hd])) c hc

/-- The title case of a solid text is a single line. -/
theorem isLine_titleCase (hU : U.KeepsSpacing) {s : Str} (hs : IsSolid s) :
    IsLine (titleCase U s) := by
  refine isLine_intercalate (by decide) (by simpa using hs.splitWhitespace_ne_nil) ?_
  intro piece hpiece
  obtain ⟨word, hword, rfl⟩ := List.mem_map.mp hpiece
  obtain ⟨hne, hall⟩ := titleCaseWord_spec hU (isSolid_of_mem_splitWhitespace hword).ne_nil
    (eq_false_of_mem_splitOnP (List.mem_filter.mp hword).1)
  refine ⟨⟨⟨fun c hc => hall c (List.mem_of_mem_head? hc), fun c hc =>
    hall c (List.mem_of_mem_getLast? hc)⟩, hne⟩, fun hfeed => ?_⟩
  exact absurd (hall _ hfeed) (by decide)

/-- The title case of a solid text is solid. -/
theorem isSolid_titleCase (hU : U.KeepsSpacing) {s : Str} (hs : IsSolid s) :
    IsSolid (titleCase U s) := (isLine_titleCase hU hs).toIsSolid

/-! ## Shouty texts -/

/-- A text with an ASCII letter in lower case is not shouty. -/
theorem isShouty_eq_false (hA : U.FollowsAscii) {s : Str} {c : Char} (hc : c ∈ s)
    (hascii : c.toNat < 128) (hlower : c.isLower = true) : isShouty U s = false := by
  have halpha : U.isAlphabetic c = true :=
    (hA.isAlphabetic c hascii).trans (Bool.or_eq_true_iff.mpr (Or.inr hlower))
  have hupper : U.isUppercase c = false := by
    have hall : ∀ n < 128, (Char.ofNat n).isLower = true → (Char.ofNat n).isUpper = false := by
      decide
    rw [hA.isUppercase c hascii]
    simpa only [Char.ofNat_toNat, hlower, true_implies] using hall c.toNat hascii
  rw [isShouty, Bool.and_eq_false_iff]
  refine Or.inr (List.all_eq_false.mpr ⟨c, List.mem_filter.mpr ⟨hc, halpha⟩, ?_⟩)
  simp [hupper]

/-- A heading with an action cost is not shouty, as the cost is not. -/
theorem isShouty_of_detectHeading (hA : U.FollowsAscii) {line : Str}
    (h : (detectHeading U line).isSome) : line ≠ [] ∧ isShouty U line = false := by
  obtain ⟨found, hfound⟩ := Option.isSome_iff_exists.mp h
  obtain ⟨⟨marker, ruleTypeLabel⟩, hmem, hread⟩ := List.exists_of_findSome?_eq_some hfound
  obtain ⟨front, hstrip, -⟩ := Option.bind_eq_some_iff.mp hread
  have hsuffix : marker <:+ line := ⟨front, (stripSuffix_eq_some_iff.mp hstrip).symm⟩
  have hall : ∀ entry ∈ actionCostMarkers, 'a' ∈ entry.1 := List.all_iff_forall_prop.mp (by decide)
  have ha : 'a' ∈ line := hsuffix.subset (hall _ hmem)
  exact ⟨List.ne_nil_of_mem ha, isShouty_eq_false hA ha (by decide) (by decide)⟩

/-- A level marker is shouty. -/
theorem isShouty_of_isFeatLevelMarker (hA : U.FollowsAscii) {line : Str}
    (h : isFeatLevelMarker line = true) : isShouty U line = true := by
  unfold isFeatLevelMarker at h
  split at h
  case h_2 => exact absurd h (by decide)
  case h_1 rest hstrip =>
    obtain rfl := stripPrefix_eq_some_iff.mp hstrip
    have hdigits : ∀ c ∈ rest, c.isDigit = true := by
      simpa using (Bool.and_eq_true_iff.mp h).2
    have hletters : ∀ c ∈ "FEAT ".toList, c.toNat < 128 ∧ (c.isAlpha = true → c.isUpper = true) :=
      List.all_iff_forall_prop.mp (by decide)
    have hF : U.isAlphabetic 'F' = true := hA.isAlphabetic 'F' (by decide)
    rw [isShouty, Bool.and_eq_true_iff]
    refine ⟨List.any_eq_true.mpr ⟨'F', by simp, hF⟩, List.all_eq_true.mpr fun c hc => ?_⟩
    obtain ⟨hmem, halpha⟩ := List.mem_filter.mp hc
    rcases List.mem_append.mp hmem with hmem | hmem
    · obtain ⟨hascii, hupper⟩ := hletters c hmem
      rw [hA.isAlphabetic c hascii] at halpha
      rw [hA.isUppercase c hascii, hupper halpha]
    · -- a digit is no letter
      obtain ⟨hascii, hnot, -⟩ := CaseTables.digit_spec (hdigits c hmem)
      rw [hA.isAlphabetic c hascii, hnot] at halpha
      exact absurd halpha (by decide)

/-! ## Paragraphs -/

/-- The paragraphs of a state of the paragraph loop, at the end of the text. -/
def closeParagraphs (state : List Str × List Str) : List Str :=
  if state.2.isEmpty then state.1 else state.1 ++ [[' '].intercalate state.2]

/-- The paragraphs are the runs of lines between blank lines. -/
theorem groupParagraphs_eq (lines : List Str) :
    groupParagraphs lines = ((lines.splitOnP List.isEmpty).filter fun part => !part.isEmpty).map
      fun part => [' '].intercalate part := by
  set close : List (List Str) → List Str := fun parts =>
    (parts.filter fun part => !part.isEmpty).map fun part => [' '].intercalate part with hclose
  have hmain : ∀ paragraphs current : List Str,
      closeParagraphs (lines.foldl groupStep (paragraphs, current)) =
        paragraphs ++ close ((lines.splitOnP List.isEmpty).modifyHead (current ++ ·)) := by
    induction lines with
    | nil =>
      intro paragraphs current
      cases current <;> simp [hclose, closeParagraphs]
    | cons line lines ih =>
      intro paragraphs current
      obtain ⟨first, rest, hsplit⟩ :=
        List.exists_cons_of_ne_nil (List.splitOnP_ne_nil List.isEmpty lines)
      rw [List.foldl_cons, List.splitOnP_cons_eq_if_modifyHead]
      by_cases hline : line.isEmpty
      · by_cases hcurrent : current.isEmpty
        · obtain rfl := List.isEmpty_iff.mp hcurrent
          rw [groupStep, if_pos hline, if_pos hcurrent, ih, hsplit]
          simp [hclose, hline]
        · rw [groupStep, if_pos hline, if_neg hcurrent, ih, hsplit]
          simp [hclose, hline, hcurrent]
      · rw [groupStep, if_neg hline, ih, hsplit]
        simp [hclose, hline]
  obtain ⟨first, rest, hsplit⟩ :=
    List.exists_cons_of_ne_nil (List.splitOnP_ne_nil List.isEmpty lines)
  have h := hmain [] []
  rw [hsplit, List.modifyHead_cons, List.nil_append, List.nil_append, ← hsplit] at h
  exact h

/-- A blank line separates the paragraphs on its two sides. -/
theorem groupParagraphs_append_blank (ls ls' : List Str) :
    groupParagraphs (ls ++ [] :: ls') = groupParagraphs ls ++ groupParagraphs ls' := by
  simp only [groupParagraphs_eq]
  rw [List.splitOnP_append_cons _ _ (by rfl), List.filter_append, List.map_append]

/-- Blank lines in front of a text do not make a paragraph. -/
theorem groupParagraphs_blanks (n : ℕ) (ls : List Str) :
    groupParagraphs (List.replicate n [] ++ ls) = groupParagraphs ls := by
  induction n with
  | zero => rfl
  | succ n ih =>
    rw [List.replicate_succ, List.cons_append, ← ih]
    exact groupParagraphs_append_blank [] _

/-- Nonblank lines are one paragraph. -/
theorem groupParagraphs_run {run : List Str} (hne : run ≠ []) (h : ∀ line ∈ run, line ≠ []) :
    groupParagraphs run = [[' '].intercalate run] := by
  have hall : ∀ line ∈ run, line.isEmpty = false := fun line hl => by simpa using h line hl
  rw [groupParagraphs_eq, List.splitOnP_eq_singleton hall]
  simp [hne]

/-- Nonblank lines in front of a text become a part of its first paragraph, if it does not start
with a blank line. -/
theorem groupParagraphs_cons {line : Str} (hline : line ≠ []) (ls : List Str) :
    ∃ part tail, groupParagraphs (line :: ls) = [' '].intercalate (line :: part) :: tail ∧
      ∀ run : List Str, (∀ l ∈ run, l ≠ []) →
        groupParagraphs (run ++ line :: ls) = [' '].intercalate (run ++ line :: part) :: tail := by
  obtain ⟨part, rest, hsplit⟩ :=
    List.exists_cons_of_ne_nil (List.splitOnP_ne_nil List.isEmpty ls)
  have hmain : ∀ run : List Str, (∀ l ∈ run, l ≠ []) →
      (run ++ line :: ls).splitOnP List.isEmpty = (run ++ line :: part) :: rest := by
    intro run hrun
    induction run with
    | nil =>
      rw [List.nil_append, List.splitOnP_cons_eq_if_modifyHead, hsplit]
      simp [hline]
    | cons l run ih =>
      rw [List.cons_append, List.splitOnP_cons_eq_if_modifyHead,
        ih fun l' hl => hrun l' (by simp [hl])]
      simp [hrun l (by simp)]
  have hgroup : ∀ run : List Str, (∀ l ∈ run, l ≠ []) → groupParagraphs (run ++ line :: ls) =
      [' '].intercalate (run ++ line :: part) ::
        (rest.filter fun part => !part.isEmpty).map fun part => [' '].intercalate part := by
    intro run hrun
    rw [groupParagraphs_eq, hmain run hrun, List.filter_cons_of_pos (by simp), List.map_cons]
  exact ⟨part, _, hgroup [] (by simp), hgroup⟩

/-- The paragraphs joined by spaces are the nonblank lines joined by spaces. -/
theorem intercalate_groupParagraphs (ls : List Str) :
    [' '].intercalate (groupParagraphs ls) =
      [' '].intercalate (ls.filter fun line => !line.isEmpty) := by
  have hjoin : ∀ parts : List (List Str), (∀ part ∈ parts, part ≠ []) →
      [' '].intercalate (parts.map fun part => [' '].intercalate part) =
        [' '].intercalate parts.flatten := by
    intro parts hparts
    induction parts with
    | nil => rfl
    | cons part parts ih =>
      have hrest := ih fun p hp => hparts p (by simp [hp])
      cases parts with
      | nil => simp
      | cons part' parts =>
        rw [List.map_cons, List.flatten_cons, intercalate_append _ (hparts part (by simp)),
          ← hrest, List.map_cons, List.intercalate_cons_cons]
        simp [hparts part' (by simp)]
  have hflatten : ((ls.splitOnP List.isEmpty).filter fun part => !part.isEmpty).flatten =
      ls.filter fun line => !line.isEmpty := by
    induction ls with
    | nil => rfl
    | cons line ls ih =>
      obtain ⟨part, rest, hsplit⟩ :=
        List.exists_cons_of_ne_nil (List.splitOnP_ne_nil List.isEmpty ls)
      rw [hsplit] at ih
      rw [List.splitOnP_cons_eq_if_modifyHead, hsplit]
      cases hline : line.isEmpty
      · cases part <;> simp_all
      · simp_all
  rw [groupParagraphs_eq, hjoin _ fun part hp => by simpa using (List.mem_filter.mp hp).2, hflatten]

/-- A paragraph is a run of nonblank lines, joined by spaces. -/
theorem exists_of_mem_groupParagraphs {lines : List Str} {paragraph : Str}
    (h : paragraph ∈ groupParagraphs lines) :
    ∃ part : List Str, part ≠ [] ∧ (∀ line ∈ part, line ∈ lines ∧ line ≠ []) ∧
      paragraph = [' '].intercalate part := by
  rw [groupParagraphs_eq] at h
  obtain ⟨part, hpart, rfl⟩ := List.mem_map.mp h
  obtain ⟨hmem, hne⟩ := List.mem_filter.mp hpart
  refine ⟨part, by simpa using hne, fun line hline => ?_, rfl⟩
  exact ⟨mem_of_mem_splitOnP hmem hline, by simpa using eq_false_of_mem_splitOnP hmem line hline⟩

/-- The paragraphs of lines without whitespace at their ends are solid. -/
theorem isSolid_of_mem_groupParagraphs {lines : List Str} (h : ∀ line ∈ lines, IsTrimmed line) :
    ∀ paragraph ∈ groupParagraphs lines, IsSolid paragraph := by
  intro paragraph hparagraph
  obtain ⟨part, hne, hpart, rfl⟩ := exists_of_mem_groupParagraphs hparagraph
  exact isSolid_intercalate _ hne fun line hline =>
    ⟨h line (hpart line hline).1, (hpart line hline).2⟩

/-- The separator in a paragraph is the separator in one of its lines. -/
theorem hasSeparator_groupParagraphs_iff (lines : List Str) :
    (∃ paragraph ∈ groupParagraphs lines, HasSeparator paragraph) ↔
      ∃ line ∈ lines, HasSeparator line := by
  have hjoin := @hasSeparator_intercalate_iff [' '] (by simp) (by decide)
  constructor
  · rintro ⟨paragraph, hparagraph, hsep⟩
    obtain ⟨part, -, hpart, rfl⟩ := exists_of_mem_groupParagraphs hparagraph
    obtain ⟨line, hline, hsep⟩ := (hjoin part).mp hsep
    exact ⟨line, (hpart line hline).1, hsep⟩
  · rintro ⟨line, hline, hsep⟩
    have hne : line.isEmpty = false := by
      cases line with
      | nil => exact absurd hsep not_hasSeparator_nil
      | cons c line => rfl
    obtain ⟨part, hpart, hmem⟩ := exists_mem_splitOnP hline hne
    refine ⟨[' '].intercalate part, ?_, (hjoin part).mpr ⟨line, hmem, hsep⟩⟩
    rw [groupParagraphs_eq]
    exact List.mem_map_of_mem (List.mem_filter.mpr ⟨hpart, by simp [List.ne_nil_of_mem hmem]⟩)

end Pf2eParser
