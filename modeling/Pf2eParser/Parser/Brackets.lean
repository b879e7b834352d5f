import Pf2eParser.Parser.Layout
import Pf2eParser.Text.Bytes
import Pf2eParser.Text.Delimited

/-!
# Names in double brackets

The search for names cuts the text at byte offsets.  `scanReferences` is its loop with these cuts,
and `scanReferences_eq` says that each of them is between two characters of the text, so that the
loop runs to its end.  The names that it returns are those of the leftmost, shortest and
non-overlapping matches of the double brackets (`references_of_matches`).  In prose
whose markup does not touch other brackets, these are the names that were marked
(`MarkedProse.matches`).
-/

namespace Pf2eParser

open Text

/-! ## The search on byte offsets -/

/-- The loop of the search: what is left of the text, and the names that were found.  There is no
result where a slice is not one. -/
def scanReferences (remainder : Str) (references : List Str) : Option (List Str) :=
  match findByte openBrackets remainder with
  | none => some references
  | some start => match _hopen : sliceFrom remainder (start + 2) with
    | none => none
    | some afterOpen => match findByte closeBrackets afterOpen with
      | none => some references
      | some stop => match sliceTo afterOpen stop with
        | none => none
        | some slice =>
          let reference := trim slice
          let references := if reference.isEmpty then references else references ++ [reference]
          match _hclose : sliceFrom afterOpen (stop + 2) with
          | none => none
          | some remainder => scanReferences remainder references
termination_by remainder.length
decreasing_by
  exact (length_lt_of_sliceFrom _hclose (Nat.succ_pos _)).trans
    (length_lt_of_sliceFrom _hopen (Nat.succ_pos _))

/-- The loop ends where no name is opened. -/
theorem scanReferences_unopened {s : Str} (references : List Str)
    (h : splitOnce openBrackets s = none) : scanReferences s references = some references := by
  have hfind : findByte openBrackets s = none := by rw [findByte, h, Option.map_none]
  unfold scanReferences
  simp only [hfind]

/-- The loop ends where a name is not closed. -/
theorem scanReferences_unclosed {s before opened : Str} (references : List Str)
    (h : splitOnce openBrackets s = some (before, opened))
    (hclose : splitOnce closeBrackets opened = none) :
    scanReferences s references = some references := by
  obtain ⟨hfind, -, hslice⟩ := slices_of_splitOnce h
  have hfindClose : findByte closeBrackets opened = none := by
    rw [findByte, hclose, Option.map_none]
  have hslice : sliceFrom s (byteLength before + 2) = some opened := hslice
  unfold scanReferences
  simp only [hfind]
  split
  case h_1 hnone => exact absurd (hslice.symm.trans hnone) (by simp)
  case h_2 afterOpen hsome =>
    obtain rfl : opened = afterOpen := Option.some.inj (hslice.symm.trans hsome)
    simp only [hfindClose]

/-- The loop takes a name between its brackets and goes on behind them. -/
theorem scanReferences_named {s before opened name rest : Str} (references : List Str)
    (h : splitOnce openBrackets s = some (before, opened))
    (hclose : splitOnce closeBrackets opened = some (name, rest)) :
    scanReferences s references = scanReferences rest
      (references ++ if (trim name).isEmpty then [] else [trim name]) := by
  obtain ⟨hfind, -, hslice⟩ := slices_of_splitOnce h
  obtain ⟨hfindClose, hname, hrest⟩ := slices_of_splitOnce hclose
  have hslice : sliceFrom s (byteLength before + 2) = some opened := hslice
  have hrest : sliceFrom opened (byteLength name + 2) = some rest := hrest
  conv_lhs => unfold scanReferences
  simp only [hfind]
  split
  case h_1 hnone => exact absurd (hslice.symm.trans hnone) (by simp)
  case h_2 afterOpen hsome =>
    obtain rfl : opened = afterOpen := Option.some.inj (hslice.symm.trans hsome)
    simp only [hfindClose, hname]
    split
    case h_1 hnone => exact absurd (hrest.symm.trans hnone) (by simp)
    case h_2 remainder hsome =>
      obtain rfl : rest = remainder := Option.some.inj (hrest.symm.trans hsome)
      by_cases hblank : (trim name).isEmpty <;> simp [hblank]

/-- Every slice of the search is in the text. -/
theorem scanReferences_eq (text : Str) (references : List Str) :
    scanReferences text references = some (references ++ extractBracketedReferences text) := by
  induction text using references_induction generalizing references with
  | unopened s hopen =>
    rw [scanReferences_unopened references hopen, references_unopened hopen, List.append_nil]
  | unclosed s before opened hopen hclose =>
    rw [scanReferences_unclosed references hopen hclose, references_unclosed hopen hclose,
      List.append_nil]
  | named s before opened name rest hopen hclose ih =>
    rw [scanReferences_named references hopen hclose, ih, references_named hopen hclose,
      List.append_assoc]

/-! ## The names that are marked -/

/-- The names in the contents of the brackets: trimmed, and without the blank ones. -/
def referenceNames (contents : List Str) : List Str :=
  (contents.map trim).filter fun name => !name.isEmpty

/-- Prose with a marked name behind it. -/
structure MarkedSegment where
  prose : Str
  name : Str
  /-- The prose opens no name. -/
  prose_plain : ¬ openBrackets <:+: prose
  /-- The prose has no part in the opening of its name. -/
  prose_end : prose.getLast? ≠ some '['
  /-- The name does not close itself. -/
  name_plain : ¬ closeBrackets <:+: name
  /-- The name has no part in its closing. -/
  name_end : name.getLast? ≠ some ']'

/-- The text of a segment. -/
def MarkedSegment.text (segment : MarkedSegment) : Str :=
  segment.prose ++ openBrackets ++ (segment.name ++ closeBrackets)

/-- Prose with marked names in it. -/
structure MarkedProse where
  segments : List MarkedSegment
  /-- What is behind the last name. -/
  tail : Str
  /-- The tail opens no name. -/
  tail_plain : ¬ openBrackets <:+: tail

/-- The text of the prose. -/
def MarkedProse.text (prose : MarkedProse) : Str :=
  prose.segments.flatMap MarkedSegment.text ++ prose.tail

/-- The marked names, in order. -/
def MarkedProse.names (prose : MarkedProse) : List Str := prose.segments.map MarkedSegment.name

theorem referenceNames_cons (content : Str) (contents : List Str) :
    referenceNames (content :: contents) =
      (if (trim content).isEmpty then [] else [trim content]) ++ referenceNames contents := by
  unfold referenceNames
  rw [List.map_cons, List.filter_cons]
  by_cases hblank : (trim content).isEmpty <;> simp [hblank]

/-- The search returns the names of the matches. -/
theorem extract_of_matches {text : Str} {contents : List Str}
    (h : Matches openBrackets closeBrackets text contents) :
    extractBracketedReferences text = referenceNames contents := by
  induction h with
  | none hnone =>
    obtain hopen | ⟨before, opened, hopen, hclose⟩ :=
      (forall_not_isMatch_iff (by decide)).mp hnone
    · exact references_unopened hopen
    · exact references_unclosed hopen hclose
  | next hfirst _ ih =>
    obtain ⟨opened, hopen, hclose⟩ := (isFirstMatch_iff (by decide) (by decide)).mp hfirst
    rw [references_named hopen hclose, referenceNames_cons, ih]

/-- So does the loop on byte offsets. -/
theorem references_of_matches {text : Str} {contents : List Str}
    (h : Matches openBrackets closeBrackets text contents) :
    scanReferences text [] = some (referenceNames contents) ∧
      extractBracketedReferences text = referenceNames contents := by
  have hnames := extract_of_matches h
  refine ⟨?_, hnames⟩
  rw [scanReferences_eq, List.nil_append, hnames]

/-- The brackets around a marked name are the first match in what begins with its segment. -/
theorem MarkedSegment.isFirstMatch (segment : MarkedSegment) (rest : Str) :
    IsFirstMatch openBrackets closeBrackets (segment.text ++ rest) segment.prose segment.name
      rest := by
  have hopen := not_infix_append_half segment.prose_plain segment.prose_end
  have hclose := not_infix_append_half segment.name_plain segment.name_end
  have htext : segment.text ++ rest =
      segment.prose ++ openBrackets ++ (segment.name ++ closeBrackets ++ rest) := by
    rw [MarkedSegment.text, List.append_assoc]
  refine (isFirstMatch_iff (by decide) (by decide)).mpr
    ⟨segment.name ++ closeBrackets ++ rest, ?_, ?_⟩
  · exact (splitOnce_eq_some_iff (by decide)).mpr ⟨htext, hopen⟩
  · exact (splitOnce_eq_some_iff (by decide)).mpr ⟨rfl, hclose⟩

/-- The matches in marked prose are the brackets around its names. -/
theorem MarkedProse.matches (prose : MarkedProse) :
    Matches openBrackets closeBrackets prose.text prose.names := by
  obtain ⟨segments, tail, htail⟩ := prose
  unfold MarkedProse.text MarkedProse.names
  dsimp only
  induction segments with
  | nil =>
    refine .none ((forall_not_isMatch_iff (by decide)).mpr ?_)
    exact Or.inl (splitOnce_eq_none_iff.mpr htail)
  | cons segment segments ih =>
    rw [List.flatMap_cons, List.append_assoc]
    exact .next (segment.isFirstMatch _) ih

/-- The search ends, with every slice in the text, and returns the names of the matches; in marked
prose these are the names that are marked. -/
theorem references_are_marked_names :
    (∀ text, ∃ contents, (∀ others, Matches openBrackets closeBrackets text others ↔
        others = contents) ∧
      scanReferences text [] = some (referenceNames contents) ∧
      extractBracketedReferences text = referenceNames contents) ∧
    ∀ prose : MarkedProse,
      scanReferences prose.text [] = some (referenceNames prose.names) ∧
      extractBracketedReferences prose.text = referenceNames prose.names := by
  refine ⟨fun text => ?_, fun prose => references_of_matches prose.matches⟩
  obtain ⟨contents, hmatches, hunique⟩ :=
    existsUnique_matches (by decide : openBrackets ≠ []) (by decide : closeBrackets ≠ []) text
  refine ⟨contents, fun others => ⟨hunique others, ?_⟩, references_of_matches hmatches⟩
  rintro rfl
  exact hmatches

/-- A name with blanks around it, an empty name, and a name that begins with a bracket. -/
theorem references_are_marked_names_adjacent :
    extractBracketedReferences "See [[ Trip ]][[]] or [[[Shove]].".toList =
      ["Trip".toList, "[Shove".toList] :=
  (references_are_marked_names.2
    { segments :=
        [{ prose := "See ".toList, name := " Trip ".toList, prose_plain := by decide,
           prose_end := by decide, name_plain := by decide, name_end := by decide },
         { prose := [], name := [], prose_plain := by decide, prose_end := by decide,
           name_plain := by decide, name_end := by decide },
         { prose := " or ".toList, name := "[Shove".toList, prose_plain := by decide,
           prose_end := by decide, name_plain := by decide, name_end := by decide }]
      tail := ".".toList
      tail_plain := by decide }).2

end Pf2eParser
