import Pf2eParser.BookAdapter.Rendered

/-!
# The glossary of conditions

The entries of the glossary stand behind an anchor line, each with a heading and the lines that
describe it.  What the scan makes of a page depends on the lines behind the anchor alone, without
blank lines and page numbers (`splitConditionEntries_eq`): every heading opens an entry, and the
lines up to the next heading are its description.  So a well-formed glossary is recovered as it was
written (`glossary_parsed`).  A heading is not allowed to have punctuation, but the scan does not
look for it (`headings_plain_iff`).
-/

namespace Pf2eParser

open Text

variable {U : CaseTables}

/-! ## The scan without its state -/

/-- The line that opens the glossary. -/
def isAnchor (line : Str) : Bool := eqIgnoreAsciiCase line "List of Conditions".toList

/-- A line that is neither blank nor a page number. -/
def isGlossaryLine (line : Str) : Bool := !(line.isEmpty || isPageNumber line)

/-- The lines of a page that belong to the glossary. -/
def glossaryLines (text : Str) : List Str :=
  (((lines text).map trim).dropWhile fun line => !isAnchor line).tail.filter isGlossaryLine

variable (U) in
/-- The lines in front of the first heading. -/
def descriptionOf (ls : List Str) : List Str := ls.takeWhile fun line => !isConditionHeading U line

variable (U) in
/-- Every heading with the lines up to the next one. -/
def conditionsOf : List Str → List RawConditionEntry
  | [] => []
  | line :: ls =>
    if isConditionHeading U line then ⟨line, descriptionOf U ls⟩ :: conditionsOf ls
    else conditionsOf ls

/-- A condition with more lines at its end. -/
def RawConditionEntry.appendLines (entry : RawConditionEntry) (ls : List Str) : RawConditionEntry :=
  { entry with bodyLines := entry.bodyLines ++ ls }

/-- Behind the anchor, the scan adds the lines up to the first heading to the open entry, and then
the other entries. -/
theorem finish_foldl_conditionStep (ls : List Str) (state : Splitting RawConditionEntry) :
    (ls.foldl (conditionStep U) (true, state)).2.finish =
      (state.push fun entry =>
          entry.appendLines (descriptionOf U ((ls.map trim).filter isGlossaryLine))).finish ++
        conditionsOf U ((ls.map trim).filter isGlossaryLine) := by
  induction ls generalizing state with
  | nil => cases hcurrent : state.current <;> simp [descriptionOf, conditionsOf, Splitting.push,
      Splitting.finish, RawConditionEntry.appendLines, hcurrent]
  | cons rawLine ls ih =>
    rw [List.foldl_cons, List.map_cons]
    by_cases hline : isGlossaryLine (trim rawLine) = true
    · have hskip : ((trim rawLine).isEmpty || isPageNumber (trim rawLine)) = false := by
        simpa [isGlossaryLine] using hline
      rw [List.filter_cons_of_pos hline]
      by_cases hheading : isConditionHeading U (trim rawLine) = true
      · have hstep : conditionStep U (true, state) rawLine =
            (true, state.start ⟨trim rawLine, []⟩) := by
          simp [conditionStep, hskip, hheading]
        rw [hstep, ih]
        cases hcurrent : state.current <;> simp [descriptionOf, conditionsOf, hheading,
          Splitting.push, Splitting.start, Splitting.finish, RawConditionEntry.appendLines,
          hcurrent]
      · have hstep : conditionStep U (true, state) rawLine =
            (true, state.push fun entry => entry.appendLines [trim rawLine]) := by
          simp [conditionStep, hskip, hheading, RawConditionEntry.appendLines]
        rw [hstep, ih]
        cases hcurrent : state.current <;> simp [descriptionOf, conditionsOf, hheading,
          Splitting.push, Splitting.finish, RawConditionEntry.appendLines, hcurrent]
    · have hskip : ((trim rawLine).isEmpty || isPageNumber (trim rawLine)) = true := by
        rwa [isGlossaryLine, Bool.not_eq_true, Bool.not_eq_false'] at hline
      have hstep : conditionStep U (true, state) rawLine = (true, state) := by
        simp [conditionStep, hskip]
      rw [hstep, ih, List.filter_cons_of_neg hline]

/-- In front of the anchor, the scan looks for the anchor. -/
theorem foldl_conditionStep_anchor (ls : List Str) :
    ((ls.foldl (conditionStep U) (false, {})).2.finish) =
      ((ls.dropWhile fun line => !isAnchor (trim line)).tail.foldl (conditionStep U)
        (true, {})).2.finish := by
  induction ls with
  | nil => rfl
  | cons rawLine ls ih =>
    have hstep : conditionStep U (false, {}) rawLine = (isAnchor (trim rawLine), {}) := rfl
    rw [List.foldl_cons, hstep, List.dropWhile_cons]
    cases hanchor : isAnchor (trim rawLine) with
    | true => rfl
    | false => simpa [hanchor] using ih

/-- The conditions of a page, without the scan. -/
theorem splitConditionEntries_eq (text : Str) :
    splitConditionEntries U text = conditionsOf U (glossaryLines text) := by
  have hdrop : ((lines text).dropWhile fun line => !isAnchor (trim line)).map trim =
      ((lines text).map trim).dropWhile fun line => !isAnchor line := by
    rw [List.dropWhile_map]
    rfl
  rw [splitConditionEntries, foldl_conditionStep_anchor, finish_foldl_conditionStep, List.map_tail,
    hdrop, glossaryLines]
  rfl

/-! ## Well-formed glossaries -/

variable (U) in
/-- A condition as it stands in the glossary. -/
structure GlossaryEntry where
  name : Str
  body : List Str
  name_spec : isConditionHeading U name = true
  /-- A line of the description is not blank, no page number and no heading. -/
  body_spec : ∀ line ∈ body, isGlossaryLine line = true ∧ isConditionHeading U line = false

namespace GlossaryEntry

/-- The lines of the condition. -/
def lines (condition : GlossaryEntry U) : List Str := condition.name :: condition.body

/-- The condition that is meant. -/
def entry (condition : GlossaryEntry U) : RawConditionEntry := ⟨condition.name, condition.body⟩

/-- The candidate that is meant. -/
def candidate (condition : GlossaryEntry U) (candidateId : Uuid) : Candidate where
  candidateId := candidateId
  ruleType := .condition
  name := some condition.name
  traits := []
  trigger := none
  requirements := []
  effect := if condition.body = [] then none else some ([' '].intercalate condition.body)
  prerequisites := []
  references := extractBracketedReferences (renderConditionBlock condition.entry)
  sourceText := renderConditionBlock condition.entry
  inferences := []
  confidence := baseConfidence

end GlossaryEntry

/-- Lines that are no headings open no entry. -/
theorem conditionsOf_append_body {body : List Str}
    (h : ∀ line ∈ body, isConditionHeading U line = false) (ls : List Str) :
    conditionsOf U (body ++ ls) = conditionsOf U ls := by
  induction body with
  | nil => rfl
  | cons line body ih =>
    obtain ⟨hline, hbody⟩ := List.forall_mem_cons.mp h
    rw [List.cons_append, conditionsOf, if_neg (by simp [hline]), ih hbody]

/-- The description goes up to the next heading. -/
theorem descriptionOf_append {body ls : List Str}
    (h : ∀ line ∈ body, isConditionHeading U line = false)
    (hls : ∀ line ∈ ls.head?, isConditionHeading U line = true) :
    descriptionOf U (body ++ ls) = body := by
  have hnone : descriptionOf U ls = [] := by
    cases ls with
    | nil => rfl
    | cons line ls => simp [descriptionOf, hls line rfl]
  rw [descriptionOf, List.takeWhile_append_of_pos fun line hline => by simp [h line hline],
    ← descriptionOf, hnone, List.append_nil]

/-- The conditions are found in their lines. -/
theorem conditionsOf_flatMap (conditions : List (GlossaryEntry U)) :
    conditionsOf U (conditions.flatMap GlossaryEntry.lines) =
      conditions.map GlossaryEntry.entry := by
  induction conditions with
  | nil => rfl
  | cons condition conditions ih =>
    have hbody : ∀ line ∈ condition.body, isConditionHeading U line = false := fun line hline =>
      (condition.body_spec line hline).2
    have hnext : ∀ line ∈ (conditions.flatMap GlossaryEntry.lines).head?,
        isConditionHeading U line = true := by
      cases conditions with
      | nil => simp
      | cons next conditions => simpa [GlossaryEntry.lines] using next.name_spec
    rw [List.flatMap_cons, GlossaryEntry.lines, List.cons_append, conditionsOf,
      if_pos condition.name_spec, descriptionOf_append hbody hnext, conditionsOf_append_body hbody,
      ih]
    rfl

/-- The lines behind the anchor are those of the glossary. -/
theorem glossaryLines_eq {text anchor : Str} {preamble rest : List Str}
    (hpage : (lines text).map trim = preamble ++ anchor :: rest)
    (hpreamble : ∀ line ∈ preamble, isAnchor line = false) (hanchor : isAnchor anchor = true) :
    glossaryLines text = rest.filter isGlossaryLine := by
  have hdrop : (preamble ++ anchor :: rest).dropWhile (fun line => !isAnchor line) =
      anchor :: rest := by
    rw [List.dropWhile_append_of_pos fun line hline => by simp [hpreamble line hline]]
    simp [hanchor]
  rw [glossaryLines, hpage, hdrop, List.tail_cons]

/-- The lines of the description are joined for the effect. -/
theorem GlossaryEntry.effectParts_entry (condition : GlossaryEntry U)
    (hbody : ∀ line ∈ condition.body, IsTrimmed line) :
    condition.entry.parts.effectParts =
      if condition.body = [] then [] else [[' '].intercalate condition.body] := by
  change ([trim ([' '].intercalate condition.body)].filter fun effect => !effect.isEmpty) = _
  split
  case isTrue hnil =>
    rw [hnil]
    rfl
  case isFalse hne =>
    have hsolid : IsSolid ([' '].intercalate condition.body) :=
      isSolid_intercalate _ hne fun line hline => by
        obtain ⟨hvisible, -⟩ := condition.body_spec line hline
        refine ⟨hbody line hline, ?_⟩
        rintro rfl
        exact absurd hvisible (by decide)
    rw [hsolid.trim_eq, List.filter_cons_of_pos (by simpa using hsolid.ne_nil), List.filter_nil]

/-- The block of a condition of a page is parsed as it is meant. -/
theorem GlossaryEntry.parseBlock_eq (hA : U.FollowsAscii) (condition : GlossaryEntry U)
    (h : condition.entry.OnLines) (hbody : ∀ line ∈ condition.body, IsTrimmed line)
    (candidateId : Uuid) :
    parseBlock U candidateId (renderConditionBlock condition.entry) =
      condition.candidate candidateId := by
  have hread := (h.wellFormed_parts hA).parseBlock_eq hA candidateId
  rw [RenderedParts.candidate, RawConditionEntry.block_parts,
    condition.effectParts_entry hbody] at hread
  have hnone : splitList (", ".toList.intercalate condition.entry.parts.traits) = [] :=
    splitList_nil
  rw [hread, hnone, GlossaryEntry.candidate]
  by_cases hnil : condition.body = []
  · simp only [if_pos hnil, if_true]
    rfl
  · simp only [if_neg hnil, if_neg (List.cons_ne_nil _ _), List.intercalate_singleton]
    rfl

/-- A well-formed glossary is parsed into its conditions, wherever there are blank lines and page
numbers, and whatever is in front of its anchor. -/
theorem glossary_parsed (hA : U.FollowsAscii) (fresh : ℕ → Uuid)
    {text anchor : Str} {preamble rest : List Str} {conditions : List (GlossaryEntry U)}
    (hpage : (lines text).map trim = preamble ++ anchor :: rest)
    (hpreamble : ∀ line ∈ preamble, isAnchor line = false) (hanchor : isAnchor anchor = true)
    (hrest : rest.filter isGlossaryLine = conditions.flatMap GlossaryEntry.lines)
    (hclean : ¬ blockSeparator <:+: text) :
    parseCandidates U fresh (convertConditionPage U text) =
      conditions.mapIdx fun i condition => condition.candidate (fresh i) := by
  have hentries : splitConditionEntries U text = conditions.map GlossaryEntry.entry := by
    rw [splitConditionEntries_eq, glossaryLines_eq hpage hpreamble hanchor, hrest,
      conditionsOf_flatMap]
  have hentry : ∀ condition ∈ conditions, condition.entry ∈ splitConditionEntries U text :=
    fun condition hcondition => hentries ▸ List.mem_map_of_mem hcondition
  have hmem : ∀ condition ∈ conditions, ∀ line ∈ condition.lines, line ∈ (lines text).map trim := by
    intro condition hcondition line hline
    have hin : line ∈ rest.filter isGlossaryLine :=
      hrest ▸ List.mem_flatMap_of_mem hcondition hline
    rw [hpage]
    exact List.mem_append_right _ (List.mem_cons_of_mem _ (List.mem_of_mem_filter hin))
  rw [convertConditionPage, hentries, List.map_map]
  refine parseCandidates_joined fresh (fun condition hcondition => ?_)
    (fun condition hcondition hsep => ?_) fun condition hcondition id => ?_
  · exact isSolid_renderConditionBlock
      (wellFormed_of_mem_splitConditionEntries text _ (hentry condition hcondition))
  · have hnone := not_hasSeparator_of_mem_lines hclean
    rcases (hasSeparator_renderConditionBlock_iff condition.entry).mp hsep with
      hname | ⟨line, hline, hsep⟩
    · exact hnone _ (hmem condition hcondition _ List.mem_cons_self) hname
    · exact hnone _ (hmem condition hcondition _ (List.mem_cons_of_mem _ hline)) hsep
  · exact condition.parseBlock_eq hA
      (onLines_of_mem_splitConditionEntries text _ (hentry condition hcondition))
      (fun line hline => isTrimmed_of_mem
        (hmem condition hcondition line (List.mem_cons_of_mem _ hline))) id

/-- A condition with two lines of description. -/
def blinded : GlossaryEntry .ascii where
  name := "Blinded".toList
  body := ["You can't see.".toList, "You are dazed.".toList]
  name_spec := by decide
  body_spec := List.all_iff_forall_prop.mp (by decide)

/-- A condition without a description. -/
def offGuard : GlossaryEntry .ascii where
  name := "Off Guard".toList
  body := []
  name_spec := by decide
  body_spec := nofun

/-- A heading in front of the anchor is no condition, and a page break in a description is no part
of it. -/
theorem glossary_parsed_example :
    parseCandidates .ascii (fun _ => 0) (convertConditionPage .ascii
        ("Condition Values\n list of conditions\nBlinded\nYou can't see.\n\n442\n" ++
          "You are dazed.\nOff Guard").toList) =
      [blinded, offGuard].mapIdx fun _ condition => condition.candidate 0 := by
  have hdash : '-' ∉ ("Condition Values\n list of conditions\nBlinded\nYou can't see.\n\n442\n" ++
      "You are dazed.\nOff Guard").toList := by decide +kernel
  exact @glossary_parsed .ascii CaseTables.ascii_followsAscii (fun _ => 0) _
    "list of conditions".toList ["Condition Values".toList]
    ["Blinded".toList, "You can't see.".toList, [], "442".toList, "You are dazed.".toList,
      "Off Guard".toList] [blinded, offGuard] (by decide +kernel)
    (List.all_iff_forall_prop.mp (by decide)) (by decide) (by decide)
    fun hsep => hdash (hsep.subset (by decide))

/-! ## Headings with punctuation -/

variable (U) in
/-- A word of letters: one in upper case, and the others in lower case. -/
def IsPlainTitleWord (word : Str) : Prop :=
  ∃ first rest, word = first :: rest ∧ U.isAlphabetic first = true ∧ U.isUppercase first = true ∧
    ∀ c ∈ rest, U.isAlphabetic c = true ∧ U.isLowercase c = true

variable (U) in
/-- One or two words of letters in title case. -/
def IsPlainHeading (name : Str) : Prop :=
  (splitWhitespace name).length ∈ [1, 2] ∧ ∀ word ∈ splitWhitespace name, IsPlainTitleWord U word

variable (U) in
/-- There is something in the line that is neither a letter nor whitespace. -/
def IsPunctuated (line : Str) : Prop :=
  ∃ c ∈ line, U.isAlphabetic c = false ∧ isWhitespace c = false

variable (U) in
/-- A line with punctuation is kept in the description of the condition in front of it. -/
def PunctuatedLinesKept (text : Str) : Prop :=
  ∀ before line after, glossaryLines text = before ++ line :: after → IsPunctuated U line →
    conditionsOf U before ≠ [] → ∃ front condition later rest,
      conditionsOf U before = front ++ [condition] ∧
      splitConditionEntries U text = front ++ condition.appendLines (line :: later) :: rest

/-- The names of the conditions are the headings. -/
theorem mem_map_name_conditionsOf {ls : List Str} {name : Str} :
    name ∈ (conditionsOf U ls).map RawConditionEntry.name ↔
      name ∈ ls ∧ isConditionHeading U name = true := by
  induction ls with
  | nil => simp [conditionsOf]
  | cons line ls ih =>
    rw [conditionsOf, List.mem_cons]
    split
    case isTrue hheading =>
      rw [List.map_cons, List.mem_cons, ih]
      grind
    case isFalse hheading =>
      rw [ih]
      grind

/-- There is no condition without a heading. -/
theorem conditionsOf_eq_nil_iff {ls : List Str} :
    conditionsOf U ls = [] ↔ ∀ line ∈ ls, isConditionHeading U line = false := by
  rw [← List.map_eq_nil_iff (f := RawConditionEntry.name), List.eq_nil_iff_forall_not_mem]
  simp only [mem_map_name_conditionsOf, not_and, Bool.not_eq_true]

/-- What follows a heading does not belong to the description in front of it. -/
theorem descriptionOf_append_of_heading {ls : List Str}
    (h : ∃ line ∈ ls, isConditionHeading U line = true) (ls' : List Str) :
    descriptionOf U (ls ++ ls') = descriptionOf U ls := by
  induction ls with
  | nil => simp at h
  | cons line ls ih =>
    by_cases hheading : isConditionHeading U line = true
    · simp [descriptionOf, hheading]
    · have hlater : ∃ line ∈ ls, isConditionHeading U line = true := by
        obtain ⟨other, hmem, hother⟩ := h
        rcases List.mem_cons.mp hmem with rfl | hmem
        · exact absurd hother hheading
        · exact ⟨other, hmem, hother⟩
      simpa [descriptionOf, hheading] using ih hlater

/-- The conditions of two stretches of lines: the last condition of the first stretch goes on up to
the first heading of the second one. -/
theorem conditionsOf_append {ls : List Str} {front : List RawConditionEntry}
    {condition : RawConditionEntry} (h : conditionsOf U ls = front ++ [condition])
    (ls' : List Str) :
    conditionsOf U (ls ++ ls') =
      front ++ condition.appendLines (descriptionOf U ls') :: conditionsOf U ls' := by
  induction ls generalizing front with
  | nil => simp [conditionsOf] at h
  | cons line ls ih =>
    rw [conditionsOf] at h
    rw [List.cons_append, conditionsOf]
    split
    case isFalse hheading =>
      rw [if_neg hheading] at h
      exact ih h
    case isTrue hheading =>
      rw [if_pos hheading] at h
      cases front with
      | nil =>
        obtain ⟨rfl, hnil⟩ := List.cons.inj h
        have hbody := conditionsOf_eq_nil_iff.mp hnil
        have hwhole : descriptionOf U ls = ls :=
          List.takeWhile_eq_self_iff.mpr fun line hline => by simp [hbody line hline]
        have hboth : descriptionOf U (ls ++ ls') = ls ++ descriptionOf U ls' :=
          List.takeWhile_append_of_pos fun line hline => by simp [hbody line hline]
        rw [conditionsOf_append_body hbody, hboth, hwhole]
        rfl
      | cons first front =>
        obtain ⟨rfl, hrest⟩ := List.cons.inj h
        have hsome : ∃ line ∈ ls, isConditionHeading U line = true := by
          by_contra hnone
          have hnil : conditionsOf U ls = [] := conditionsOf_eq_nil_iff.mpr fun line hline => by
            simpa using fun hheading => hnone ⟨line, hline, hheading⟩
          rw [hnil] at hrest
          exact absurd hrest.symm (by simp)
        rw [descriptionOf_append_of_heading hsome, ih hrest, List.cons_append]

/-- A heading is plain if it has no punctuation. -/
theorem isPlainHeading_iff {name : Str} (h : isConditionHeading U name = true) :
    IsPlainHeading U name ↔ ¬ IsPunctuated U name := by
  simp only [isConditionHeading, Bool.and_eq_true, List.all_eq_true, decide_eq_true_eq] at h
  obtain ⟨⟨hne, hlength⟩, htitle⟩ := h
  constructor
  · rintro ⟨-, hwords⟩ ⟨c, hc, hletter, hspace⟩
    obtain ⟨word, hword, hmem⟩ := exists_mem_splitOnP hc hspace
    have hin : word ∈ splitWhitespace name :=
      List.mem_filter.mpr ⟨hword, by simpa using List.ne_nil_of_mem hmem⟩
    obtain ⟨first, rest, rfl, hfirst, -, hrest⟩ := hwords word hin
    have hall : U.isAlphabetic c = true := by
      rcases List.mem_cons.mp hmem with rfl | hmem
      · exact hfirst
      · exact (hrest c hmem).1
    exact absurd hall (by simp [hletter])
  · intro hplain
    have hletters : ∀ word ∈ splitWhitespace name, ∀ c ∈ word, U.isAlphabetic c = true := by
      intro word hword c hc
      obtain ⟨hmem, -⟩ := List.mem_filter.mp hword
      by_contra hletter
      exact hplain ⟨c, mem_of_mem_splitOnP hmem hc, by simpa using hletter,
        eq_false_of_mem_splitOnP hmem c hc⟩
    refine ⟨?_, fun word hword => ?_⟩
    · have hpos : 0 < (splitWhitespace name).length :=
        List.length_pos_iff.mpr (by simpa using hne)
      simp only [List.mem_cons, List.not_mem_nil, or_false]
      omega
    · have hword' := htitle word hword
      cases word with
      | nil => simp [isStrictTitleCase] at hword'
      | cons first rest =>
        simp only [isStrictTitleCase, Bool.and_eq_true, List.all_eq_true, Bool.or_eq_true,
          Bool.not_eq_true'] at hword'
        refine ⟨first, rest, rfl, hletters _ hword first List.mem_cons_self, hword'.1,
          fun c hc => ?_⟩
        have hletter := hletters _ hword c (List.mem_cons_of_mem _ hc)
        exact ⟨hletter, (hword'.2 c hc).resolve_left (by simp [hletter])⟩

/-- A line that is no heading is kept in the description of the condition in front of it. -/
theorem line_kept {text line : Str} {before after : List Str}
    (hlines : glossaryLines text = before ++ line :: after)
    (hline : isConditionHeading U line = false) (hbefore : conditionsOf U before ≠ []) :
    ∃ front condition later rest, conditionsOf U before = front ++ [condition] ∧
      splitConditionEntries U text = front ++ condition.appendLines (line :: later) :: rest := by
  obtain ⟨front, condition, heq⟩ := (List.eq_nil_or_concat' _).resolve_left hbefore
  refine ⟨front, condition, descriptionOf U after, conditionsOf U after, heq, ?_⟩
  have hdescription : descriptionOf U (line :: after) = line :: descriptionOf U after := by
    simp [descriptionOf, hline]
  have hconditions : conditionsOf U (line :: after) = conditionsOf U after := by
    simp [conditionsOf, hline]
  rw [splitConditionEntries_eq, hlines, conditionsOf_append heq, hdescription, hconditions]

/-- The conditions of a page have plain names, and lines with punctuation stay in descriptions,
exactly if no line with punctuation passes for a heading. -/
theorem headings_plain_iff (U : CaseTables) (text : Str) :
    ((∀ entry ∈ splitConditionEntries U text, IsPlainHeading U entry.name) ∧
        PunctuatedLinesKept U text) ↔
      ∀ line ∈ glossaryLines text, IsPunctuated U line → isConditionHeading U line = false := by
  have hnames : (∀ entry ∈ splitConditionEntries U text, IsPlainHeading U entry.name) ↔
      ∀ line ∈ glossaryLines text, isConditionHeading U line = true → IsPlainHeading U line := by
    rw [splitConditionEntries_eq, ← List.forall_mem_map]
    simp only [mem_map_name_conditionsOf, and_imp]
  rw [hnames]
  constructor
  · rintro ⟨hplain, -⟩ line hline hpunctuated
    by_contra hheading
    rw [Bool.not_eq_false] at hheading
    exact (isPlainHeading_iff hheading).mp (hplain line hline hheading) hpunctuated
  · intro hnone
    constructor
    · intro line hline hheading
      refine (isPlainHeading_iff hheading).mpr fun hpunctuated => ?_
      exact absurd (hnone line hline hpunctuated) (by simp [hheading])
    · intro before line after hlines hpunctuated hbefore
      have hmem : line ∈ glossaryLines text := by simp [hlines]
      exact line_kept hlines (hnone line hmem hpunctuated) hbefore

/-- The last line of a description, a single word with a full stop, opens a condition of its own. -/
theorem headings_not_plain :
    ¬ ∀ text : Str, (∀ entry ∈ splitConditionEntries .ascii text,
        IsPlainHeading .ascii entry.name) ∧ PunctuatedLinesKept .ascii text := by
  intro h
  obtain ⟨hnames, -⟩ := h "List of Conditions\nBlinded\nYou are\nProne.".toList
  have hentries : splitConditionEntries .ascii
      "List of Conditions\nBlinded\nYou are\nProne.".toList =
        [⟨"Blinded".toList, ["You are".toList]⟩, ⟨"Prone.".toList, []⟩] := by decide +kernel
  rw [hentries] at hnames
  obtain ⟨-, hwords⟩ := hnames ⟨"Prone.".toList, []⟩ (by decide)
  obtain ⟨first, rest, heq, -, -, hrest⟩ := hwords "Prone.".toList (by decide)
  obtain ⟨rfl, rfl⟩ := List.cons.inj heq
  exact absurd (hrest '.' (by decide)).1 (by decide)

end Pf2eParser
