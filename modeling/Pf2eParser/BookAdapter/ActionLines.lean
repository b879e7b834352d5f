import Pf2eParser.BookAdapter.Clauses
import Pf2eParser.BookAdapter.PageBreaks

/-!
# Pages of actions and of conditions by their lines

The splitters for actions and for conditions go over a page once, with an open entry that the lines
are added to.  What they read can be said of the lines alone: an entry is a heading with the lines
up to the next one (`forall_splitEntries_iff`, `forall_splitConditionEntries_iff`).  What is written
of an action can be said of these lines as well, its trait (`openingTrait`) and the texts behind it
(`actionTexts`).
-/

namespace Pf2eParser

open Text

variable {U : CaseTables}

/-! ## Headings of actions -/

/-- The line is the heading of an action: a shouty name and an action cost. -/
def IsActionHeading (U : CaseTables) (line name : Str) : Prop :=
  ∃ cost ∈ actionCostMarkers, line = name ++ cost.1 ∧ isShouty U (trim name) = true

/-- A heading ends with one action cost only. -/
theorem actionCost_unique {cost cost' : Str × Str} (h : cost ∈ actionCostMarkers)
    (h' : cost' ∈ actionCostMarkers) {name name' : Str} (heq : name ++ cost.1 = name' ++ cost'.1) :
    cost = cost' ∧ name = name' := by
  have hall : ∀ cost ∈ actionCostMarkers, ∀ cost' ∈ actionCostMarkers,
      cost.1 <:+ cost'.1 → cost = cost' := by decide
  have hsame : cost = cost' := by
    rcases List.suffix_or_suffix_of_suffix ⟨name, heq⟩ ⟨name', rfl⟩ with hsuffix | hsuffix
    · exact hall cost h cost' h' hsuffix
    · exact (hall cost' h' cost h hsuffix).symm
  subst hsame
  exact ⟨rfl, List.append_cancel_right heq⟩

/-- What an action cost at the end of the line makes of it. -/
theorem readCost_eq_some_iff {line title label : Str} {cost : Str × Str} :
    ((stripSuffix cost.1 line).bind fun front =>
        if !(trim front).isEmpty && isShouty U (trim front) then
          some (titleCase U (trim front), cost.2) else none) = some (title, label) ↔
      ∃ name, line = name ++ cost.1 ∧ isShouty U (trim name) = true ∧ title = titleCase U name ∧
        label = cost.2 := by
  have htitle : ∀ name, titleCase U (trim name) = titleCase U name := fun name => by
    unfold titleCase
    rw [splitWhitespace_trim]
  have hname : ∀ name, (!(trim name).isEmpty && isShouty U (trim name)) =
      isShouty U (trim name) := by
    intro name
    cases htrim : trim name <;> simp [isShouty]
  simp only [hname, htitle, Option.bind_eq_some_iff, stripSuffix_eq_some_iff]
  refine exists_congr fun name => and_congr_right fun _ => ?_
  split
  case isTrue hshouty => simp [hshouty, eq_comm]
  case isFalse hquiet => simp [hquiet]

/-- What is read of a heading. -/
theorem detectHeading_eq_some_iff {line title label : Str} :
    detectHeading U line = some (title, label) ↔ ∃ name, ∃ cost ∈ actionCostMarkers,
      line = name ++ cost.1 ∧ isShouty U (trim name) = true ∧ title = titleCase U name ∧
        label = cost.2 := by
  have hread : ∀ title label, detectHeading U line = some (title, label) →
      ∃ name, ∃ cost ∈ actionCostMarkers, line = name ++ cost.1 ∧
        isShouty U (trim name) = true ∧ title = titleCase U name ∧ label = cost.2 := by
    intro title label h
    obtain ⟨cost, hcost, hfound⟩ := List.exists_of_findSome?_eq_some h
    obtain ⟨name, hname⟩ := readCost_eq_some_iff.mp hfound
    exact ⟨name, cost, hcost, hname⟩
  refine ⟨hread title label, ?_⟩
  rintro ⟨name, cost, hcost, hline, hshouty, rfl, rfl⟩
  cases hfound : detectHeading U line with
  | none =>
    have hnone := List.findSome?_eq_none_iff.mp hfound cost hcost
    have hsome := readCost_eq_some_iff.mpr ⟨name, hline, hshouty, rfl, rfl⟩
    exact absurd (hnone.symm.trans hsome) (by simp)
  | some found =>
    obtain ⟨name', cost', hcost', hline', -, htitle, hlabel⟩ := hread found.1 found.2 hfound
    obtain ⟨rfl, rfl⟩ := actionCost_unique hcost hcost' (hline.symm.trans hline')
    rw [← htitle, ← hlabel]

/-! ## Entries -/

/-- The scan reads a heading with the lines up to the next one, and then the other actions. -/
theorem finish_foldl_entryStep_cons (rawLine : Str) (ls : List Str) :
    ((rawLine :: ls).foldl (entryStep U) {}).finish =
      ((detectHeading U (trim rawLine)).toList.map fun found =>
          ⟨found.1, found.2, actionPreface U (ls.map trim)⟩) ++
        (ls.foldl (entryStep U) {}).finish := by
  rw [List.foldl_cons, finish_foldl_entryStep]
  cases hheading : detectHeading U (trim rawLine) <;>
    simp [entryStep, hheading, Splitting.push, Splitting.start, Splitting.finish,
      RawEntry.appendLines]

/-- The actions of a page are its headings, each with the lines up to the next one. -/
theorem forall_splitEntries_iff {P : RawEntry → Prop} (text : Str) :
    (∀ entry ∈ splitEntries U text, P entry) ↔
      ∀ before heading rest, pageLines text = before ++ heading :: rest →
        ∀ title label, detectHeading U heading = some (title, label) →
          P ⟨title, label, actionPreface U rest⟩ := by
  unfold splitEntries pageLines
  induction lines text with
  | nil => simp [Splitting.finish]
  | cons rawLine ls ih =>
    rw [finish_foldl_entryStep_cons, List.forall_mem_append, ih, List.map_cons]
    constructor
    · rintro ⟨hfirst, hlater⟩ before heading rest hlines title label hheading
      rcases List.cons_eq_append_iff.mp hlines with ⟨rfl, heq⟩ | ⟨before, rfl, heq⟩
      · obtain ⟨rfl, rfl⟩ := List.cons.inj heq
        exact hfirst _ (by simp [hheading])
      · exact hlater before heading rest heq title label hheading
    · intro h
      refine ⟨fun entry hentry => ?_, fun before heading rest hlines =>
        h (trim rawLine :: before) heading rest (by rw [hlines, List.cons_append])⟩
      obtain ⟨⟨title, label⟩, hheading, rfl⟩ := List.mem_map.mp hentry
      exact h [] (trim rawLine) _ rfl title label (Option.mem_toList.mp hheading)

/-- The conditions of a page are the headings of its glossary, each with its description. -/
theorem forall_splitConditionEntries_iff {P : RawConditionEntry → Prop} (text : Str) :
    (∀ entry ∈ splitConditionEntries U text, P entry) ↔
      ∀ before heading rest, glossaryLines text = before ++ heading :: rest →
        isConditionHeading U heading = true → P ⟨heading, descriptionOf U rest⟩ := by
  rw [splitConditionEntries_eq]
  induction glossaryLines text with
  | nil => simp [conditionsOf]
  | cons line ls ih =>
    have hcons : conditionsOf U (line :: ls) =
        (if isConditionHeading U line then [⟨line, descriptionOf U ls⟩] else []) ++
          conditionsOf U ls := by
      rw [conditionsOf]
      split <;> rfl
    rw [hcons, List.forall_mem_append, ih]
    constructor
    · rintro ⟨hfirst, hlater⟩ before heading rest hlines hheading
      rcases List.cons_eq_append_iff.mp hlines with ⟨rfl, heq⟩ | ⟨before, rfl, heq⟩
      · obtain ⟨rfl, rfl⟩ := List.cons.inj heq
        exact hfirst _ (by simp [hheading])
      · exact hlater before heading rest heq hheading
    · intro h
      refine ⟨fun entry hentry => ?_, fun before heading rest hlines =>
        h (line :: before) heading rest (by rw [hlines, List.cons_append])⟩
      split at hentry
      case isTrue hheading =>
        obtain rfl := List.mem_singleton.mp hentry
        exact h [] line ls rfl hheading
      case isFalse => exact absurd hentry List.not_mem_nil

/-! ## What is written of an action -/

/-- The first lines of a text that are not blank, joined by spaces. -/
def openingParagraph (ls : List Str) : Str :=
  [' '].intercalate ((ls.dropWhile List.isEmpty).takeWhile fun line => !line.isEmpty)

/-- The trait of an action: its opening paragraph in lower case, if that is one or two words in
capitals. -/
def openingTrait (U : CaseTables) (ls : List Str) : List Str :=
  if isShouty U (openingParagraph ls) && (splitWhitespace (openingParagraph ls)).length ≤ 2 then
    [U.toLowercase (openingParagraph ls)] else []

/-- The texts that are written behind the trait of an action: the last trigger, the last
requirements, and the effect, which is made of the other paragraphs. -/
def actionTexts (U : CaseTables) (ls : List Str) : List Str :=
  let roles := paragraphRoles U (groupParagraphs ls)
  (clauseValues .trigger roles).getLast?.toList ++
    (clauseValues .requirements roles).getLast?.toList ++ [[' '].intercalate (effectTexts roles)]

/-- The opening paragraph is the first one. -/
theorem openingParagraph_eq (ls : List Str) :
    openingParagraph ls = (groupParagraphs ls).head?.getD [] := by
  induction ls with
  | nil => rfl
  | cons line ls ih =>
    rcases eq_or_ne line [] with rfl | hne
    · have hblank := groupParagraphs_blanks 1 ls
      rw [List.replicate_one, List.singleton_append] at hblank
      rw [hblank, ← ih]
      rfl
    · have hopening : openingParagraph (line :: ls) =
          [' '].intercalate ((line :: ls).takeWhile fun line => !line.isEmpty) := by
        unfold openingParagraph
        rw [List.dropWhile_cons_of_neg (by simpa using hne)]
      have hrun : (line :: ls).takeWhile (fun line => !line.isEmpty) ≠ [] := by
        rw [List.takeWhile_cons_of_pos (by simpa using hne)]
        exact List.cons_ne_nil _ _
      have hvisible : ∀ l ∈ (line :: ls).takeWhile (fun line => !line.isEmpty), l ≠ [] :=
        fun l hl => by simpa using List.mem_takeWhile_imp hl
      have hsplit := List.takeWhile_append_dropWhile (p := fun line : Str => !line.isEmpty)
        (l := line :: ls)
      have hstop := List.head?_dropWhile_not (fun line : Str => !line.isEmpty) (line :: ls)
      cases hrest : (line :: ls).dropWhile (fun line => !line.isEmpty) with
      | nil =>
        rw [hrest, List.append_nil] at hsplit
        rw [hsplit] at hrun hvisible hopening
        rw [hopening, groupParagraphs_run hrun hvisible]
        rfl
      | cons blank rest =>
        rw [hrest] at hsplit hstop
        obtain rfl : blank = [] := by simpa using hstop
        rw [hopening, ← hsplit, groupParagraphs_append_blank, groupParagraphs_run hrun hvisible,
          hsplit]
        rfl

/-- The trait that is written of an action. -/
theorem RawEntry.traits_parts (entry : RawEntry) :
    (entry.parts U).traits = openingTrait U entry.bodyLines := by
  have hread : (entry.parts U).traits = (traitParagraphs
      (paragraphRoles U (groupParagraphs entry.bodyLines))).map U.toLowercase :=
    congrArg BlockParts.traits (readParagraphs_eq (groupParagraphs entry.bodyLines))
  rw [hread, openingTrait, openingParagraph_eq]
  cases groupParagraphs entry.bodyLines with
  | nil => rfl
  | cons first later =>
    have hlater := @traitParagraphs_laterRoles U later
    rw [paragraphRoles_cons, List.head?_cons, Option.getD_some]
    by_cases hword : isShouty U first = true ∧ (splitWhitespace first).length ≤ 2
    · have hrole : paragraphRole U 0 first = .traitWord := by simp [paragraphRole, hword]
      rw [hrole, traitParagraphs_cons_traitWord, hlater]
      simp [hword]
    · have hnone :
          traitParagraphs ((first, paragraphRole U 0 first) :: laterRoles U later) = [] := by
        cases hrole : paragraphRole U 0 first with
        | clause => exact hlater
        | prose => exact hlater
        | traitWord =>
          unfold paragraphRole at hrole
          grind
      rw [hnone, if_neg (by simpa using hword)]
      rfl

/-- The texts that are written behind the trait of an action. -/
theorem RawEntry.texts_parts (entry : RawEntry) :
    (entry.parts U).trigger.toList ++ (entry.parts U).requirements.toList ++
        [[' '].intercalate (entry.parts U).effectParts] = actionTexts U entry.bodyLines := by
  unfold RawEntry.parts
  rw [readParagraphs_eq]
  rfl

end Pf2eParser
