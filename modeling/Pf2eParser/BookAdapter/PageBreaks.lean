import Mathlib.Data.List.ModifyLast
import Pf2eParser.BookAdapter.DualFeats
import Pf2eParser.BookAdapter.Glossary
import Pf2eParser.BookAdapter.Sections

/-!
# Page breaks

The book is converted page by page, but what is printed does not stop at the end of a page.  A text
that is converted as a whole has the entries of its first part, the last of them with the lines that
come before the first heading of the second part, and then the entries of the second part.  So if
every page begins with a heading, a book can be cut into its pages: the candidates of the whole text
are those of the pages, for actions (`actions_of_pages`), for feats (`feats_of_pages`), and for the
glossary, if the anchor is put in front of the later pages (`conditions_of_pages`).

The scanner for feats looks ahead.  Therefore a page of feats has to end in prose, or else the scan
over a heading block could cross the page break.
-/

namespace Pf2eParser

open Text

variable {U : CaseTables}

/-! ## Texts of whole lines -/

/-- The text ends with a line feed, unless it is empty. -/
def EndsLine (text : Str) : Prop := ∀ c ∈ text.getLast?, c = '\n'

instance (text : Str) : Decidable (EndsLine text) :=
  decidable_of_iff (text.getLast?.all (· == '\n') = true) (by simp [EndsLine, Option.all_eq_true])

/-- Behind a line feed, the lines are those of the rest. -/
theorem lines_append {front : Str} (h : EndsLine front) (back : Str) :
    lines (front ++ back) = lines front ++ lines back := by
  obtain rfl | ⟨text, c, rfl⟩ := List.eq_nil_or_concat' front
  · rfl
  · obtain rfl : c = '\n' := h c (by simp)
    have hback : back.splitOn '\n' ≠ [] := List.splitOn_ne_nil _ _
    rw [List.append_assoc, List.singleton_append]
    simp only [lines, List.splitOn_append_cons_self, List.splitOn_nil,
      List.dropLast_append_of_ne_nil hback, List.getLast?_append_of_ne_nil _ hback]
    simp

/-- Texts of whole lines one behind the other. -/
theorem EndsLine.append {front back : Str} (h : EndsLine front) (h' : EndsLine back) :
    EndsLine (front ++ back) := by
  intro c hc
  rw [Option.mem_def, List.getLast?_append] at hc
  cases hlast : back.getLast? with
  | none =>
    rw [hlast] at hc
    exact h c hc
  | some c' =>
    rw [hlast] at hc
    obtain rfl := Option.some.inj hc
    exact h' c' hlast

/-! ## The state of a splitter -/

/-- There are finished entries only if there is an open one. -/
def Splitting.IsOpen {Entry : Type} (state : Splitting Entry) : Prop :=
  state.current = none → state.entries = []

/-- More lines for the open entry are more lines for the last one. -/
theorem Splitting.IsOpen.finish_push {Entry : Type} {state : Splitting Entry} (h : state.IsOpen)
    (append : Entry → Entry) : (state.push append).finish = state.finish.modifyLast append := by
  obtain ⟨entries, current⟩ := state
  cases current with
  | none =>
    obtain rfl : entries = [] := h rfl
    rfl
  | some entry => exact (List.modifyLast_concat append entry entries).symm

theorem Splitting.IsOpen.push {Entry : Type} {state : Splitting Entry} (h : state.IsOpen)
    (append : Entry → Entry) : (state.push append).IsOpen :=
  fun hnone => h (Option.map_eq_none_iff.mp hnone)

theorem Splitting.isOpen_start {Entry : Type} (state : Splitting Entry) (entry : Entry) :
    (state.start entry).IsOpen := fun hnone => absurd hnone (by simp [Splitting.start])

/-! ## Actions -/

/-- An action with more lines at its end. -/
def RawEntry.appendLines (entry : RawEntry) (ls : List Str) : RawEntry :=
  { entry with bodyLines := entry.bodyLines ++ ls }

variable (U) in
/-- The lines in front of the first heading of an action. -/
def actionPreface (ls : List Str) : List Str :=
  ls.takeWhile fun line => (detectHeading U line).isNone

/-- The scan adds the lines up to the first heading to the open action, and then the other ones. -/
theorem finish_foldl_entryStep (ls : List Str) (state : Splitting RawEntry) :
    (ls.foldl (entryStep U) state).finish =
      (state.push fun entry => entry.appendLines (actionPreface U (ls.map trim))).finish ++
        (ls.foldl (entryStep U) {}).finish := by
  induction ls generalizing state with
  | nil =>
    cases hcurrent : state.current <;> simp [actionPreface, Splitting.push, Splitting.finish,
      RawEntry.appendLines, hcurrent]
  | cons rawLine ls ih =>
    rw [List.foldl_cons, List.foldl_cons, List.map_cons]
    cases hheading : detectHeading U (trim rawLine) with
    | some found =>
      have hstep : ∀ state : Splitting RawEntry, entryStep U state rawLine =
          state.start ⟨found.1, found.2, []⟩ := fun state => by simp [entryStep, hheading]
      rw [hstep, hstep, ih, ih (Splitting.start {} _)]
      cases hcurrent : state.current <;> simp [actionPreface, hheading, Splitting.push,
        Splitting.start, Splitting.finish, RawEntry.appendLines, hcurrent]
    | none =>
      have hstep : ∀ state : Splitting RawEntry, entryStep U state rawLine =
          state.push fun entry => entry.appendLines [trim rawLine] := fun state => by
        simp [entryStep, hheading, RawEntry.appendLines]
      have hempty : entryStep U {} rawLine = {} := hstep {}
      rw [hstep, hempty, ih]
      cases hcurrent : state.current <;> simp [actionPreface, hheading, Splitting.push,
        Splitting.finish, RawEntry.appendLines, hcurrent]

/-- A scan leaves an open action behind if it has met any. -/
theorem isOpen_foldl_entryStep (ls : List Str) {state : Splitting RawEntry} (h : state.IsOpen) :
    (ls.foldl (entryStep U) state).IsOpen := by
  induction ls generalizing state with
  | nil => exact h
  | cons rawLine ls ih =>
    rw [List.foldl_cons]
    apply ih
    rw [entryStep]
    split
    · apply Splitting.isOpen_start
    · exact h.push _

/-- The actions of a text behind another one. -/
theorem splitEntries_append {front : Str} (hends : EndsLine front) (back : Str) :
    splitEntries U (front ++ back) =
      (splitEntries U front).modifyLast (fun entry =>
        entry.appendLines (actionPreface U ((lines back).map trim))) ++ splitEntries U back := by
  have hopen : ((lines front).foldl (entryStep U) {}).IsOpen :=
    isOpen_foldl_entryStep _ fun _ => rfl
  rw [splitEntries, lines_append hends, List.foldl_append, finish_foldl_entryStep,
    hopen.finish_push]
  rfl

/-- Blank lines at the end make no paragraph. -/
theorem groupParagraphs_append_blanks (ls : List Str) {blanks : List Str}
    (hblanks : ∀ line ∈ blanks, line = []) :
    groupParagraphs (ls ++ blanks) = groupParagraphs ls := by
  cases blanks with
  | nil => rw [List.append_nil]
  | cons line blanks =>
    rw [List.forall_mem_cons] at hblanks
    obtain ⟨rfl, hblanks⟩ := hblanks
    have hnone : groupParagraphs blanks = [] := by
      have hskip := groupParagraphs_blanks blanks.length []
      rwa [List.append_nil, ← List.eq_replicate_of_mem hblanks] at hskip
    rw [groupParagraphs_append_blank, hnone, List.append_nil]

/-- Blank lines at the end of an action do not show. -/
theorem renderBlock_appendLines {entry : RawEntry} {blanks : List Str}
    (hblanks : ∀ line ∈ blanks, line = []) :
    renderBlock U (entry.appendLines blanks) = renderBlock U entry := by
  have hgroup : groupParagraphs (entry.appendLines blanks).bodyLines =
      groupParagraphs entry.bodyLines := groupParagraphs_append_blanks _ hblanks
  simp only [renderBlock, entryBlockLines, hgroup]
  rfl

/-- A change of the last item that does not show. -/
theorem map_modifyLast {α β : Type} {f : α → α} {g : α → β} (h : ∀ a, g (f a) = g a) (l : List α) :
    (l.modifyLast f).map g = l.map g := by
  obtain rfl | ⟨l, a, rfl⟩ := List.eq_nil_or_concat' l
  · rfl
  · rw [List.modifyLast_concat, List.map_append, List.map_append, List.map_singleton, h,
      List.map_singleton]

theorem modifyLast_eq_self {α : Type} {f : α → α} (h : ∀ a, f a = a) (l : List α) :
    l.modifyLast f = l := by
  have hmap := map_modifyLast (g := id) h l
  rwa [List.map_id, List.map_id] at hmap

/-- The blocks of a text behind another one, if it begins with an action. -/
theorem map_renderBlock_append {front back : Str} (hends : EndsLine front)
    (hstarts : ∀ line ∈ actionPreface U ((lines back).map trim), line = []) :
    (splitEntries U (front ++ back)).map (renderBlock U) =
      (splitEntries U front).map (renderBlock U) ++ (splitEntries U back).map (renderBlock U) := by
  rw [splitEntries_append hends, List.map_append,
    map_modifyLast fun entry => renderBlock_appendLines hstarts]

/-! ## Feats -/

variable (U) in
/-- The visible lines in front of the first heading block of a feat. -/
def featPreface : List Str → List Str
  | [] => []
  | line :: ls =>
    if isHeadingLine U line && (tryReadHeadingBlock U (line :: ls) 0).isSome then []
    else visibleLines [line] ++ featPreface ls

/-- The scan adds the lines up to the first heading block to the open feat, and then the other ones.
-/
theorem splitFeatFrom_eq_pushLines (ls : List Str) (state : Splitting RawFeatEntry) :
    splitFeatFrom U ls 0 state =
      (state.pushLines (featPreface U ls)).finish ++ splitFeatFrom U ls 0 {} := by
  induction hn : ls.length using Nat.strong_induction_on generalizing ls state with
  | _ n ih =>
    cases ls with
    | nil => simp [featPreface, Splitting.finish]
    | cons line ls =>
      rw [List.length_cons] at hn
      rcases eq_or_ne line [] with rfl | hne
      · rw [splitFeatFrom_nil_cons, splitFeatFrom_nil_cons, ih ls.length (by omega) ls state rfl]
        rfl
      · by_cases hheading : isHeadingLine U line = true ∧
            ∃ found, tryReadHeadingBlock U (line :: ls) 0 = some found
        · obtain ⟨hheading, ⟨name, traits, next⟩, hread⟩ := hheading
          have hpos := lt_of_tryReadHeadingBlock U hread
          obtain ⟨next, rfl⟩ : ∃ k, next = k + 1 := ⟨next - 1, by omega⟩
          have hpreface : featPreface U (line :: ls) = [] := by simp [featPreface, hheading, hread]
          have hlater := ih (ls.drop next).length (by rw [List.length_drop]; omega) (ls.drop next)
          rw [splitFeatFrom_cons_heading hheading hread, splitFeatFrom_cons_heading hheading hread,
            hlater _ rfl, hlater (Splitting.start {} _) rfl, hpreface, Splitting.pushLines_start,
            Splitting.pushLines_start, Splitting.pushLines_nil]
          simp [Splitting.start, Splitting.finish]
        · have hnone : isHeadingLine U line = true →
              tryReadHeadingBlock U (line :: ls) 0 = none := fun h =>
            Option.eq_none_iff_forall_ne_some.mpr fun found hread => hheading ⟨h, found, hread⟩
          have hpreface : featPreface U (line :: ls) = line :: featPreface U ls := by
            rw [featPreface, if_neg (by simpa [Option.isSome_iff_exists] using hheading),
              visibleLines_cons hne]
            rfl
          have hlater := ih ls.length (by omega) ls
          rw [splitFeatFrom_cons_body hne hnone, splitFeatFrom_cons_body hne hnone, hlater _ rfl,
            hpreface]
          have hpush := state.pushLines_pushLines [line] (featPreface U ls)
          rw [List.singleton_append] at hpush
          rw [← hpush]
          rfl

theorem isOpen_foldl_start {Entry : Type} (entries : List Entry) {state : Splitting Entry}
    (h : state.IsOpen) : (entries.foldl Splitting.start state).IsOpen := by
  induction entries generalizing state with
  | nil => exact h
  | cons entry entries ih => exact ih (state.isOpen_start entry)

/-- The feats of a text behind one that ends in prose. -/
theorem splitFeatEntries_append {front : Str} (hends : EndsLine front)
    (hprose : EndsInProse U ((lines front).map trim)) (back : Str) :
    splitFeatEntries U (front ++ back) =
      (splitFeatEntries U front).modifyLast (fun entry =>
        entry.appendLines (featPreface U ((lines back).map trim))) ++ splitFeatEntries U back := by
  obtain ⟨body, entries, hpiece⟩ := exists_featPiece hprose
  have hopen : (entries.foldl Splitting.start (Splitting.pushLines {} body)).IsOpen :=
    isOpen_foldl_start entries fun _ => rfl
  have hfront : splitFeatEntries U front =
      (entries.foldl Splitting.start (Splitting.pushLines {} body)).finish := by
    rw [splitFeatEntries, hpiece.splitFeatFrom_eq, finish_foldl_start]
  rw [hfront, splitFeatEntries, lines_append hends, List.map_append, hpiece,
    splitFeatFrom_eq_pushLines, Splitting.pushLines, hopen.finish_push]
  rfl

/-! ## Conditions -/

/-- The lines of a page behind the anchor of an earlier one. -/
def laterGlossaryLines (text : Str) : List Str := ((lines text).map trim).filter isGlossaryLine

/-- The line that opens the glossary, as a text. -/
def anchorLine : Str := "List of Conditions\n".toList

/-- Behind an anchor line, all lines of a page belong to the glossary. -/
theorem splitConditionEntries_anchorLine (text : Str) :
    splitConditionEntries U (anchorLine ++ text) = conditionsOf U (laterGlossaryLines text) := by
  have hends : EndsLine anchorLine := by
    intro c hc
    have hlast : anchorLine.getLast? = some '\n' := by decide
    exact Option.some.inj (hc.symm.trans hlast)
  have hanchor : isAnchor "List of Conditions".toList = true := by decide
  have hlines : (lines anchorLine).map trim = ["List of Conditions".toList] := by decide
  rw [splitConditionEntries_eq, glossaryLines, lines_append hends, List.map_append, hlines,
    List.singleton_append, List.dropWhile_cons_of_neg (by rw [hanchor]; decide), List.tail_cons]
  rfl

/-- Once the anchor is seen, the scan knows. -/
theorem foldl_conditionStep_fst (ls : List Str) (state : Bool × Splitting RawConditionEntry) :
    (ls.foldl (conditionStep U) state).1 =
      (state.1 || ls.any fun line => isAnchor (trim line)) := by
  induction ls generalizing state with
  | nil => simp
  | cons rawLine ls ih =>
    rw [List.foldl_cons, ih, List.any_cons]
    obtain ⟨past, state⟩ := state
    cases past with
    | false => simp [conditionStep, isAnchor]
    | true =>
      rw [conditionStep]
      simp only [Bool.not_true, Bool.false_eq_true, if_false]
      split
      · rfl
      · split <;> simp

/-- A scan leaves an open condition behind if it has met any. -/
theorem isOpen_foldl_conditionStep (ls : List Str) {state : Bool × Splitting RawConditionEntry}
    (h : state.2.IsOpen) : (ls.foldl (conditionStep U) state).2.IsOpen := by
  induction ls generalizing state with
  | nil => exact h
  | cons rawLine ls ih =>
    rw [List.foldl_cons]
    apply ih
    dsimp only [conditionStep]
    split
    · exact h
    split
    · exact h
    split
    · apply Splitting.isOpen_start
    · exact h.push _

/-- The conditions of a text behind one with the anchor. -/
theorem splitConditionEntries_append {front : Str} (hends : EndsLine front)
    (hanchor : ∃ line ∈ lines front, isAnchor (trim line) = true) (back : Str) :
    splitConditionEntries U (front ++ back) =
      (splitConditionEntries U front).modifyLast (fun entry =>
        entry.appendLines (descriptionOf U (laterGlossaryLines back))) ++
        splitConditionEntries U (anchorLine ++ back) := by
  have hpast : ((lines front).foldl (conditionStep U) (false, {})).1 = true := by
    rw [foldl_conditionStep_fst, Bool.false_or, List.any_eq_true]
    exact hanchor
  have hopen : ((lines front).foldl (conditionStep U) (false, {})).2.IsOpen :=
    isOpen_foldl_conditionStep _ fun _ => rfl
  have hstate : (lines front).foldl (conditionStep U) (false, {}) =
      (true, ((lines front).foldl (conditionStep U) (false, {})).2) := Prod.ext hpast rfl
  rw [splitConditionEntries_anchorLine, splitConditionEntries, lines_append hends,
    List.foldl_append, hstate, finish_foldl_conditionStep, hopen.finish_push]
  rfl

/-! ## Pages -/

/-- What the text of a page adds to the one before it, for as many pages as there are. -/
theorem append_flatten_of_step {α : Type} {Front Page : Str → Prop} (blocks : Str → List α)
    {added : Str → List α}
    (hstep : ∀ front page, Front front → Page page →
      Front (front ++ page) ∧ blocks (front ++ page) = blocks front ++ added page)
    {first : Str} {pages : List Str} (hfirst : Front first) (hpages : ∀ page ∈ pages, Page page) :
    blocks (first ++ pages.flatten) = blocks first ++ pages.flatMap added := by
  induction pages generalizing first with
  | nil => simp
  | cons page pages ih =>
    rw [List.forall_mem_cons] at hpages
    obtain ⟨hfront, hblocks⟩ := hstep first page hfirst hpages.1
    rw [List.flatten_cons, ← List.append_assoc, ih hfront hpages.2, hblocks, List.append_assoc,
      List.flatMap_cons]

/-- The candidates of a converted text, without their identifiers. -/
def candidatesIn (U : CaseTables) (fresh : ℕ → Uuid) (converted : Str) : List Candidate :=
  (parseCandidates U fresh converted).map Candidate.anonymous

/-- Joined blocks are parsed one by one. -/
theorem candidatesIn_joined (fresh : ℕ → Uuid) (blocks : List Str) :
    candidatesIn U fresh (blockJoint.intercalate blocks) =
      blocks.flatMap fun block => (sourceBlocks block).map (parseBlock U 0) := by
  rw [candidatesIn, anonymous_parseCandidates, sourceBlocks_joined, List.map_flatMap]

/-- If every page ends with a line and every page behind the first one begins with an action, then
the candidates of all pages together are those of the pages one by one. -/
theorem actions_of_pages (fresh : ℕ → Uuid) {first : Str} {pages : List Str}
    (hfirst : EndsLine first)
    (hpages : ∀ page ∈ pages, EndsLine page ∧
      ∀ line ∈ actionPreface U ((lines page).map trim), line = []) :
    candidatesIn U fresh (convertPage U (first ++ pages.flatten)) =
      candidatesIn U fresh (convertPage U first) ++
        pages.flatMap fun page => candidatesIn U fresh (convertPage U page) := by
  have hstep : ∀ front page : Str, EndsLine front →
      (EndsLine page ∧ ∀ line ∈ actionPreface U ((lines page).map trim), line = []) →
      EndsLine (front ++ page) ∧ (splitEntries U (front ++ page)).map (renderBlock U) =
        (splitEntries U front).map (renderBlock U) ++ (splitEntries U page).map (renderBlock U) :=
    fun _ _ hfront hpage => ⟨hfront.append hpage.1, map_renderBlock_append hfront hpage.2⟩
  have hblocks : (splitEntries U (first ++ pages.flatten)).map (renderBlock U) =
      (splitEntries U first).map (renderBlock U) ++
        pages.flatMap fun page => (splitEntries U page).map (renderBlock U) :=
    append_flatten_of_step (fun text => (splitEntries U text).map (renderBlock U)) hstep hfirst
      hpages
  simp only [convertPage, candidatesIn_joined, hblocks, List.flatMap_append, List.flatMap_assoc]

/-- Two pages of actions; the second one begins with a blank line. -/
theorem actions_of_pages_example :
    candidatesIn .ascii (fun _ => 0) (convertPage .ascii
        ("STAND [one-action]\nMOVE\n\nYou stand up.\n".toList ++
          ["\nSTRIDE [one-action]\nMOVE\n\nYou move.\n".toList].flatten)) =
      candidatesIn .ascii (fun _ => 0) (convertPage .ascii
          "STAND [one-action]\nMOVE\n\nYou stand up.\n".toList) ++
        ["\nSTRIDE [one-action]\nMOVE\n\nYou move.\n".toList].flatMap
          fun page => candidatesIn .ascii (fun _ => 0) (convertPage .ascii page) :=
  actions_of_pages _ (by decide) (by decide +kernel)

/-- If every page ends with a line, the last one of them that is not blank in prose, and every page
behind the first one begins with a feat, then the candidates of all pages together are those of the
pages one by one. -/
theorem feats_of_pages (fresh : ℕ → Uuid) {first : Str} {pages : List Str}
    (hfirst : EndsLine first ∧ EndsInProse U ((lines first).map trim))
    (hpages : ∀ page ∈ pages, (EndsLine page ∧ EndsInProse U ((lines page).map trim)) ∧
      featPreface U ((lines page).map trim) = []) :
    candidatesIn U fresh (convertFeatPage U (first ++ pages.flatten)) =
      candidatesIn U fresh (convertFeatPage U first) ++
        pages.flatMap fun page => candidatesIn U fresh (convertFeatPage U page) := by
  have hstep : ∀ front page : Str, (EndsLine front ∧ EndsInProse U ((lines front).map trim)) →
      ((EndsLine page ∧ EndsInProse U ((lines page).map trim)) ∧
        featPreface U ((lines page).map trim) = []) →
      (EndsLine (front ++ page) ∧ EndsInProse U ((lines (front ++ page)).map trim)) ∧
        splitFeatEntries U (front ++ page) =
          splitFeatEntries U front ++ splitFeatEntries U page := by
    rintro front page ⟨hends, hprose⟩ ⟨⟨hends', hprose'⟩, hstarts⟩
    refine ⟨⟨hends.append hends', ?_⟩, ?_⟩
    · rw [lines_append hends, List.map_append]
      exact hprose.append hprose'
    · rw [splitFeatEntries_append hends hprose, hstarts, modifyLast_eq_self]
      intro entry
      simp [RawFeatEntry.appendLines]
  have hfeats := append_flatten_of_step (splitFeatEntries U) hstep hfirst hpages
  simp only [convertFeatPage, candidatesIn_joined, hfeats, List.map_append, List.map_flatMap,
    List.flatMap_append, List.flatMap_assoc]

/-- Two pages of feats. -/
theorem feats_of_pages_example :
    candidatesIn .ascii (fun _ => 0) (convertFeatPage .ascii
        ("FLEET\nFEAT 1\nGENERAL\n\nYou move more quickly.\n".toList ++
          ["TOUGHNESS\nFEAT 1\nGENERAL\nYou are hardy.\n\n".toList].flatten)) =
      candidatesIn .ascii (fun _ => 0) (convertFeatPage .ascii
          "FLEET\nFEAT 1\nGENERAL\n\nYou move more quickly.\n".toList) ++
        ["TOUGHNESS\nFEAT 1\nGENERAL\nYou are hardy.\n\n".toList].flatMap
          fun page => candidatesIn .ascii (fun _ => 0) (convertFeatPage .ascii page) :=
  feats_of_pages _ (by unfold EndsInProse; decide +kernel)
    (by unfold EndsInProse; decide +kernel)

/-- If the first page has the anchor, every page ends with a line, and every page behind the first
one begins with a condition, then the candidates of all pages together are those of the pages one by
one, with an anchor line in front of the later ones. -/
theorem conditions_of_pages (fresh : ℕ → Uuid) {first : Str} {pages : List Str}
    (hfirst : EndsLine first ∧ ∃ line ∈ lines first, isAnchor (trim line) = true)
    (hpages : ∀ page ∈ pages, EndsLine page ∧ descriptionOf U (laterGlossaryLines page) = []) :
    candidatesIn U fresh (convertConditionPage U (first ++ pages.flatten)) =
      candidatesIn U fresh (convertConditionPage U first) ++
        pages.flatMap fun page =>
          candidatesIn U fresh (convertConditionPage U (anchorLine ++ page)) := by
  have hstep : ∀ front page : Str,
      (EndsLine front ∧ ∃ line ∈ lines front, isAnchor (trim line) = true) →
      (EndsLine page ∧ descriptionOf U (laterGlossaryLines page) = []) →
      (EndsLine (front ++ page) ∧ ∃ line ∈ lines (front ++ page), isAnchor (trim line) = true) ∧
        splitConditionEntries U (front ++ page) =
          splitConditionEntries U front ++ splitConditionEntries U (anchorLine ++ page) := by
    rintro front page ⟨hends, line, hline, hanchor⟩ ⟨hends', hstarts⟩
    refine ⟨⟨hends.append hends', line, ?_, hanchor⟩, ?_⟩
    · rw [lines_append hends]
      exact List.mem_append_left _ hline
    · rw [splitConditionEntries_append hends ⟨line, hline, hanchor⟩, hstarts, modifyLast_eq_self]
      intro entry
      simp [RawConditionEntry.appendLines]
  have hconditions := append_flatten_of_step (splitConditionEntries U) hstep hfirst hpages
  simp only [convertConditionPage, candidatesIn_joined, hconditions, List.map_append,
    List.map_flatMap, List.flatMap_append, List.flatMap_assoc]

/-- Two pages of the glossary. -/
theorem conditions_of_pages_example :
    candidatesIn .ascii (fun _ => 0) (convertConditionPage .ascii
        ("List of Conditions\nBlinded\nYou can't see.\n442\n".toList ++
          ["Dazzled\nEverything is concealed to you.\n".toList].flatten)) =
      candidatesIn .ascii (fun _ => 0) (convertConditionPage .ascii
          "List of Conditions\nBlinded\nYou can't see.\n442\n".toList) ++
        ["Dazzled\nEverything is concealed to you.\n".toList].flatMap fun page =>
          candidatesIn .ascii (fun _ => 0) (convertConditionPage .ascii (anchorLine ++ page)) :=
  conditions_of_pages _ (by decide +kernel) (by decide +kernel)

end Pf2eParser
