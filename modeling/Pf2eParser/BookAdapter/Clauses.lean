import Pf2eParser.BookAdapter.Paragraphs
import Pf2eParser.BookAdapter.Rendered
import Pf2eParser.Parser.Confidence

/-!
# Actions with a trigger and requirements

The book sets the trigger and the requirements of an action as clauses in front of its effect, each
opening a line with its label word.  A label is found at the start of a paragraph only, so the blank
lines decide: `clauses_parsed_iff` says that both clauses are recognised exactly when a blank line
stands in front of each of them, as long as no `---` cuts the block.

`ClauseLayout` is the text of such an action.  Its paragraphs are computed from the back
(`ClauseLayout.groupParagraphs_bodyLines`), their roles one by one, and the rest is what the
paragraph loop and the block parser make of them.
-/

namespace Pf2eParser

open Text

variable {U : CaseTables}

/-! ## Roles of composed paragraphs -/

/-- A paragraph that is not shouty has the same role everywhere. -/
theorem paragraphRole_of_not_shouty {paragraph : Str} (h : isShouty U paragraph = false)
    (index : ℕ) : paragraphRole U index paragraph = paragraphRole U 1 paragraph := by
  simp [paragraphRole, h]

/-- The label words are different in their first letters. -/
theorem extractBookLabel_eq_none {paragraph label : Str} (h : ¬ label ++ [' '] <+: paragraph) :
    extractBookLabel paragraph label = none := by
  rw [extractBookLabel, Option.map_eq_none_iff]
  cases hstrip : stripPrefix label paragraph with
  | none => rfl
  | some rest =>
    obtain rfl := stripPrefix_eq_some_iff.mp hstrip
    rw [Option.bind_some, stripPrefix, if_neg]
    rintro ⟨t, rfl⟩
    exact h ⟨t, by simp⟩

/-- A paragraph that opens with no label is prose. -/
theorem paragraphRole_prose {paragraph : Str}
    (h : ∀ label : BookLabel, ¬ label.word ++ [' '] <+: paragraph) :
    paragraphRole U 1 paragraph = .prose := by
  simp [paragraphRole, extractBookLabel_eq_none (h _)]

/-- The label words open different paragraphs. -/
theorem not_opens_with_word {label label' : BookLabel} (hne : label ≠ label') (rest : Str) :
    ¬ label'.word ++ [' '] <+: label.word ++ ' ' :: rest := by
  rintro ⟨t, ht⟩
  have hhead := congrArg List.head? ht
  cases label <;> cases label'
  · exact hne rfl
  · change some 'T' = some 'R' at hhead
    exact absurd hhead (by decide)
  · change some 'R' = some 'T' at hhead
    exact absurd hhead (by decide)
  · exact hne rfl

/-- A paragraph that is read with a label word is a clause. -/
theorem paragraphRole_of_extract {label : BookLabel} {rest value : Str} {leftover : Option Str}
    (h : extractBookLabel (label.word ++ ' ' :: rest) label.word = some (value, leftover)) :
    paragraphRole U 1 (label.word ++ ' ' :: rest) = .clause label value leftover := by
  cases label with
  | requirements => simp [paragraphRole, h]
  | trigger =>
    have hnone := extractBookLabel_eq_none
      (@not_opens_with_word .trigger .requirements (by decide) rest)
    simp [paragraphRole, h, hnone]

/-- A label and one sentence. -/
theorem extractBookLabel_sentence (word : Str) {body : Str} (h : ¬ ". ".toList <:+: body) :
    extractBookLabel (word ++ ' ' :: body) word = some (trim body, none) := by
  have hfind : find ". ".toList body = none := by
    rw [find, splitOnce_eq_none_iff.mpr h, Option.map_none]
  have hword : stripPrefix word (word ++ ' ' :: body) = some (' ' :: body) :=
    stripPrefix_eq_some_iff.mpr rfl
  have hspace : stripPrefix [' '] (' ' :: body) = some body := stripPrefix_eq_some_iff.mpr rfl
  simp only [extractBookLabel, hword, Option.bind_some, hspace, Option.map_some, hfind]

/-- A label, one sentence and what follows it. -/
theorem extractBookLabel_sentence_append (word : Str) {body rest : Str}
    (h : ¬ ". ".toList <:+: body) (hstop : body.getLast? = some '.') (hrest : IsSolid rest) :
    extractBookLabel (word ++ ' ' :: (body ++ ' ' :: rest)) word = some (trim body, some rest) := by
  obtain ⟨front, hfront⟩ : ∃ front, body = front ++ ['.'] :=
    ⟨body.dropLast, (List.dropLast_append_getLast? _ hstop).symm⟩
  have hcut : splitOnce ". ".toList (body ++ ' ' :: rest) = some (front, rest) := by
    refine (splitOnce_eq_some_iff (by decide)).mpr ⟨by simp [hfront], ?_⟩
    exact fun hoccurs => h (hfront ▸ hoccurs)
  have hfind : find ". ".toList (body ++ ' ' :: rest) = some front.length := by
    rw [find, hcut, Option.map_some]
  have hlen : body.length = front.length + 1 := by simp [hfront]
  have htake : (body ++ ' ' :: rest).take (front.length + 1) = body := by simp [← hlen]
  have hdrop : (body ++ ' ' :: rest).drop (front.length + 1) = ' ' :: rest := by simp [← hlen]
  have htrim : trim (' ' :: rest) = rest := trim_cons_space hrest
  have hword : stripPrefix word (word ++ ' ' :: (body ++ ' ' :: rest)) =
      some (' ' :: (body ++ ' ' :: rest)) := stripPrefix_eq_some_iff.mpr rfl
  have hspace : stripPrefix [' '] (' ' :: (body ++ ' ' :: rest)) = some (body ++ ' ' :: rest) :=
    stripPrefix_eq_some_iff.mpr rfl
  simp only [extractBookLabel, hword, Option.bind_some, hspace, Option.map_some, hfind, htake,
    hdrop, htrim]
  simp [hrest.ne_nil]

/-! ## Clauses -/

/-- A clause: a label word and a space in front of a text that runs over any number of lines. -/
structure BookClause where
  label : BookLabel
  first : Str
  more : List Str

namespace BookClause

/-- The lines of a clause. -/
def lines (clause : BookClause) : List Str :=
  (clause.label.word ++ ' ' :: clause.first) :: clause.more

/-- What stands behind the label word. -/
def body (clause : BookClause) : Str := [' '].intercalate (clause.first :: clause.more)

/-- The text of a clause. -/
def text (clause : BookClause) : Str := trim clause.body

/-- The clause is one sentence, which ends with its last line. -/
structure WellFormed (clause : BookClause) : Prop where
  more : ∀ line ∈ clause.more, line ≠ []
  stop : clause.body.getLast? = some '.'
  sentence : ¬ ". ".toList <:+: clause.body

/-- The lines of a clause, joined by spaces. -/
theorem intercalate_lines (clause : BookClause) :
    [' '].intercalate clause.lines = clause.label.word ++ ' ' :: clause.body := by
  unfold lines body
  cases clause.more <;> simp

/-- The lines of a clause are not blank. -/
theorem WellFormed.ne_nil_of_mem_lines {clause : BookClause} (h : clause.WellFormed) :
    ∀ line ∈ clause.lines, line ≠ [] := by
  intro line hline
  rcases List.mem_cons.mp hline with rfl | hline
  · simp
  · exact h.more line hline

end BookClause

/-! ## The text of an action with clauses -/

/-- A paragraph, so many blank lines, and paragraphs: without a blank line the first two are one. -/
def joinParagraph (paragraph : Str) (gap : ℕ) : List Str → List Str
  | [] => [paragraph]
  | first :: rest =>
    if gap = 0 then (paragraph ++ ' ' :: first) :: rest else paragraph :: first :: rest

/-- The paragraphs of nonblank lines, blank lines, and a text that starts with a nonblank line. -/
theorem groupParagraphs_run_append {run : List Str} (hne : run ≠ [])
    (hrun : ∀ line ∈ run, line ≠ []) (gap : ℕ) {line : Str} (hline : line ≠ [])
    (rest : List Str) :
    groupParagraphs (run ++ (List.replicate gap [] ++ line :: rest)) =
      joinParagraph ([' '].intercalate run) gap (groupParagraphs (line :: rest)) := by
  obtain ⟨part, tail, hgroup, hjoined⟩ := groupParagraphs_cons hline rest
  cases gap with
  | zero =>
    rw [List.replicate_zero, List.nil_append, hjoined run hrun, hgroup,
      intercalate_append _ hne (by simp)]
    simp [joinParagraph]
  | succ gap =>
    rw [List.replicate_succ, List.cons_append, groupParagraphs_append_blank, groupParagraphs_blanks,
      groupParagraphs_run hne hrun, hgroup]
    simp [joinParagraph]

/-- The paragraphs of a clause, blank lines, and a text that starts with a nonblank line. -/
theorem BookClause.WellFormed.groupParagraphs_append {clause : BookClause} (h : clause.WellFormed)
    (gap : ℕ) {line : Str} (hline : line ≠ []) (rest : List Str) :
    groupParagraphs (clause.lines ++ (List.replicate gap [] ++ line :: rest)) =
      joinParagraph (clause.label.word ++ ' ' :: clause.body) gap
        (groupParagraphs (line :: rest)) := by
  have hne : clause.lines ≠ [] := List.cons_ne_nil _ _
  rw [groupParagraphs_run_append hne h.ne_nil_of_mem_lines gap hline rest,
    BookClause.intercalate_lines]

/-- The text of an action: perhaps a trait, a trigger and a requirements clause in either order, and
the effect, with so many blank lines in front of each part. -/
structure ClauseLayout (U : CaseTables) where
  lead : ℕ
  traitLines : List Str
  traitGap : ℕ
  first : BookClause
  clauseGap : ℕ
  second : BookClause
  proseGap : ℕ
  proseLine : Str
  prose : List Str
  /-- The trait is read as one where it is a paragraph of its own. -/
  traitLines_spec : traitLines ≠ [] → (∀ line ∈ traitLines, line ≠ []) ∧
    isShouty U ([' '].intercalate traitLines) = true ∧
      (splitWhitespace ([' '].intercalate traitLines)).length ≤ 2
  first_wellFormed : first.WellFormed
  second_wellFormed : second.WellFormed
  /-- One clause is the trigger, the other one the requirements. -/
  label_ne : first.label ≠ second.label
  proseLine_ne : proseLine ≠ []
  /-- No paragraph of the effect is a clause itself. -/
  prose_plain : ∀ p ∈ groupParagraphs (proseLine :: prose), ∀ label : BookLabel,
    ¬ label.word ++ [' '] <+: p

namespace ClauseLayout

/-- The lines of the text. -/
def bodyLines (layout : ClauseLayout U) : List Str :=
  List.replicate layout.lead [] ++ (layout.traitLines ++ (List.replicate layout.traitGap [] ++
    (layout.first.lines ++ (List.replicate layout.clauseGap [] ++
      (layout.second.lines ++ (List.replicate layout.proseGap [] ++
        layout.proseLine :: layout.prose))))))

/-- The clause with the given label. -/
def clause (layout : ClauseLayout U) (label : BookLabel) : BookClause :=
  if layout.first.label = label then layout.first else layout.second

/-- The nonblank lines of the effect, joined by spaces. -/
def proseText (layout : ClauseLayout U) : Str :=
  [' '].intercalate ((layout.proseLine :: layout.prose).filter fun line => !line.isEmpty)

/-- The paragraphs of the effect. -/
def proseParagraphs (layout : ClauseLayout U) : List Str :=
  groupParagraphs (layout.proseLine :: layout.prose)

/-- The paragraphs behind the trait. -/
def clauseParagraphs (layout : ClauseLayout U) : List Str :=
  joinParagraph (layout.first.label.word ++ ' ' :: layout.first.body) layout.clauseGap
    (joinParagraph (layout.second.label.word ++ ' ' :: layout.second.body) layout.proseGap
      layout.proseParagraphs)

/-- The paragraphs of the text. -/
theorem groupParagraphs_bodyLines (layout : ClauseLayout U) :
    groupParagraphs layout.bodyLines =
      if layout.traitLines = [] then layout.clauseParagraphs
      else joinParagraph ([' '].intercalate layout.traitLines) layout.traitGap
        layout.clauseParagraphs := by
  have hsecond := layout.second_wellFormed.groupParagraphs_append layout.proseGap
    layout.proseLine_ne layout.prose
  have hfirst := layout.first_wellFormed.groupParagraphs_append layout.clauseGap
    (layout.second_wellFormed.ne_nil_of_mem_lines _ List.mem_cons_self)
    (layout.second.more ++ (List.replicate layout.proseGap [] ++ layout.proseLine :: layout.prose))
  rw [← List.cons_append, ← BookClause.lines, hsecond] at hfirst
  rw [bodyLines, groupParagraphs_blanks]
  split
  case isTrue hnil => rw [hnil, List.nil_append, groupParagraphs_blanks, hfirst]; rfl
  case isFalse hne =>
    have hfirstLine := layout.first_wellFormed.ne_nil_of_mem_lines _ List.mem_cons_self
    exact (groupParagraphs_run_append hne (layout.traitLines_spec hne).1 layout.traitGap hfirstLine
      _).trans (congrArg _ hfirst)

end ClauseLayout

/-! ## The roles of the paragraphs -/

/-- The roles of paragraphs behind the first one. -/
def laterRoles (U : CaseTables) (paragraphs : List Str) : List (Str × ParagraphRole) :=
  paragraphs.map fun p => (p, paragraphRole U 1 p)

/-- The roles of the first paragraph and of the others. -/
theorem paragraphRoles_cons (p : Str) (paragraphs : List Str) :
    paragraphRoles U (p :: paragraphs) =
      (p, paragraphRole U 0 p) :: laterRoles U paragraphs := by
  have hmain : ∀ k : ℕ, (paragraphs.zipIdx (k + 1)).map
      (fun entry => (entry.1, paragraphRole U entry.2 entry.1)) = laterRoles U paragraphs := by
    induction paragraphs with
    | nil => exact fun _ => rfl
    | cons q paragraphs ih =>
      intro k
      rw [List.zipIdx_cons, List.map_cons, ih, paragraphRole_succ]
      rfl
  rw [paragraphRoles, List.zipIdx_cons, List.map_cons, hmain]

/-- Only the first paragraph can be a trait. -/
theorem traitParagraphs_laterRoles (paragraphs : List Str) :
    traitParagraphs (laterRoles U paragraphs) = [] := by
  refine List.flatMap_eq_nil_iff.mpr fun entry hentry => ?_
  obtain ⟨paragraph, -, rfl⟩ := List.mem_map.mp hentry
  cases hrole : paragraphRole U 1 paragraph with
  | clause => rfl
  | prose => rfl
  | traitWord =>
    unfold paragraphRole at hrole
    grind

/-- The label words have an ASCII letter in lower case. -/
theorem isShouty_word (hA : U.FollowsAscii) (label : BookLabel) (front rest : Str) :
    isShouty U (front ++ (label.word ++ rest)) = false := by
  have hmem : 'e' ∈ label.word := by cases label <;> decide
  have hin : 'e' ∈ front ++ (label.word ++ rest) := by simp [hmem]
  exact isShouty_eq_false hA hin (by decide) (by decide)

/-- Plain paragraphs are effect only. -/
theorem laterRoles_plain {paragraphs : List Str}
    (h : ∀ p ∈ paragraphs, ∀ label : BookLabel, ¬ label.word ++ [' '] <+: p) :
    (∀ label, clauseValues label (laterRoles U paragraphs) = []) ∧
      effectTexts (laterRoles U paragraphs) = paragraphs := by
  have hroles : laterRoles U paragraphs = paragraphs.map fun p => (p, ParagraphRole.prose) :=
    List.map_congr_left fun p hp => by rw [paragraphRole_prose (h p hp)]
  rw [hroles]
  clear hroles h
  induction paragraphs with
  | nil => exact ⟨fun _ => rfl, rfl⟩
  | cons p paragraphs ih => exact ⟨ih.1, congrArg (p :: ·) ih.2⟩

namespace BookClause

/-- A clause in a paragraph of its own. -/
theorem WellFormed.paragraphRole_eq {clause : BookClause} (h : clause.WellFormed) :
    paragraphRole U 1 (clause.label.word ++ ' ' :: clause.body) =
      .clause clause.label clause.text none :=
  paragraphRole_of_extract (extractBookLabel_sentence _ h.sentence)

/-- A clause with something behind it in its paragraph. -/
theorem WellFormed.paragraphRole_append {clause : BookClause} (h : clause.WellFormed) {rest : Str}
    (hrest : IsSolid rest) :
    paragraphRole U 1 (clause.label.word ++ ' ' :: (clause.body ++ ' ' :: rest)) =
      .clause clause.label clause.text (some rest) :=
  paragraphRole_of_extract (extractBookLabel_sentence_append _ h.sentence h.stop hrest)

/-- A clause in front of plain paragraphs, with or without a blank line between them. -/
theorem WellFormed.laterRoles_joinParagraph {clause : BookClause} (h : clause.WellFormed)
    {paragraphs : List Str} (gap : ℕ) (hsolid : ∀ p ∈ paragraphs, IsSolid p)
    (hplain : ∀ p ∈ paragraphs, ∀ label : BookLabel, ¬ label.word ++ [' '] <+: p) :
    ∃ p rest, joinParagraph (clause.label.word ++ ' ' :: clause.body) gap paragraphs = p :: rest ∧
      (∃ leftover, paragraphRole U 1 p = .clause clause.label clause.text leftover ∧
        leftover.toList ++ rest = paragraphs) := by
  cases paragraphs with
  | nil => exact ⟨_, [], rfl, none, h.paragraphRole_eq, rfl⟩
  | cons first paragraphs =>
    by_cases hgap : gap = 0
    · refine ⟨_, paragraphs, if_pos hgap, some first, ?_, rfl⟩
      rw [List.append_assoc, List.cons_append]
      exact h.paragraphRole_append (hsolid first (by simp))
    · exact ⟨_, first :: paragraphs, if_neg hgap, none, h.paragraphRole_eq, rfl⟩

end BookClause

namespace ClauseLayout

variable (layout : ClauseLayout U)

/-- All paragraphs of the text are solid. -/
def Solid : Prop := ∀ line ∈ layout.bodyLines, IsTrimmed line

variable {layout}

/-- The paragraphs of the effect are solid. -/
theorem Solid.prose (h : layout.Solid) : ∀ p ∈ layout.proseParagraphs, IsSolid p := by
  refine isSolid_of_mem_groupParagraphs fun line hline => h line ?_
  simp only [bodyLines, List.mem_append]
  tauto

/-- The paragraphs from the second clause on: the clause comes first, and the effect behind it. -/
theorem Solid.second (h : layout.Solid) : ∃ p rest,
    joinParagraph (layout.second.label.word ++ ' ' :: layout.second.body) layout.proseGap
      layout.proseParagraphs = p :: rest ∧ IsSolid p ∧
    (∀ label, clauseValues label (laterRoles U rest) = []) ∧
    (∀ label, clauseValues label (laterRoles U (p :: rest)) =
      if layout.second.label = label then [layout.second.text] else []) ∧
    effectTexts (laterRoles U (p :: rest)) = layout.proseParagraphs := by
  obtain ⟨p, rest, hjoin, leftover, hrole, hprose⟩ :=
    layout.second_wellFormed.laterRoles_joinParagraph (U := U) layout.proseGap h.prose
      layout.prose_plain
  obtain ⟨hvalues, heffect⟩ := @laterRoles_plain U rest fun q hq =>
    layout.prose_plain q (by
      change q ∈ layout.proseParagraphs
      rw [← hprose]
      exact List.mem_append_right _ hq)
  have hroles : laterRoles U (p :: rest) = (p, .clause layout.second.label layout.second.text
      leftover) :: laterRoles U rest := by
    rw [← hrole]
    rfl
  refine ⟨p, rest, hjoin, ?_, hvalues, fun label => ?_, ?_⟩
  · have hgroup := layout.second_wellFormed.groupParagraphs_append layout.proseGap
      layout.proseLine_ne layout.prose
    rw [← proseParagraphs, hjoin] at hgroup
    have hlines : ∀ line ∈ layout.second.lines ++
        (List.replicate layout.proseGap [] ++ layout.proseLine :: layout.prose),
          IsTrimmed line := by
      intro line hline
      apply h line
      simp only [bodyLines, List.mem_append] at hline ⊢
      tauto
    apply isSolid_of_mem_groupParagraphs hlines p
    rw [hgroup]
    exact List.mem_cons_self
  · rw [hroles, clauseValues_cons_clause, hvalues, List.append_nil]
  · rw [hroles, effectTexts_cons_clause, heffect, hprose]

/-- Both clauses are in front of paragraphs of their own. -/
def Separated (layout : ClauseLayout U) : Prop :=
  (layout.traitLines = [] ∨ 0 < layout.traitGap) ∧ 0 < layout.clauseGap

/-- The clause with a label is one of the two. -/
theorem clause_text (label : BookLabel) :
    [(layout.clause label).text] =
      (if layout.first.label = label then [layout.first.text] else []) ++
        if layout.second.label = label then [layout.second.text] else [] := by
  have hne := layout.label_ne
  unfold clause
  cases hfirst : layout.first.label <;> cases hsecond : layout.second.label <;> cases label <;>
    simp_all

/-- The clause with a label is one sentence. -/
theorem clause_wellFormed (layout : ClauseLayout U) (label : BookLabel) :
    (layout.clause label).WellFormed := by
  unfold clause
  split
  case isTrue => exact layout.first_wellFormed
  case isFalse => exact layout.second_wellFormed

/-- The paragraphs behind the trait, if a blank line separates the clauses. -/
theorem Solid.clauses (h : layout.Solid) (hgap : 0 < layout.clauseGap) :
    (∀ label, clauseValues label (laterRoles U layout.clauseParagraphs) =
        [(layout.clause label).text]) ∧
      effectTexts (laterRoles U layout.clauseParagraphs) = layout.proseParagraphs := by
  obtain ⟨p, rest, hjoin, -, -, hvalues, heffect⟩ := h.second
  have hroles : laterRoles U layout.clauseParagraphs =
      (layout.first.label.word ++ ' ' :: layout.first.body,
        .clause layout.first.label layout.first.text none) :: laterRoles U (p :: rest) := by
    rw [clauseParagraphs, hjoin, joinParagraph, if_neg (by omega),
      ← layout.first_wellFormed.paragraphRole_eq (U := U)]
    rfl
  refine ⟨fun label => ?_, ?_⟩
  · rw [hroles, clauseValues_cons_clause, hvalues, clause_text]
  · rw [hroles, effectTexts_cons_clause, heffect]
    rfl

/-- The first paragraph behind the trait opens with a label word. -/
theorem clauseParagraphs_eq (layout : ClauseLayout U) : ∃ tail rest,
    layout.clauseParagraphs = (layout.first.label.word ++ ' ' :: tail) :: rest := by
  unfold clauseParagraphs
  generalize joinParagraph (layout.second.label.word ++ ' ' :: layout.second.body) layout.proseGap
    layout.proseParagraphs = paragraphs
  cases paragraphs with
  | nil => exact ⟨_, [], rfl⟩
  | cons p rest =>
    by_cases hgap : layout.clauseGap = 0
    · refine ⟨layout.first.body ++ ' ' :: p, rest, ?_⟩
      rw [joinParagraph, if_pos hgap, List.append_assoc, List.cons_append]
    · exact ⟨_, p :: rest, by rw [joinParagraph, if_neg hgap]⟩

/-- The paragraphs behind the trait have the same roles without the trait. -/
theorem paragraphRoles_clauseParagraphs (hA : U.FollowsAscii) (layout : ClauseLayout U) :
    paragraphRoles U layout.clauseParagraphs = laterRoles U layout.clauseParagraphs := by
  obtain ⟨tail, rest, hparagraphs⟩ := layout.clauseParagraphs_eq
  have hplain := isShouty_word hA layout.first.label [] (' ' :: tail)
  rw [List.nil_append] at hplain
  rw [hparagraphs, paragraphRoles_cons, paragraphRole_of_not_shouty hplain 0]
  rfl

/-- The roles of all paragraphs, if the trait is a paragraph of its own. -/
theorem paragraphRoles_bodyLines (hA : U.FollowsAscii)
    (htrait : layout.traitLines = [] ∨ 0 < layout.traitGap) :
    paragraphRoles U (groupParagraphs layout.bodyLines) =
      (if layout.traitLines = [] then []
        else [([' '].intercalate layout.traitLines, .traitWord)]) ++
        laterRoles U layout.clauseParagraphs := by
  rw [groupParagraphs_bodyLines]
  split
  case isTrue => rw [paragraphRoles_clauseParagraphs hA, List.nil_append]
  case isFalse hne =>
    obtain ⟨-, hshouty, hwords⟩ := layout.traitLines_spec hne
    have hgap : layout.traitGap ≠ 0 := by
      have := htrait.resolve_left hne
      omega
    have hrole : paragraphRole U 0 ([' '].intercalate layout.traitLines) = .traitWord := by
      simp [paragraphRole, hshouty, hwords]
    obtain ⟨tail, rest, hparagraphs⟩ := layout.clauseParagraphs_eq
    rw [hparagraphs, joinParagraph, if_neg hgap, paragraphRoles_cons, hrole]
    rfl

/-- Separated clauses are both recognised, and the rest is the effect. -/
theorem Solid.separated (h : layout.Solid) (hA : U.FollowsAscii) (hsep : layout.Separated) :
    (∀ label, clauseValues label (paragraphRoles U (groupParagraphs layout.bodyLines)) =
        [(layout.clause label).text]) ∧
      effectTexts (paragraphRoles U (groupParagraphs layout.bodyLines)) =
        layout.proseParagraphs := by
  obtain ⟨htrait, hgap⟩ := hsep
  obtain ⟨hvalues, heffect⟩ := h.clauses hgap
  rw [paragraphRoles_bodyLines hA htrait]
  split
  case isTrue => exact ⟨hvalues, heffect⟩
  case isFalse => exact ⟨hvalues, heffect⟩

/-- A shouty text with something behind a space opens with no label word. -/
theorem not_word_prefix_of_shouty (hA : U.FollowsAscii) {front : Str}
    (hshouty : isShouty U front = true) (label : BookLabel) (rest : Str) :
    ¬ label.word ++ [' '] <+: front ++ ' ' :: rest := by
  intro hprefixed
  have hword : label.word <+: front ++ ' ' :: rest := (List.prefix_append _ _).trans hprefixed
  have hfront : front ++ [' '] <+: front ++ ' ' :: rest := ⟨rest, by simp⟩
  have hspace : ' ' ∉ label.word := by cases label <;> decide
  rcases List.prefix_or_prefix_of_prefix hword hfront with hshort | hlong
  · rcases List.prefix_concat_iff.mp hshort with heq | ⟨tail, rfl⟩
    · exact hspace (heq ▸ by simp)
    · rw [← List.nil_append (label.word ++ tail), isShouty_word hA] at hshouty
      exact absurd hshouty (by decide)
  · exact hspace (hlong.subset (by simp))

/-- The label of the first clause is missing if the trait and the clause are one paragraph. -/
theorem Solid.glued_trait (h : layout.Solid) (hA : U.FollowsAscii) (hne : layout.traitLines ≠ [])
    (hgap : layout.traitGap = 0) :
    clauseValues layout.first.label (paragraphRoles U (groupParagraphs layout.bodyLines)) = [] ∧
      effectTexts (paragraphRoles U (groupParagraphs layout.bodyLines)) ≠ [] := by
  obtain ⟨-, hshouty, -⟩ := layout.traitLines_spec hne
  obtain ⟨p, others, hjoin, -, hnone, hvalues, -⟩ := h.second
  obtain ⟨tail, rest, hparagraphs, hrest⟩ : ∃ tail rest, layout.clauseParagraphs =
      (layout.first.label.word ++ ' ' :: tail) :: rest ∧
        clauseValues layout.first.label (laterRoles U rest) = [] := by
    rw [clauseParagraphs, hjoin]
    by_cases hclause : layout.clauseGap = 0
    · refine ⟨layout.first.body ++ ' ' :: p, others, ?_, hnone _⟩
      rw [joinParagraph, if_pos hclause, List.append_assoc, List.cons_append]
    · refine ⟨_, p :: others, by rw [joinParagraph, if_neg hclause], ?_⟩
      rw [hvalues, if_neg layout.label_ne.symm]
  have hplain : isShouty U ([' '].intercalate layout.traitLines ++
      ' ' :: (layout.first.label.word ++ ' ' :: tail)) = false := by
    have := isShouty_word hA layout.first.label ([' '].intercalate layout.traitLines ++ [' '])
      (' ' :: tail)
    rwa [List.append_assoc, List.singleton_append] at this
  rw [groupParagraphs_bodyLines, if_neg hne, hparagraphs, joinParagraph, if_pos hgap,
    paragraphRoles_cons, paragraphRole_of_not_shouty hplain,
    paragraphRole_prose fun label => not_word_prefix_of_shouty hA hshouty label _]
  exact ⟨hrest, List.cons_ne_nil _ _⟩

/-- Without a blank line between the clauses, the label of the second one is missing. -/
theorem Solid.glued_clauses (h : layout.Solid) (hA : U.FollowsAscii)
    (htrait : layout.traitLines = [] ∨ 0 < layout.traitGap) (hgap : layout.clauseGap = 0) :
    clauseValues layout.second.label (paragraphRoles U (groupParagraphs layout.bodyLines)) = [] ∧
      effectTexts (paragraphRoles U (groupParagraphs layout.bodyLines)) ≠ [] := by
  obtain ⟨p, rest, hjoin, hsolid, hnone, -, -⟩ := h.second
  have hrole : paragraphRole U 1
      (layout.first.label.word ++ ' ' :: (layout.first.body ++ ' ' :: p)) =
        .clause layout.first.label layout.first.text (some p) :=
    layout.first_wellFormed.paragraphRole_append hsolid
  have hparagraphs : layout.clauseParagraphs =
      (layout.first.label.word ++ ' ' :: (layout.first.body ++ ' ' :: p)) :: rest := by
    rw [clauseParagraphs, hjoin, joinParagraph, if_pos hgap, List.append_assoc, List.cons_append]
  have hlater : laterRoles U layout.clauseParagraphs =
      (layout.first.label.word ++ ' ' :: (layout.first.body ++ ' ' :: p),
        .clause layout.first.label layout.first.text (some p)) :: laterRoles U rest := by
    rw [hparagraphs, ← hrole]
    rfl
  have hvalues : clauseValues layout.second.label (laterRoles U layout.clauseParagraphs) = [] := by
    rw [hlater, clauseValues_cons_clause, if_neg layout.label_ne]
    exact hnone _
  have heffect : effectTexts (laterRoles U layout.clauseParagraphs) ≠ [] := by
    rw [hlater]
    exact List.cons_ne_nil _ _
  rw [paragraphRoles_bodyLines hA htrait]
  split
  case isTrue => exact ⟨hvalues, heffect⟩
  case isFalse => exact ⟨hvalues, heffect⟩

/-- There is a paragraph of the effect. -/
theorem proseParagraphs_ne_nil (layout : ClauseLayout U) : layout.proseParagraphs ≠ [] := by
  obtain ⟨part, tail, hgroup, -⟩ := groupParagraphs_cons layout.proseLine_ne layout.prose
  rw [proseParagraphs, hgroup]
  exact List.cons_ne_nil _ _

/-- Something is left for the effect, and both labels have values only if the clauses are
separated. -/
theorem Solid.separated_of_values (h : layout.Solid) (hA : U.FollowsAscii) :
    effectTexts (paragraphRoles U (groupParagraphs layout.bodyLines)) ≠ [] ∧
      ((∀ label, clauseValues label (paragraphRoles U (groupParagraphs layout.bodyLines)) ≠ []) →
        layout.Separated) := by
  by_cases htrait : layout.traitLines = [] ∨ 0 < layout.traitGap
  · by_cases hgap : layout.clauseGap = 0
    · obtain ⟨hvalues, heffect⟩ := h.glued_clauses hA htrait hgap
      exact ⟨heffect, fun hall => absurd hvalues (hall _)⟩
    · have hsep : layout.Separated := ⟨htrait, by omega⟩
      obtain ⟨-, heffect⟩ := h.separated hA hsep
      exact ⟨heffect ▸ layout.proseParagraphs_ne_nil, fun _ => hsep⟩
  · rw [not_or] at htrait
    obtain ⟨hvalues, heffect⟩ := h.glued_trait hA htrait.1 (by omega)
    exact ⟨heffect, fun hall => absurd hvalues (hall _)⟩

end ClauseLayout

/-! ## The candidate of the action -/

/-- A value with a visible symbol that is no comma has an item. -/
theorem splitList_ne_nil {value : Str} {c : Char} (hc : c ∈ value) (hcomma : c ≠ ',')
    (hspace : isWhitespace c = false) : splitList value ≠ [] := by
  obtain ⟨piece, hpiece, hmem⟩ := exists_mem_splitOnP (p := (· == ',')) hc (by simpa using hcomma)
  have hne : trim piece ≠ [] := fun hnil =>
    absurd (trim_eq_nil_iff.mp hnil c hmem) (by simp [hspace])
  exact List.ne_nil_of_mem (List.mem_filter.mpr ⟨List.mem_map_of_mem hpiece, by simpa using hne⟩)

/-- The text of a clause ends with its full stop. -/
theorem BookClause.WellFormed.stop_mem_text {clause : BookClause} (h : clause.WellFormed) :
    '.' ∈ clause.text := by
  obtain ⟨pre, post, heq, hpre, hpost⟩ := exists_eq_append_trim clause.body
  have hmem : '.' ∈ clause.body := List.mem_of_getLast? h.stop
  have hspace : isWhitespace '.' = false := by decide
  rw [heq, List.mem_append, List.mem_append] at hmem
  rcases hmem with (hmem | hmem) | hmem
  · exact absurd (hpre '.' hmem) (by simp [hspace])
  · exact hmem
  · exact absurd (hpost '.' hmem) (by simp [hspace])

variable (U) in
/-- What is parsed from the blocks of the given actions, joined as on a page. -/
def candidatesOf (entries : List RawEntry) : List Candidate :=
  (parseCandidates U (fun _ => 0) (blockJoint.intercalate (entries.map (renderBlock U)))).map
    Candidate.anonymous

/-- The candidates of a page, around those of one of its actions. -/
theorem anonymous_parseCandidates_convertPage (fresh : ℕ → Uuid) {text : Str}
    {before after : List RawEntry} {entry : RawEntry}
    (hpage : splitEntries U text = before ++ entry :: after) :
    (parseCandidates U fresh (convertPage U text)).map Candidate.anonymous =
      candidatesOf U before ++ ((sourceBlocks (renderBlock U entry)).map (parseBlock U 0) ++
        candidatesOf U after) := by
  simp only [candidatesOf, anonymous_parseCandidates, convertPage, sourceBlocks_joined, hpage,
    List.map_append, List.map_cons, List.flatMap_append, List.flatMap_cons]

/-- The fields of a rendered action are what was read in the roles of its paragraphs. -/
theorem RawEntry.parts_of_roles (entry : RawEntry) {roles : List (Str × ParagraphRole)}
    (hroles : paragraphRoles U (groupParagraphs entry.bodyLines) = roles) :
    (entry.parts U).trigger = (clauseValues .trigger roles).getLast? ∧
      (entry.parts U).requirements = (clauseValues .requirements roles).getLast? ∧
      (entry.parts U).effectParts = effectTexts roles := by
  have hread := readParagraphs_eq (U := U) (groupParagraphs entry.bodyLines)
  rw [hroles] at hread
  refine ⟨?_, ?_, ?_⟩
  · exact congrArg BlockParts.trigger hread
  · exact congrArg BlockParts.requirements hread
  · exact congrArg BlockParts.effectParts hread

section Entry

variable {layout : ClauseLayout U} {entry : RawEntry}

/-- Of separated clauses the rendered action has both values, and the prose for the effect. -/
theorem ClauseLayout.Solid.parts_of_separated (h : layout.Solid) (hA : U.FollowsAscii)
    (hsep : layout.Separated) (hbody : entry.bodyLines = layout.bodyLines) :
    (entry.parts U).trigger = some (layout.clause .trigger).text ∧
      (entry.parts U).requirements = some (layout.clause .requirements).text ∧
      [' '].intercalate (entry.parts U).effectParts = layout.proseText := by
  obtain ⟨hvalues, heffectTexts⟩ := h.separated hA hsep
  obtain ⟨htrigger, hrequirements, heffect⟩ :=
    entry.parts_of_roles (congrArg (fun ls => paragraphRoles U (groupParagraphs ls)) hbody)
  refine ⟨?_, ?_, ?_⟩
  · rw [htrigger, hvalues]
    rfl
  · rw [hrequirements, hvalues]
    rfl
  · rw [heffect, heffectTexts]
    apply intercalate_groupParagraphs

/-- Of separated clauses the rendered action has a separator only if its name or a line has one. -/
theorem ClauseLayout.Solid.hasSeparator_iff (h : layout.Solid) (hU : U.KeepsSpacing)
    (hA : U.FollowsAscii) (hsep : layout.Separated) (hbody : entry.bodyLines = layout.bodyLines)
    (hwell : entry.WellFormed) :
    HasSeparator (renderBlock U entry) ↔
      HasSeparator entry.name ∨ ∃ line ∈ layout.bodyLines, HasSeparator line := by
  have hvalues : ∀ label,
      (clauseValues label (paragraphRoles U (groupParagraphs layout.bodyLines))).length ≤ 1 := by
    intro label
    rw [(h.separated hA hsep).1]
    rfl
  rw [hasSeparator_renderBlock_iff hU hA.keepsHyphens hwell, RawEntry.RendersSeparator, hbody,
    rendersSeparator_iff_of_values hvalues, hasSeparator_groupParagraphs_iff]

/-- A rendered action with both values of the layout is one of separated clauses. -/
theorem ClauseLayout.Solid.separated_of_parts (h : layout.Solid) (hA : U.FollowsAscii)
    (hbody : entry.bodyLines = layout.bodyLines)
    (htrigger : (entry.parts U).trigger = some (layout.clause .trigger).text)
    (hrequirements : ((entry.parts U).requirements.map splitList).getD [] =
      splitList (layout.clause .requirements).text) :
    layout.Separated := by
  obtain ⟨htriggerEq, hrequirementsEq, -⟩ :=
    entry.parts_of_roles (congrArg (fun ls => paragraphRoles U (groupParagraphs ls)) hbody)
  apply (h.separated_of_values hA).2
  intro label hnone
  cases label with
  | trigger =>
    rw [htriggerEq, hnone] at htrigger
    exact absurd htrigger (by simp)
  | requirements =>
    rw [hrequirementsEq, hnone] at hrequirements
    have hstop := (layout.clause_wellFormed .requirements).stop_mem_text
    exact splitList_ne_nil hstop (by decide) (by decide) hrequirements.symm

/-- The effect of a rendered action is not empty, wherever its clauses stand. -/
theorem ClauseLayout.Solid.effectParts_ne_nil (h : layout.Solid) (hA : U.FollowsAscii)
    (hbody : entry.bodyLines = layout.bodyLines) : (entry.parts U).effectParts ≠ [] := by
  obtain ⟨-, -, heffect⟩ :=
    entry.parts_of_roles (congrArg (fun ls => paragraphRoles U (groupParagraphs ls)) hbody)
  rw [heffect]
  exact (h.separated_of_values hA).1

end Entry

/-- Both clauses of an action are recognised, and the effect is what remains, exactly when a blank
line stands in front of each clause, unless it opens the text, and nothing cuts the block. -/
theorem clauses_parsed_iff (hU : U.KeepsSpacing) (hA : U.FollowsAscii) (fresh : ℕ → Uuid)
    (layout : ClauseLayout U) {text name ruleTypeLabel : Str} {before after : List RawEntry}
    (hpage : splitEntries U text = before ++ ⟨name, ruleTypeLabel, layout.bodyLines⟩ :: after) :
    (∃ candidate, (parseCandidates U fresh (convertPage U text)).map Candidate.anonymous =
        candidatesOf U before ++ candidate :: candidatesOf U after ∧
      candidate.trigger = some (layout.clause .trigger).text ∧
      candidate.requirements = splitList (layout.clause .requirements).text ∧
      candidate.effect = some layout.proseText) ↔
    layout.Separated ∧ ¬ HasSeparator name ∧ ∀ line ∈ layout.bodyLines, ¬ HasSeparator line := by
  set entry : RawEntry := ⟨name, ruleTypeLabel, layout.bodyLines⟩ with hentry
  have hmem : entry ∈ splitEntries U text := by simp [hpage]
  have hwell := wellFormed_of_mem_splitEntries hU text entry hmem
  obtain ⟨ruleType, -, hparts⟩ :=
    (onLines_of_mem_splitEntries hU text entry hmem).wellFormed_parts hU hA
  have hsolid : layout.Solid := hwell.bodyLines
  have hdash : '-' ∉ (entry.parts U).typeLine := (ruleTypeLabel_spec hwell.ruleTypeLabel).2
  have heffect : (entry.parts U).effectParts ≠ [] := hsolid.effectParts_ne_nil hA rfl
  rw [anonymous_parseCandidates_convertPage fresh hpage]
  constructor
  · rintro ⟨candidate, hlist, htrigger, hrequirements, hcandidateEffect⟩
    -- the candidates around this one are those of the other actions, so it is all of its own action
    rw [List.append_cancel_left_eq, ← List.singleton_append, List.append_cancel_right_eq,
      List.map_eq_singleton_iff, ← RawEntry.block_parts] at hlist
    obtain ⟨piece, hpiece, rfl⟩ := hlist
    obtain ⟨htriggerEq, hrequirementsEq, effect, heffectEq, hwhole⟩ :=
      hparts.of_sourceBlocks_eq hA hdash heffect hpiece 0
    have hsep : layout.Separated := hsolid.separated_of_parts hA rfl
      (htriggerEq.symm.trans htrigger) (hrequirementsEq.symm.trans hrequirements)
    rw [(hsolid.parts_of_separated hA hsep rfl).2.2, RawEntry.block_parts,
      hsolid.hasSeparator_iff hU hA hsep rfl hwell, not_or] at hwhole
    rw [heffectEq, Option.some.injEq, hwhole] at hcandidateEffect
    exact ⟨hsep, hcandidateEffect.1, fun line hline hmem => hcandidateEffect.2 ⟨line, hline, hmem⟩⟩
  · rintro ⟨hsep, hname, hlines⟩
    obtain ⟨htrigger, hrequirements, hprose⟩ := @hsolid.parts_of_separated _ _ entry hA hsep rfl
    have hclean : ¬ HasSeparator (renderBlock U entry) := by
      rw [hsolid.hasSeparator_iff hU hA hsep rfl hwell, not_or]
      refine ⟨hname, ?_⟩
      rintro ⟨line, hline, hmem⟩
      exact hlines line hline hmem
    refine ⟨(entry.parts U).candidate ruleType 0, ?_, htrigger, ?_, ?_⟩
    · rw [sourceBlocks_eq_singleton (isSolid_renderBlock hU hwell) hclean, List.map_singleton,
        ← RawEntry.block_parts, hparts.parseBlock_eq hA, List.singleton_append]
    · rw [RenderedParts.candidate, hrequirements]
      rfl
    · rw [RenderedParts.candidate, if_neg heffect, hprose]

/-- A reaction with a trigger and requirements, with so many blank lines between the two clauses. -/
def stepLayout (gap : ℕ) : ClauseLayout .ascii where
  lead := 0
  traitLines := []
  traitGap := 0
  first := { label := .trigger, first := "You fall.".toList, more := [] }
  clauseGap := gap
  second := { label := .requirements, first := "You stand.".toList, more := [] }
  proseGap := 0
  proseLine := "Go on.".toList
  prose := []
  traitLines_spec := nofun
  first_wellFormed := ⟨nofun, by decide, by decide⟩
  second_wellFormed := ⟨nofun, by decide, by decide⟩
  label_ne := by decide
  proseLine_ne := by decide
  prose_plain := by
    have hgroup : groupParagraphs ["Go on.".toList] = ["Go on.".toList] := by decide
    intro p hp label
    rw [hgroup, List.mem_singleton] at hp
    subst hp
    cases label <;> decide

/-- The page with this reaction. -/
def stepPage (gap : ℕ) : Str :=
  "STEP [reaction]\nTrigger You fall.\n".toList ++ (List.replicate gap '\n' ++
    "Requirements You stand.\nGo on.".toList)

/-- Without a blank line between them, the second clause becomes a part of the effect. -/
theorem clauses_not_parsed :
    ¬ ∀ (fresh : ℕ → Uuid) (layout : ClauseLayout .ascii) (text name ruleTypeLabel : Str)
      (before after : List RawEntry),
      splitEntries .ascii text = before ++ ⟨name, ruleTypeLabel, layout.bodyLines⟩ :: after →
      ∃ candidate,
        (parseCandidates .ascii fresh (convertPage .ascii text)).map Candidate.anonymous =
          candidatesOf .ascii before ++ candidate :: candidatesOf .ascii after ∧
        candidate.trigger = some (layout.clause .trigger).text ∧
        candidate.requirements = splitList (layout.clause .requirements).text ∧
        candidate.effect = some layout.proseText := by
  intro h
  obtain ⟨candidate, hlist, -, hrequirements, -⟩ := h (fun _ => 0) (stepLayout 0) (stepPage 0)
    "Step".toList "Reaction".toList [] [] (by decide +kernel)
  have hread : ((parseCandidates .ascii (fun _ => 0) (convertPage .ascii (stepPage 0))).map
      Candidate.anonymous).map Candidate.requirements = [[]] := by decide +kernel
  rw [hlist] at hread
  have hnone : candidate.requirements = [] := (List.cons.inj hread).1
  rw [hrequirements] at hnone
  exact absurd hnone (by decide +kernel)

/-- With the ASCII tables, a blank line between the clauses is what makes the difference. -/
theorem clauses_parsed_examples :
    (∃ candidate, (parseCandidates .ascii (fun _ => 0) (convertPage .ascii (stepPage 1))).map
          Candidate.anonymous = candidatesOf .ascii [] ++ candidate :: candidatesOf .ascii [] ∧
        candidate.trigger = some ((stepLayout 1).clause .trigger).text ∧
        candidate.requirements = splitList ((stepLayout 1).clause .requirements).text ∧
        candidate.effect = some (stepLayout 1).proseText) ∧
      ¬ ∃ candidate, (parseCandidates .ascii (fun _ => 0) (convertPage .ascii (stepPage 0))).map
          Candidate.anonymous = candidatesOf .ascii [] ++ candidate :: candidatesOf .ascii [] ∧
        candidate.trigger = some ((stepLayout 0).clause .trigger).text ∧
        candidate.requirements = splitList ((stepLayout 0).clause .requirements).text ∧
        candidate.effect = some (stepLayout 0).proseText := by
  have hclean : ∀ line ∈ "Step".toList :: (stepLayout 1).bodyLines, '-' ∉ line :=
    List.all_iff_forall_prop.mp (by decide)
  have hdash : ∀ line ∈ "Step".toList :: (stepLayout 1).bodyLines, ¬ HasSeparator line :=
    fun line hline hsep => hclean line hline (hsep.subset (by decide))
  have hpage : splitEntries .ascii (stepPage 1) =
      [] ++ [⟨"Step".toList, "Reaction".toList, (stepLayout 1).bodyLines⟩] := by decide +kernel
  have hglued : splitEntries .ascii (stepPage 0) =
      [] ++ [⟨"Step".toList, "Reaction".toList, (stepLayout 0).bodyLines⟩] := by decide +kernel
  constructor
  · exact (clauses_parsed_iff CaseTables.ascii_keepsSpacing CaseTables.ascii_followsAscii
      (fun _ => 0) (stepLayout 1) hpage).mpr ⟨⟨Or.inl rfl, by decide⟩, hdash _ List.mem_cons_self,
        fun line hline => hdash line (List.mem_cons_of_mem _ hline)⟩
  · intro hparsed
    obtain ⟨⟨-, hgap⟩, -⟩ := (clauses_parsed_iff CaseTables.ascii_keepsSpacing
      CaseTables.ascii_followsAscii (fun _ => 0) (stepLayout 0) hglued).mp hparsed
    exact absurd hgap (by decide)

end Pf2eParser
