import Pf2eParser.BookAdapter.HeadingBlocks
import Pf2eParser.BookAdapter.Separator
import Mathlib.Tactic.Tauto

/-!
# Converted pages and the block parser

A converted page is meant to be parsed entry for entry.  That fails exactly when some rendered block
contains the separator `---` of the block parser, which cuts the block in two.
`convert_reparse_iff` says when that is so in terms of the entries of the page.

For feats and conditions everything on the page is rendered.  For actions a `Requirements` or
`Trigger` clause is dropped when a later clause of the same label takes its place; `ParagraphRole`
says what becomes of each paragraph, and `HasSeparator` is followed through the paragraph loop by
`marked_foldl_iff`, from which `hasSeparator_texts_iff` reads off the texts that are rendered.
-/

namespace Pf2eParser

open Text

/-! ## The roles of paragraphs -/

/-- The labels that the book sets in the text of an action. -/
inductive BookLabel where
  | requirements
  | trigger
  deriving DecidableEq

/-- The word of a label. -/
def BookLabel.word : BookLabel → Str
  | requirements => requirementsWord
  | trigger => triggerWord

/-- What a paragraph of an action is read as. -/
inductive ParagraphRole where
  | traitWord
  | clause (label : BookLabel) (value : Str) (leftover : Option Str)
  | prose

/-- The role of the paragraph at the given index. -/
def paragraphRole (U : CaseTables) (index : ℕ) (paragraph : Str) : ParagraphRole :=
  if index = 0 ∧ isShouty U paragraph ∧ (splitWhitespace paragraph).length ≤ 2 then .traitWord
  else match extractBookLabel paragraph BookLabel.requirements.word with
    | some (value, leftover) => .clause .requirements value leftover
    | none => match extractBookLabel paragraph BookLabel.trigger.word with
      | some (value, leftover) => .clause .trigger value leftover
      | none => .prose

namespace BlockParts

/-- The value of a label. -/
def clauseValue (parts : BlockParts) : BookLabel → Option Str
  | .requirements => parts.requirements
  | .trigger => parts.trigger

/-- Everything that is rendered of the paragraphs. -/
def texts (parts : BlockParts) : List Str :=
  parts.traits ++ parts.trigger.toList ++ parts.requirements.toList ++ parts.effectParts

/-- A new clause takes the place of an older one of the same label. -/
def setClause (parts : BlockParts) : BookLabel → Str → BlockParts
  | .requirements, value => { parts with requirements := some value }
  | .trigger, value => { parts with trigger := some value }

end BlockParts

variable {U : CaseTables}

/-- One round of the paragraph loop, by the role of the paragraph. -/
theorem paragraph_eq_role (parts : BlockParts) (index : ℕ) (paragraph : Str) :
    parts.paragraph U index paragraph =
      match paragraphRole U index paragraph with
      | .traitWord => { parts with traits := parts.traits ++ [U.toLowercase paragraph] }
      | .clause label value leftover =>
        { parts.setClause label value with
          effectParts := parts.effectParts ++ leftover.toList }
      | .prose => { parts with effectParts := parts.effectParts ++ [paragraph] } := by
  simp only [BlockParts.paragraph, paragraphRole, BookLabel.word]
  generalize extractBookLabel paragraph requirementsWord = requirements
  generalize extractBookLabel paragraph triggerWord = trigger
  split
  · rfl
  · cases requirements with
    | some clause => rfl
    | none => cases trigger with
      | some clause => rfl
      | none => rfl

/-- Behind the first paragraph, the role of a paragraph does not depend on its index. -/
theorem paragraphRole_succ (index : ℕ) (paragraph : Str) :
    paragraphRole U (index + 1) paragraph = paragraphRole U 1 paragraph := by
  simp [paragraphRole]

/-- Reading a clause: the paragraph is the label, a space, and a text that is cut in two. -/
theorem extractBookLabel_eq_some {paragraph label value : Str} {leftover : Option Str}
    (h : extractBookLabel paragraph label = some (value, leftover)) :
    ∃ clause rest, (paragraph = label ++ ' ' :: clause ∧ rest = [] ∨
        paragraph = label ++ ' ' :: (clause ++ ' ' :: rest) ∧ clause.getLast? = some '.') ∧
      value = trim clause ∧ leftover = if (trim rest).isEmpty then none else some (trim rest) := by
  obtain ⟨text, htext, hcut⟩ := Option.map_eq_some_iff.mp h
  obtain ⟨front, hfront, hspace⟩ := Option.bind_eq_some_iff.mp htext
  rw [stripPrefix_eq_some_iff] at hfront hspace
  subst hspace
  subst hfront
  cases hfind : find ". ".toList text with
  | none =>
    simp only [hfind, Prod.mk.injEq] at hcut
    refine ⟨text, [], Or.inl ⟨rfl, rfl⟩, hcut.1.symm, ?_⟩
    rw [← hcut.2, trim_eq_nil_iff.mpr (by simp)]
    rfl
  | some index =>
    obtain ⟨⟨a, b⟩, hsplit, rfl⟩ := Option.map_eq_some_iff.mp hfind
    have heq : text = a ++ '.' :: ' ' :: b := (splitOnce_append hsplit).symm.trans (by simp)
    have htake : text.take (a.length + 1) = a ++ ['.'] := by simp [heq, List.take_append]
    have hdrop : text.drop (a.length + 1) = ' ' :: b := by simp [heq, List.drop_append]
    have htrim : trim (' ' :: b) = trim b := by
      rw [trim, trim, List.dropWhile_cons_of_pos (by decide)]
    simp only [hfind, htake, hdrop, htrim, Prod.mk.injEq] at hcut
    exact ⟨a ++ ['.'], b, Or.inr ⟨by simp [heq], by simp⟩, hcut.1.symm, hcut.2.symm⟩

/-- The words of the labels contain no hyphen. -/
theorem notMem_word (label : BookLabel) : '-' ∉ label.word := by
  cases label <;> decide

/-- A clause is read with the word of its label. -/
theorem extractBookLabel_of_role {index : ℕ} {paragraph value : Str} {label : BookLabel}
    {leftover : Option Str} (h : paragraphRole U index paragraph = .clause label value leftover) :
    extractBookLabel paragraph label.word = some (value, leftover) := by
  unfold paragraphRole at h
  split at h
  · simp at h
  · cases hr : extractBookLabel paragraph BookLabel.requirements.word with
    | some clause =>
      simp only [hr, ParagraphRole.clause.injEq] at h
      obtain ⟨rfl, rfl, rfl⟩ := h
      exact hr
    | none =>
      cases ht : extractBookLabel paragraph BookLabel.trigger.word with
      | some clause =>
        simp only [hr, ht, ParagraphRole.clause.injEq] at h
        obtain ⟨rfl, rfl, rfl⟩ := h
        exact ht
      | none => simp [hr, ht] at h

/-- A clause with the separator has it in its value or in what follows the value. -/
theorem hasSeparator_clause_iff {index : ℕ} {paragraph value : Str} {label : BookLabel}
    {leftover : Option Str} (h : paragraphRole U index paragraph = .clause label value leftover) :
    HasSeparator paragraph ↔ HasSeparator value ∨ ∃ rest ∈ leftover, HasSeparator rest := by
  have hlabel := notMem_word label
  obtain ⟨clause, rest, hparagraph, rfl, rfl⟩ :=
    extractBookLabel_eq_some (extractBookLabel_of_role h)
  have hrest : (∃ text ∈ (if (trim rest).isEmpty then none else some (trim rest) : Option Str),
      HasSeparator text) ↔ HasSeparator rest := by
    rw [← hasSeparator_trim_iff rest]
    split
    case isTrue hempty => simp [List.isEmpty_iff.mp hempty, not_hasSeparator_nil]
    case isFalse => simp
  rw [hrest, hasSeparator_trim_iff]
  rcases hparagraph with ⟨rfl, rfl⟩ | ⟨rfl, -⟩
  · rw [hasSeparator_append_iff hlabel, hasSeparator_cons_iff (by decide)]
    simp [not_hasSeparator_nil]
  · rw [hasSeparator_append_iff hlabel, hasSeparator_cons_iff (by decide),
      hasSeparator_append_cons_iff (by decide)]

/-- The parts of a clause in a solid paragraph are solid. -/
theorem isSolid_clause {index : ℕ} {paragraph value : Str} {label : BookLabel}
    {leftover : Option Str} (h : paragraphRole U index paragraph = .clause label value leftover)
    (hp : IsSolid paragraph) : IsSolid value ∧ ∀ rest ∈ leftover, IsSolid rest := by
  obtain ⟨clause, rest, hparagraph, rfl, rfl⟩ :=
    extractBookLabel_eq_some (extractBookLabel_of_role h)
  constructor
  · refine isSolid_trim fun hnil => ?_
    have hws := trim_eq_nil_iff.mp hnil
    rcases hparagraph with ⟨rfl, rfl⟩ | ⟨-, hdot⟩
    · have hlast : (label.word ++ ' ' :: clause).getLast? = (' ' :: clause).getLast? :=
        List.getLast?_append_of_ne_nil _ (by simp)
      have hmem := List.mem_of_mem_getLast? (List.getLast_mem_getLast? (l := ' ' :: clause)
        (by simp))
      have hvisible := hp.last _ (hlast ▸ List.getLast_mem_getLast? (l := ' ' :: clause) (by simp))
      have hspace : ∀ c ∈ ' ' :: clause, isWhitespace c = true := by
        intro c hc
        rcases List.mem_cons.mp hc with rfl | hc
        · decide
        · exact hws c hc
      rw [hspace _ hmem] at hvisible
      simp at hvisible
    · have hdotws := hws '.' (List.mem_of_mem_getLast? hdot)
      exact absurd hdotws (by decide)
  · intro text htext
    split at htext
    · simp at htext
    case isFalse hne =>
      rw [Option.mem_some_iff] at htext
      subst htext
      exact isSolid_trim (by simpa using hne)

/-! ## The paragraph loop -/

/-- A paragraph among the given ones opens with the label. -/
def HasClause (U : CaseTables) (label : BookLabel) (paragraphs : List Str) : Prop :=
  ∃ paragraph ∈ paragraphs, ∃ value leftover,
    paragraphRole U 1 paragraph = .clause label value leftover

/-- The paragraph is a clause that a later one replaces, and what follows the clause in the
paragraph is free of the separator. -/
def Replaced (U : CaseTables) (role : ParagraphRole) (later : List Str) : Prop :=
  ∃ label value leftover, role = .clause label value leftover ∧
    (∀ rest ∈ leftover, ¬ HasSeparator rest) ∧ HasClause U label later

/-- Some of the texts read so far has the separator and will be rendered. -/
def BlockParts.Marked (U : CaseTables) (parts : BlockParts) (later : List Str) : Prop :=
  (∃ text ∈ parts.traits ++ parts.effectParts, HasSeparator text) ∨
    ∃ label, ∃ value ∈ parts.clauseValue label, HasSeparator value ∧ ¬ HasClause U label later

/-- The value of a label after one clause was set. -/
theorem clauseValue_setClause (parts : BlockParts) (label label' : BookLabel) (value : Str) :
    (parts.setClause label value).clauseValue label' =
      if label' = label then some value else parts.clauseValue label' := by
  cases label <;> cases label' <;> rfl

/-- Setting a clause leaves the traits and the effect alone. -/
theorem traits_setClause (parts : BlockParts) (label : BookLabel) (value : Str) :
    (parts.setClause label value).traits = parts.traits ∧
      (parts.setClause label value).effectParts = parts.effectParts := by
  cases label <;> exact ⟨rfl, rfl⟩

/-- A paragraph among the others opens with a label if the first one does or one behind it does. -/
theorem hasClause_cons_iff {label : BookLabel} {paragraph : Str} {paragraphs : List Str} :
    HasClause U label (paragraph :: paragraphs) ↔
      (∃ value leftover, paragraphRole U 1 paragraph = .clause label value leftover) ∨
        HasClause U label paragraphs := by
  simp [HasClause]

/-- A clause is replaced by a later one of its label if nothing marked follows it. -/
theorem replaced_clause_iff {label : BookLabel} {value : Str} {leftover : Option Str}
    {later : List Str} : Replaced U (.clause label value leftover) later ↔
      (¬ ∃ rest ∈ leftover, HasSeparator rest) ∧ HasClause U label later := by
  simp only [Replaced, ParagraphRole.clause.injEq]
  constructor
  · rintro ⟨_, _, _, ⟨rfl, rfl, rfl⟩, hrest, hlater⟩
    exact ⟨by simpa using hrest, hlater⟩
  · rintro ⟨hrest, hlater⟩
    exact ⟨label, value, leftover, ⟨rfl, rfl, rfl⟩, by simpa using hrest, hlater⟩

/-- A marked value after a clause was set is the one of the clause, or an old one of the other
label. -/
theorem marked_setClause_iff (parts : BlockParts) (label : BookLabel) (value : Str)
    (leftover : Option Str) (later : List Str) :
    (∃ label', ∃ v ∈ (parts.setClause label value).clauseValue label',
        HasSeparator v ∧ ¬ HasClause U label' later) ↔
      (HasSeparator value ∧ ¬ HasClause U label later) ∨
        ∃ label', ∃ v ∈ parts.clauseValue label', HasSeparator v ∧ ¬ HasClause U label' later ∧
          ∀ value' leftover', ParagraphRole.clause label value leftover ≠
            .clause label' value' leftover' := by
  constructor
  · rintro ⟨label', v, hv, hsep, hlater⟩
    rw [clauseValue_setClause] at hv
    split at hv
    case isTrue heq =>
      subst heq
      rw [Option.mem_some_iff] at hv
      exact Or.inl (hv ▸ ⟨hsep, hlater⟩)
    case isFalse hne =>
      refine Or.inr ⟨label', v, hv, hsep, hlater, fun value' leftover' heq => hne ?_⟩
      exact (ParagraphRole.clause.inj heq).1.symm
  · rintro (⟨hsep, hlater⟩ | ⟨label', v, hv, hsep, hlater, hne⟩)
    · exact ⟨label, value, by simp [clauseValue_setClause], hsep, hlater⟩
    · refine ⟨label', v, ?_, hsep, hlater⟩
      rw [clauseValue_setClause, if_neg]
      · exact hv
      · rintro rfl
        exact hne value leftover rfl

/-- A clause and what follows it, against the texts read before it. -/
private theorem marked_clause_logic (traits effect rest old clause later : Prop) :
    ((traits ∨ effect ∨ rest) ∨ clause ∧ ¬ later ∨ old) ↔
      (clause ∧ ¬ (¬ rest ∧ later) ∨ rest ∧ ¬ (¬ rest ∧ later)) ∨ (traits ∨ effect) ∨ old := by
  tauto

/-- One round of the paragraph loop: what is marked afterwards was marked before and is not
replaced, or it is the paragraph. -/
theorem marked_paragraph_iff (hU : U.KeepsSpacing) (hH : U.KeepsHyphens) (parts : BlockParts)
    (index : ℕ) (paragraph : Str) (later : List Str) :
    (parts.paragraph U index paragraph).Marked U later ↔
      (HasSeparator paragraph ∧ ¬ Replaced U (paragraphRole U index paragraph) later) ∨
      (∃ text ∈ parts.traits ++ parts.effectParts, HasSeparator text) ∨
      ∃ label, ∃ value ∈ parts.clauseValue label, HasSeparator value ∧ ¬ HasClause U label later ∧
        ∀ value' leftover, paragraphRole U index paragraph ≠ .clause label value' leftover := by
  have hkeep : ∀ (parts' : BlockParts) (effect : List Str) (label : BookLabel),
      ({ parts' with effectParts := effect }).clauseValue label = parts'.clauseValue label := by
    intro parts' effect label
    cases label <;> rfl
  rw [paragraph_eq_role]
  cases hrole : paragraphRole U index paragraph with
  | traitWord =>
    have hvalue : ∀ label, ({ parts with
        traits := parts.traits ++ [U.toLowercase paragraph] }).clauseValue label =
          parts.clauseValue label := by
      intro label
      cases label <;> rfl
    have hlower := hasSeparator_toLowercase_iff hU hH paragraph
    simp only [BlockParts.Marked, hvalue, Replaced]
    simp only [List.mem_append, List.mem_singleton, or_and_right, exists_or, exists_eq_left, hlower]
    simp only [reduceCtorEq, false_and, exists_false, not_false_iff, and_true, ne_eq, forall_const]
    simp only [or_assoc, or_left_comm]
  | prose =>
    simp only [BlockParts.Marked, hkeep, Replaced]
    simp only [List.mem_append, List.mem_singleton, or_and_right, exists_or, exists_eq_left]
    simp only [reduceCtorEq, false_and, exists_false, not_false_iff, and_true, ne_eq, forall_const]
    simp only [or_assoc, or_left_comm]
  | clause label value leftover =>
    have hclause := hasSeparator_clause_iff hrole
    have hset := marked_setClause_iff parts label value leftover later (U := U)
    simp only [BlockParts.Marked, hkeep, hset, replaced_clause_iff]
    simp only [(traits_setClause parts label value).1, List.mem_append, Option.mem_toList,
      or_and_right, exists_or, hclause]
    exact marked_clause_logic _ _ _ _ _ _

/-- A place in a nonempty list is its first place or a place behind it. -/
theorem exists_append_cons_iff {α : Type} {a : α} {l : List α} {Q : List α → α → List α → Prop} :
    (∃ before b after, a :: l = before ++ b :: after ∧ Q before b after) ↔
      Q [] a l ∨ ∃ before b after, l = before ++ b :: after ∧ Q (a :: before) b after := by
  constructor
  · rintro ⟨_ | ⟨c, before⟩, b, after, heq, hQ⟩
    · obtain ⟨rfl, rfl⟩ := List.cons.inj heq
      exact Or.inl hQ
    · obtain ⟨rfl, rfl⟩ := List.cons.inj heq
      exact Or.inr ⟨before, b, after, rfl, hQ⟩
  · rintro (hQ | ⟨before, b, after, rfl, hQ⟩)
    · exact ⟨[], a, l, rfl, hQ⟩
    · exact ⟨a :: before, b, after, rfl, hQ⟩

/-- The texts that the paragraph loop leaves to be rendered have the separator exactly when it is in
a paragraph that is not replaced, or was there before and is not replaced. -/
theorem marked_foldl_iff (hU : U.KeepsSpacing) (hH : U.KeepsHyphens) (parts : BlockParts)
    (paragraphs : List Str) :
    (paragraphs.foldl (fun parts p => parts.paragraph U 1 p) parts).Marked U [] ↔
      parts.Marked U paragraphs ∨ ∃ before p after, paragraphs = before ++ p :: after ∧
        HasSeparator p ∧ ¬ Replaced U (paragraphRole U 1 p) after := by
  induction paragraphs generalizing parts with
  | nil => simp
  | cons p paragraphs ih =>
    rw [List.foldl_cons, ih, marked_paragraph_iff hU hH, exists_append_cons_iff, BlockParts.Marked]
    have hpending : ∀ label, ¬ HasClause U label (p :: paragraphs) ↔
        ¬ HasClause U label paragraphs ∧
          ∀ value leftover, paragraphRole U 1 p ≠ .clause label value leftover := by
      intro label
      rw [hasClause_cons_iff, not_or, and_comm]
      simp
    simp only [hpending]
    exact or_assoc.trans or_left_comm

/-- The paragraph loop over the paragraphs behind the first one. -/
theorem readParagraphs_cons (p : Str) (paragraphs : List Str) :
    readParagraphs U (p :: paragraphs) =
      paragraphs.foldl (fun parts q => parts.paragraph U 1 q)
        (({} : BlockParts).paragraph U 0 p) := by
  have hmain : ∀ (parts : BlockParts) (k : ℕ),
      (paragraphs.zipIdx (k + 1)).foldl
          (fun parts entry => parts.paragraph U entry.2 entry.1) parts =
        paragraphs.foldl (fun parts q => parts.paragraph U 1 q) parts := by
    induction paragraphs with
    | nil => exact fun _ _ => rfl
    | cons q paragraphs ih =>
      intro parts k
      rw [List.zipIdx_cons, List.foldl_cons, List.foldl_cons, ih]
      simp only [paragraph_eq_role, paragraphRole_succ]
  exact hmain _ 0

/-- A paragraph that is rendered has the separator. -/
def RendersSeparator (U : CaseTables) (paragraphs : List Str) : Prop :=
  ∃ before p after, paragraphs = before ++ p :: after ∧ HasSeparator p ∧
    ¬ Replaced U (paragraphRole U before.length p) after

/-- The texts of an action have the separator exactly when a rendered paragraph has it. -/
theorem hasSeparator_texts_iff (hU : U.KeepsSpacing) (hH : U.KeepsHyphens) (paragraphs : List Str) :
    (∃ text ∈ (readParagraphs U paragraphs).texts, HasSeparator text) ↔
      RendersSeparator U paragraphs := by
  have hmarked : ∀ parts : BlockParts,
      (∃ text ∈ parts.texts, HasSeparator text) ↔ parts.Marked U [] := by
    intro parts
    have hnone : ∀ label, ¬ HasClause U label [] := by simp [HasClause]
    have hlabels : (∃ label, ∃ value ∈ parts.clauseValue label, HasSeparator value) ↔
        (∃ value ∈ parts.trigger, HasSeparator value) ∨
          ∃ value ∈ parts.requirements, HasSeparator value := by
      constructor
      · rintro ⟨_ | _, h⟩
        · exact Or.inr h
        · exact Or.inl h
      · rintro (h | h)
        · exact ⟨.trigger, h⟩
        · exact ⟨.requirements, h⟩
    simp only [BlockParts.Marked, BlockParts.texts, hnone, not_false_iff, and_true, hlabels]
    simp only [List.mem_append, Option.mem_toList, or_and_right, exists_or, or_assoc, or_left_comm,
      or_comm]
    rfl
  rw [hmarked, RendersSeparator]
  cases paragraphs with
  | nil =>
    have hempty : ¬ ({} : BlockParts).Marked U [] := by
      rintro (⟨text, htext, -⟩ | ⟨_ | _, value, hvalue, -⟩)
      · simp at htext
      · simp [BlockParts.clauseValue] at hvalue
      · simp [BlockParts.clauseValue] at hvalue
    simp [readParagraphs, hempty]
  | cons p paragraphs =>
    have hfirst : ∀ label, ({} : BlockParts).clauseValue label = none := by
      intro label
      cases label <;> rfl
    rw [readParagraphs_cons, marked_foldl_iff hU hH, marked_paragraph_iff hU hH,
      exists_append_cons_iff]
    simp [hfirst, paragraphRole_succ]

/-- A property of the texts that the paragraph loop leaves to be rendered: the paragraphs have it,
and lower-casing a paragraph and cutting out a clause keep it. -/
theorem forall_mem_texts {P : Str → Prop} {paragraphs : List Str} (h : ∀ p ∈ paragraphs, P p)
    (hlower : ∀ p, P p → P (U.toLowercase p))
    (hclause : ∀ index p label value leftover, P p →
      paragraphRole U index p = .clause label value leftover →
        P value ∧ ∀ rest ∈ leftover, P rest) :
    ∀ text ∈ (readParagraphs U paragraphs).texts, P text := by
  have hstep : ∀ (parts : BlockParts) (index : ℕ) (p : Str), P p →
      (∀ text ∈ parts.texts, P text) → ∀ text ∈ (parts.paragraph U index p).texts, P text := by
    intro parts index p hp hparts text htext
    rw [paragraph_eq_role] at htext
    cases hrole : paragraphRole U index p with
    | traitWord =>
      have hlowered := hlower p hp
      simp only [hrole, BlockParts.texts, List.mem_append, List.mem_singleton] at htext hparts
      grind
    | prose =>
      simp only [hrole, BlockParts.texts, List.mem_append, List.mem_singleton] at htext hparts
      grind
    | clause label value leftover =>
      obtain ⟨hvalue, hleftover⟩ := hclause index p label value leftover hp hrole
      cases label <;>
      · simp only [hrole, BlockParts.setClause, BlockParts.texts, List.mem_append,
          Option.mem_toList, Option.some.injEq] at htext hparts
        grind
  have hmain : ∀ (parts : BlockParts) (k : ℕ), (∀ text ∈ parts.texts, P text) →
      ∀ text ∈ ((paragraphs.zipIdx k).foldl
        (fun parts entry => parts.paragraph U entry.2 entry.1) parts).texts, P text := by
    induction paragraphs with
    | nil => exact fun _ _ hparts => hparts
    | cons p paragraphs ih =>
      intro parts k hparts
      exact ih (fun q hq => h q (by simp [hq])) _ _ (hstep parts k p (h p (by simp)) hparts)
  exact hmain {} 0 (by simp [BlockParts.texts])

/-- The texts that the paragraph loop leaves to be rendered are solid. -/
theorem isSolid_of_mem_texts (hU : U.KeepsSpacing) {paragraphs : List Str}
    (h : ∀ p ∈ paragraphs, IsSolid p) :
    ∀ text ∈ (readParagraphs U paragraphs).texts, IsSolid text :=
  forall_mem_texts h (fun _ hp => hU.isSolid_toLowercase hp) fun _ _ _ _ _ hp hrole =>
    isSolid_clause hrole hp

/-! ## The blocks of well-formed entries -/

/-- What the splitter for actions makes sure of. -/
structure RawEntry.WellFormed (entry : RawEntry) : Prop where
  name : IsSolid entry.name
  ruleTypeLabel : entry.ruleTypeLabel ∈ actionCostMarkers.map Prod.snd
  bodyLines : ∀ line ∈ entry.bodyLines, IsTrimmed line

/-- What the splitter for feats makes sure of. -/
structure RawFeatEntry.WellFormed (entry : RawFeatEntry) : Prop where
  name : IsSolid entry.name
  traits : ∀ word ∈ entry.traits, IsSolid word
  bodyLines : ∀ line ∈ entry.bodyLines, IsTrimmed line

/-- What the splitter for conditions makes sure of. -/
structure RawConditionEntry.WellFormed (entry : RawConditionEntry) : Prop where
  name : IsSolid entry.name

/-- The separator is in what is rendered of an action. -/
def RawEntry.RendersSeparator (U : CaseTables) (entry : RawEntry) : Prop :=
  HasSeparator entry.name ∨ Pf2eParser.RendersSeparator U (groupParagraphs entry.bodyLines)

/-- The separator is in what is rendered of a feat. -/
def RawFeatEntry.RendersSeparator (entry : RawFeatEntry) : Prop :=
  HasSeparator entry.name ∨ (∃ word ∈ entry.traits, HasSeparator word) ∨
    ∃ line ∈ entry.bodyLines, HasSeparator line

/-- The separator is in what is rendered of a condition. -/
def RawConditionEntry.RendersSeparator (entry : RawConditionEntry) : Prop :=
  HasSeparator entry.name ∨ ∃ line ∈ entry.bodyLines, HasSeparator line

/-- Without a hyphen on its lines an action has no separator. -/
theorem RawEntry.not_rendersSeparator {entry : RawEntry} (hname : '-' ∉ entry.name)
    (hlines : ∀ line ∈ entry.bodyLines, '-' ∉ line) : ¬ entry.RendersSeparator U := by
  have hfree : ∀ s : Str, '-' ∉ s → ¬ HasSeparator s := fun s hs hsep =>
    hs (hsep.subset (by decide))
  rintro (hsep | ⟨before, p, after, hsplit, hsep, -⟩)
  · exact hfree _ hname hsep
  · have hsome : ∃ p ∈ groupParagraphs entry.bodyLines, HasSeparator p :=
      ⟨p, by simp [hsplit], hsep⟩
    obtain ⟨line, hline, hsep⟩ := (hasSeparator_groupParagraphs_iff _).mp hsome
    exact hfree line (hlines line hline) hsep

/-- A text is solid if its ends are not whitespace. -/
theorem isSolid_of_ends {s : Str} (hne : s ≠ [])
    (hhead : s.head?.all (fun c => !isWhitespace c) = true)
    (hlast : s.getLast?.all (fun c => !isWhitespace c) = true) : IsSolid s := by
  refine ⟨⟨fun c hc => ?_, fun c hc => ?_⟩, hne⟩
  · simpa [Option.mem_def.mp hc] using hhead
  · simpa [Option.mem_def.mp hc] using hlast

/-- The rule types of actions are solid and contain no hyphen. -/
theorem ruleTypeLabel_spec {label : Str} (h : label ∈ actionCostMarkers.map Prod.snd) :
    IsSolid label ∧ '-' ∉ label := by
  have hall : ∀ label ∈ actionCostMarkers.map Prod.snd,
      (label ≠ [] ∧ label.head?.all (fun c => !isWhitespace c) = true ∧
        label.getLast?.all (fun c => !isWhitespace c) = true) ∧ '-' ∉ label :=
    List.all_iff_forall_prop.mp (by decide)
  obtain ⟨⟨hne, hhead, hlast⟩, hhyphen⟩ := hall label h
  exact ⟨isSolid_of_ends hne hhead hlast, hhyphen⟩

/-- Lines joined by line feeds have the separator exactly when one of them has it. -/
theorem hasSeparator_lines_iff (blockLines : List Str) :
    HasSeparator (['\n'].intercalate blockLines) ↔ ∃ line ∈ blockLines, HasSeparator line :=
  hasSeparator_intercalate_iff (by simp) (by decide) blockLines

/-- The block of an action is solid. -/
theorem isSolid_renderBlock (hU : U.KeepsSpacing) {entry : RawEntry} (h : entry.WellFormed) :
    IsSolid (renderBlock U entry) := by
  have htexts := isSolid_of_mem_texts hU (isSolid_of_mem_groupParagraphs h.bodyLines)
  refine isSolid_intercalate _ (by simp [entryBlockLines]) fun line hline => ?_
  simp only [entryBlockLines, List.mem_append, List.mem_cons, List.not_mem_nil, or_false] at hline
  simp only [BlockParts.texts, List.mem_append, Option.mem_toList] at htexts
  rcases hline with ((((rfl | rfl) | hline) | hline) | hline) | hline
  · exact (ruleTypeLabel_spec h.ruleTypeLabel).1
  · exact isSolid_append rfl (by decide) h.name
  · exact isSolid_of_mem_listLine rfl (by decide) (fun item hitem => htexts item (by simp [hitem]))
      line hline
  · exact isSolid_of_mem_valueLine rfl (by decide) (fun text ht => htexts text (by simp_all)) line
      hline
  · exact isSolid_of_mem_valueLine rfl (by decide) (fun text ht => htexts text (by simp_all)) line
      hline
  · exact isSolid_of_mem_listLine rfl (by decide) (fun item hitem => htexts item (by simp [hitem]))
      line hline

/-- The block of an action has the separator exactly when something rendered has it. -/
theorem hasSeparator_renderBlock_iff (hU : U.KeepsSpacing) (hH : U.KeepsHyphens) {entry : RawEntry}
    (h : entry.WellFormed) : HasSeparator (renderBlock U entry) ↔ entry.RendersSeparator U := by
  have hlabel : ¬ HasSeparator entry.ruleTypeLabel := fun hsep =>
    (ruleTypeLabel_spec h.ruleTypeLabel).2 (hsep.subset (by decide))
  rw [renderBlock, hasSeparator_lines_iff, RawEntry.RendersSeparator,
    ← hasSeparator_texts_iff hU hH]
  have hname : HasSeparator ("Name: ".toList ++ entry.name) ↔ HasSeparator entry.name :=
    hasSeparator_append_iff (by decide)
  simp only [entryBlockLines]
  generalize readParagraphs U (groupParagraphs entry.bodyLines) = parts
  have htraits := @hasSeparator_listLine_iff "Traits: " ", " (by decide) (by decide) (by decide)
    parts.traits
  have htrigger := @hasSeparator_valueLine_iff "Trigger: " (by decide) parts.trigger
  have hrequirements := @hasSeparator_valueLine_iff "Requirements: " (by decide) parts.requirements
  have heffect := @hasSeparator_listLine_iff "Effect: " " " (by decide) (by decide) (by decide)
    parts.effectParts
  simp only [BlockParts.texts, List.mem_append, or_and_right, exists_or, List.mem_cons,
    List.not_mem_nil, or_false, exists_eq_left, hlabel, hname, false_or, htraits, htrigger,
    hrequirements, heffect, Option.mem_toList, or_assoc]
  rfl

/-- The block of a feat is solid. -/
theorem isSolid_renderFeatBlock {entry : RawFeatEntry} (h : entry.WellFormed) :
    IsSolid (renderFeatBlock entry) := by
  refine isSolid_intercalate _ (by simp [featBlockLines]) fun line hline => ?_
  simp only [featBlockLines, List.mem_append, List.mem_cons, List.not_mem_nil, or_false] at hline
  rcases hline with ((rfl | rfl) | hline) | hline
  · exact isSolid_of_ends (by decide) (by decide) (by decide)
  · exact isSolid_append rfl (by decide) h.name
  · exact isSolid_of_mem_listLine rfl (by decide) h.traits line hline
  · exact isSolid_of_mem_listLine rfl (by decide) (isSolid_of_mem_groupParagraphs h.bodyLines) line
      hline

/-- The block of a feat has the separator exactly when something rendered has it. -/
theorem hasSeparator_renderFeatBlock_iff (entry : RawFeatEntry) :
    HasSeparator (renderFeatBlock entry) ↔ entry.RendersSeparator := by
  have hlabel : ¬ HasSeparator "Feat".toList := by
    simp only [HasSeparator]
    decide
  have hname : HasSeparator ("Name: ".toList ++ entry.name) ↔ HasSeparator entry.name :=
    hasSeparator_append_iff (by decide)
  have htraits := @hasSeparator_listLine_iff "Traits: " ", " (by decide) (by decide) (by decide)
    entry.traits
  have heffect := @hasSeparator_listLine_iff "Effect: " " " (by decide) (by decide) (by decide)
    (groupParagraphs entry.bodyLines)
  rw [hasSeparator_groupParagraphs_iff] at heffect
  rw [renderFeatBlock, hasSeparator_lines_iff, RawFeatEntry.RendersSeparator]
  simp only [featBlockLines, List.mem_append, or_and_right, exists_or, List.mem_cons,
    List.not_mem_nil, or_false, exists_eq_left, hlabel, hname, false_or, htraits, heffect, or_assoc]

/-- The block of a condition is solid. -/
theorem isSolid_renderConditionBlock {entry : RawConditionEntry} (h : entry.WellFormed) :
    IsSolid (renderConditionBlock entry) := by
  have heffect : ∀ line ∈ (if (trim ([' '].intercalate entry.bodyLines)).isEmpty then []
      else ["Effect: ".toList ++ trim ([' '].intercalate entry.bodyLines)] : List Str),
        IsSolid line := by
    intro line hline
    split at hline
    case isTrue => simp at hline
    case isFalse hne =>
      rw [List.mem_singleton.mp hline]
      exact isSolid_append rfl (by decide) (isSolid_trim (by simpa using hne))
  refine isSolid_intercalate _ (List.append_ne_nil_of_left_ne_nil (List.cons_ne_nil _ _) _)
    fun line hline => ?_
  rcases List.mem_append.mp hline with hline | hline
  · rcases List.mem_cons.mp hline with rfl | hline
    · exact isSolid_of_ends (by decide) (by decide) (by decide)
    · rw [List.mem_singleton.mp hline]
      exact isSolid_append rfl (by decide) h.name
  · exact heffect line hline

/-- The block of a condition has the separator exactly when something rendered has it. -/
theorem hasSeparator_renderConditionBlock_iff (entry : RawConditionEntry) :
    HasSeparator (renderConditionBlock entry) ↔ entry.RendersSeparator := by
  have hlabel : ¬ HasSeparator "Condition".toList := by
    simp only [HasSeparator]
    decide
  have hname : HasSeparator ("Name: ".toList ++ entry.name) ↔ HasSeparator entry.name :=
    hasSeparator_append_iff (by decide)
  have hjoin := @hasSeparator_intercalate_iff [' '] (by simp) (by decide) entry.bodyLines
  have heffect : (∃ line ∈ (if (trim ([' '].intercalate entry.bodyLines)).isEmpty then []
      else ["Effect: ".toList ++ trim ([' '].intercalate entry.bodyLines)] : List Str),
        HasSeparator line) ↔ ∃ line ∈ entry.bodyLines, HasSeparator line := by
    rw [← hjoin, ← hasSeparator_trim_iff ([' '].intercalate entry.bodyLines)]
    generalize trim ([' '].intercalate entry.bodyLines) = effect
    split
    case isTrue hempty => simp [List.isEmpty_iff.mp hempty, not_hasSeparator_nil]
    case isFalse =>
      simp only [List.mem_singleton, exists_eq_left]
      exact hasSeparator_append_iff (by decide)
  rw [renderConditionBlock, hasSeparator_lines_iff, RawConditionEntry.RendersSeparator]
  simp only [conditionBlockLines, List.mem_append, or_and_right, exists_or, heffect]
  simp only [List.mem_cons, List.not_mem_nil, or_false, or_and_right, exists_or, exists_eq_left,
    hlabel, hname, false_or]

/-! ## Splitters make well-formed entries -/

namespace Splitting

variable {Entry : Type} {P : Entry → Prop} {state : Splitting Entry}

/-- A heading keeps a property of all entries that the new entry has. -/
theorem forall_mem_start (h : ∀ e ∈ state.finish, P e) {entry : Entry} (he : P entry) :
    ∀ e ∈ (state.start entry).finish, P e := by
  intro e hmem
  simp only [start, finish, Option.toList_some, List.mem_append, List.mem_singleton] at hmem h
  rcases hmem with hmem | rfl
  · exact h e hmem
  · exact he

/-- A line keeps a property of all entries that it keeps for the open one. -/
theorem forall_mem_push (h : ∀ e ∈ state.finish, P e) {append : Entry → Entry}
    (happend : ∀ e, P e → P (append e)) : ∀ e ∈ (state.push append).finish, P e := by
  intro e hmem
  simp only [push, finish, List.mem_append, Option.mem_toList, Option.map_eq_some_iff] at hmem h
  rcases hmem with hmem | ⟨e', he', rfl⟩
  · exact h e (Or.inl hmem)
  · exact happend e' (h e' (Or.inr he'))

end Splitting

/-- A property of all actions of a page: every heading has it to begin with, and every line keeps
it. -/
theorem splitEntries_induction {P : RawEntry → Prop} (text : Str)
    (heading : ∀ line ∈ (lines text).map trim, ∀ name label,
      detectHeading U line = some (name, label) → P ⟨name, label, []⟩)
    (body : ∀ line ∈ (lines text).map trim, ∀ entry, P entry →
      P { entry with bodyLines := entry.bodyLines ++ [line] }) :
    ∀ entry ∈ splitEntries U text, P entry := by
  have hmain : ∀ (rawLines : List Str) (state : Splitting RawEntry),
      (∀ rawLine ∈ rawLines, rawLine ∈ lines text) → (∀ e ∈ state.finish, P e) →
        ∀ e ∈ (rawLines.foldl (entryStep U) state).finish, P e := by
    intro rawLines
    induction rawLines with
    | nil => exact fun _ _ h => h
    | cons rawLine rawLines ih =>
      intro state hmem hstate
      have hline : trim rawLine ∈ (lines text).map trim :=
        List.mem_map_of_mem (hmem rawLine (by simp))
      refine ih _ (fun l hl => hmem l (by simp [hl])) ?_
      rw [entryStep]
      cases hheading : detectHeading U (trim rawLine) with
      | some found => exact Splitting.forall_mem_start hstate (heading _ hline _ _ hheading)
      | none => exact Splitting.forall_mem_push hstate fun e he => body _ hline e he
  exact hmain _ {} (fun _ h => h) (by simp [Splitting.finish])

/-- A property of all feats of a page: every heading block has it to begin with, and every line
keeps it. -/
theorem splitFeatEntries_induction {P : RawFeatEntry → Prop} (text : Str)
    (heading : ∀ index name traits next,
      tryReadHeadingBlock U ((lines text).map trim) index = some (name, traits, next) →
        P ⟨name, traits, []⟩)
    (body : ∀ line ∈ (lines text).map trim, ∀ entry, P entry →
      P { entry with bodyLines := entry.bodyLines ++ [line] }) :
    ∀ entry ∈ splitFeatEntries U text, P entry := by
  unfold splitFeatEntries
  generalize (lines text).map trim = ls at heading body
  have hmain : ∀ (index : ℕ) (state : Splitting RawFeatEntry), (∀ e ∈ state.finish, P e) →
      ∀ e ∈ splitFeatFrom U ls index state, P e := by
    intro index state hstate
    fun_induction splitFeatFrom U ls index state with
    | case1 index state hlt line hempty ih => exact ih hstate
    | case2 index state hlt line hne name traits next hread ih =>
      refine ih (Splitting.forall_mem_start hstate ?_)
      split at hread
      · exact heading index name traits next hread
      · simp at hread
    | case3 index state hlt line hne hread ih =>
      exact ih (Splitting.forall_mem_push hstate fun e he => body _ (List.getElem_mem hlt) e he)
    | case4 index state hge => exact hstate
  exact hmain 0 {} (by simp [Splitting.finish])

/-- A property of all conditions of a page: every heading has it to begin with, and every line keeps
it. -/
theorem splitConditionEntries_induction {P : RawConditionEntry → Prop} (text : Str)
    (heading : ∀ line ∈ (lines text).map trim, line.isEmpty = false → P ⟨line, []⟩)
    (body : ∀ line ∈ (lines text).map trim, ∀ entry, P entry →
      P { entry with bodyLines := entry.bodyLines ++ [line] }) :
    ∀ entry ∈ splitConditionEntries U text, P entry := by
  have hmain : ∀ (rawLines : List Str) (state : Bool × Splitting RawConditionEntry),
      (∀ rawLine ∈ rawLines, rawLine ∈ lines text) → (∀ e ∈ state.2.finish, P e) →
        ∀ e ∈ (rawLines.foldl (conditionStep U) state).2.finish, P e := by
    intro rawLines
    induction rawLines with
    | nil => exact fun _ _ h => h
    | cons rawLine rawLines ih =>
      intro state hmem hstate
      have hline : trim rawLine ∈ (lines text).map trim :=
        List.mem_map_of_mem (hmem rawLine (by simp))
      refine ih _ (fun l hl => hmem l (by simp [hl])) ?_
      rw [conditionStep]
      split
      · exact hstate
      split
      · exact hstate
      case isFalse hvisible =>
        have hne : (trim rawLine).isEmpty = false := by
          simp only [Bool.or_eq_true, not_or, Bool.not_eq_true] at hvisible
          exact hvisible.1
        split
        · exact Splitting.forall_mem_start hstate (heading _ hline hne)
        · exact Splitting.forall_mem_push hstate fun e he => body _ hline e he
  exact hmain _ (false, {}) (fun _ h => h) (by simp [Splitting.finish])

/-- A nonempty trimmed line is solid. -/
theorem isSolid_trim_of_isEmpty {s : Str} (h : (trim s).isEmpty = false) : IsSolid (trim s) :=
  isSolid_trim (by simpa using h)

/-- The lines of a page are trimmed before they are read. -/
theorem isTrimmed_of_mem {ls : List Str} {line : Str} (h : line ∈ ls.map trim) :
    IsTrimmed line := by
  obtain ⟨rawLine, -, rfl⟩ := List.mem_map.mp h
  exact isTrimmed_trim rawLine

/-- The heading of an action has a name on one line and one of the known rule types. -/
theorem detectHeading_spec (hU : U.KeepsSpacing) {line name label : Str}
    (h : detectHeading U line = some (name, label)) :
    IsLine name ∧ label ∈ actionCostMarkers.map Prod.snd := by
  obtain ⟨⟨marker, label'⟩, hmem, hfound⟩ := List.exists_of_findSome?_eq_some h
  obtain ⟨front, -, hfront⟩ := Option.bind_eq_some_iff.mp hfound
  simp only at hfront
  split at hfront
  case isFalse => simp at hfront
  case isTrue hname =>
    simp only [Option.some.injEq, Prod.mk.injEq] at hfront
    obtain ⟨rfl, rfl⟩ := hfront
    simp only [Bool.and_eq_true, Bool.not_eq_true'] at hname
    exact ⟨isLine_titleCase hU (isSolid_trim_of_isEmpty hname.1), List.mem_map_of_mem hmem⟩

/-- The actions of a page are well-formed. -/
theorem wellFormed_of_mem_splitEntries (hU : U.KeepsSpacing) (text : Str) :
    ∀ entry ∈ splitEntries U text, entry.WellFormed := by
  refine splitEntries_induction text (fun line _ name label hheading => ?_)
    fun line hline e he => ?_
  · obtain ⟨hname, hlabel⟩ := detectHeading_spec hU hheading
    exact ⟨hname.toIsSolid, hlabel, by simp⟩
  · exact ⟨he.name, he.ruleTypeLabel, List.forall_mem_append.mpr
      ⟨he.bodyLines, List.forall_mem_singleton.mpr (isTrimmed_of_mem hline)⟩⟩

/-- A trait of a feat is a lower-cased trait line. -/
theorem exists_of_mem_distinctTraits {traitLines : List Str} {word : Str}
    (h : word ∈ distinctTraits U traitLines) : ∃ line ∈ traitLines, word = U.toLowercase line := by
  have hmain : ∀ traits : List Str,
      word ∈ traitLines.foldl (fun traits line =>
        if U.toLowercase line ∈ traits then traits else traits ++ [U.toLowercase line]) traits →
          word ∈ traits ∨ ∃ line ∈ traitLines, word = U.toLowercase line := by
    clear h
    induction traitLines with
    | nil => exact fun _ h => Or.inl h
    | cons line traitLines ih =>
      intro traits h
      rcases ih _ h with h | ⟨l, hl, rfl⟩
      · simp only at h
        split at h
        · exact Or.inl h
        · rcases List.mem_append.mp h with h | h
          · exact Or.inl h
          · exact Or.inr ⟨line, by simp, List.mem_singleton.mp h⟩
      · exact Or.inr ⟨l, by simp [hl], rfl⟩
  rcases hmain [] h with h | h
  · simp at h
  · exact h

/-- The name and the traits of a heading block are made from nonblank lines of the page. -/
theorem tryReadHeadingBlock_spec {lines : List Str} {start next : ℕ} {name : Str}
    {traits : List Str} (h : tryReadHeadingBlock U lines start = some (name, traits, next)) :
    (∃ line ∈ lines, line ≠ [] ∧ name = titleCase U line) ∧
      ∀ word ∈ traits, ∃ line ∈ lines, line ≠ [] ∧ word = U.toLowercase line := by
  obtain ⟨block, rest, hlines, hscan⟩ := @exists_isScanned U (lines.drop start) 0
  have hline : ∀ line ∈ block.filter (isHeadingLine U), line ∈ lines ∧ line ≠ [] := by
    intro line hmem
    obtain ⟨hmem, hheading⟩ := List.mem_filter.mp hmem
    have hdrop : line ∈ lines.drop start := hlines ▸ List.mem_append_left _ hmem
    exact ⟨List.mem_of_mem_drop hdrop, ne_nil_of_isHeadingLine hheading⟩
  rw [tryReadHeadingBlock_eq hlines hscan] at h
  split at h
  case h_1 => exact absurd h (by simp)
  case h_2 nameLine traitLines heq =>
    rw [heq] at hline
    split at h
    case isFalse => exact absurd h (by simp)
    case isTrue =>
      obtain ⟨rfl, rfl, -⟩ : titleCase U nameLine = name ∧ distinctTraits U traitLines = traits ∧
        start + block.length = next := by simpa using h
      obtain ⟨hmem, hne⟩ := hline nameLine List.mem_cons_self
      refine ⟨⟨nameLine, hmem, hne, rfl⟩, fun word hword => ?_⟩
      obtain ⟨line, htrait, rfl⟩ := exists_of_mem_distinctTraits hword
      obtain ⟨hmem, hne⟩ := hline line (List.mem_cons_of_mem _ htrait)
      exact ⟨line, hmem, hne, rfl⟩

/-- The feats of a page are well-formed. -/
theorem wellFormed_of_mem_splitFeatEntries (hU : U.KeepsSpacing) (text : Str) :
    ∀ entry ∈ splitFeatEntries U text, entry.WellFormed := by
  refine splitFeatEntries_induction text (fun index name traits next hread => ?_)
    fun line hline e he => ?_
  · obtain ⟨⟨line, hline, hne, rfl⟩, htraits⟩ := tryReadHeadingBlock_spec hread
    refine ⟨isSolid_titleCase hU ⟨isTrimmed_of_mem hline, hne⟩, fun word hword => ?_, by simp⟩
    obtain ⟨line', hline', hne', rfl⟩ := htraits word hword
    exact hU.isSolid_toLowercase ⟨isTrimmed_of_mem hline', hne'⟩
  · exact ⟨he.name, he.traits, List.forall_mem_append.mpr
      ⟨he.bodyLines, List.forall_mem_singleton.mpr (isTrimmed_of_mem hline)⟩⟩

/-- The conditions of a page are well-formed. -/
theorem wellFormed_of_mem_splitConditionEntries (text : Str) :
    ∀ entry ∈ splitConditionEntries U text, entry.WellFormed := by
  refine splitConditionEntries_induction text (fun line hline hne => ?_)
    fun line _ e he => ⟨he.name⟩
  obtain ⟨rawLine, -, rfl⟩ := List.mem_map.mp hline
  exact ⟨isSolid_trim_of_isEmpty hne⟩

/-! ## The three converters -/

/-- A converted page of actions, of feats or of conditions is parsed entry for entry exactly when no
entry renders the separator. -/
theorem convert_reparse_iff (hU : U.KeepsSpacing) (hH : U.KeepsHyphens) (fresh : ℕ → Uuid)
    (text : Str) :
    ((parseCandidates U fresh (convertPage U text)).map Candidate.anonymous =
        (splitEntries U text).map (fun entry => parseBlock U 0 (renderBlock U entry)) ↔
      ∀ entry ∈ splitEntries U text, ¬ entry.RendersSeparator U) ∧
    ((parseCandidates U fresh (convertFeatPage U text)).map Candidate.anonymous =
        (splitFeatEntries U text).map (fun entry => parseBlock U 0 (renderFeatBlock entry)) ↔
      ∀ entry ∈ splitFeatEntries U text, ¬ entry.RendersSeparator) ∧
    ((parseCandidates U fresh (convertConditionPage U text)).map Candidate.anonymous =
        (splitConditionEntries U text).map
          (fun entry => parseBlock U 0 (renderConditionBlock entry)) ↔
      ∀ entry ∈ splitConditionEntries U text, ¬ entry.RendersSeparator) := by
  have hjoined : ∀ {Entry : Type} (entries : List Entry) (render : Entry → Str)
      (marked : Entry → Prop), (∀ entry ∈ entries, IsSolid (render entry)) →
      (∀ entry ∈ entries, (HasSeparator (render entry) ↔ marked entry)) →
      ((parseCandidates U fresh (blockJoint.intercalate (entries.map render))).map
          Candidate.anonymous = entries.map (fun entry => parseBlock U 0 (render entry)) ↔
        ∀ entry ∈ entries, ¬ marked entry) := by
    intro Entry entries render marked hsolid hmarked
    have hblocks := @parseCandidates_joined_iff U fresh (entries.map render)
      (by simpa using hsolid)
    rw [List.map_map] at hblocks
    refine hblocks.trans ⟨fun h entry hentry hm => ?_, fun h block hblock hsep => ?_⟩
    · exact h _ (List.mem_map_of_mem hentry) ((hmarked entry hentry).mpr hm)
    · obtain ⟨entry, hentry, rfl⟩ := List.mem_map.mp hblock
      exact h entry hentry ((hmarked entry hentry).mp hsep)
  refine ⟨?_, ?_, ?_⟩
  · have hwell := wellFormed_of_mem_splitEntries hU text
    exact hjoined _ _ _ (fun entry he => isSolid_renderBlock hU (hwell entry he)) fun entry he =>
      hasSeparator_renderBlock_iff hU hH (hwell entry he)
  · have hwell := wellFormed_of_mem_splitFeatEntries hU text
    exact hjoined _ _ _ (fun entry he => isSolid_renderFeatBlock (hwell entry he)) fun entry _ =>
      hasSeparator_renderFeatBlock_iff entry
  · have hwell := wellFormed_of_mem_splitConditionEntries (U := U) text
    exact hjoined _ _ _ (fun entry he => isSolid_renderConditionBlock (hwell entry he))
      fun entry _ => hasSeparator_renderConditionBlock_iff entry

/-- A page with one action, whose text has a rule line. -/
def pageWithRuleLine : Str := "STEP [one-action]\nGo on.\n-----\nStop.".toList

/-- The action with the rule line is parsed into two candidates, not into one. -/
theorem convertPage_splits_entry :
    ¬ ∀ (fresh : ℕ → Uuid) (text : Str),
      (parseCandidates .ascii fresh (convertPage .ascii text)).map Candidate.anonymous =
        (splitEntries .ascii text).map
          (fun entry => parseBlock .ascii 0 (renderBlock .ascii entry)) := by
  intro h
  have hlen := congrArg List.length (h (fun _ => 0) pageWithRuleLine)
  have hentries : (splitEntries .ascii pageWithRuleLine).length = 1 := by decide +kernel
  have hcandidates : (parseCandidates .ascii (fun _ => 0)
      (convertPage .ascii pageWithRuleLine)).length = 2 := by decide +kernel
  rw [List.length_map, List.length_map, hentries, hcandidates] at hlen
  exact absurd hlen (by decide)

/-- A page with two feats. -/
def pageWithTwoFeats : Str :=
  "SUDDEN CHARGE\nFEAT 1\n\nFIGHTER\n\nGo on.\n\nPOWER ATTACK\nFEAT 1\n\nStop.".toList

/-- The feats of that page. -/
def twoFeats : List RawFeatEntry :=
  [⟨"Sudden Charge".toList, ["fighter".toList], ["Go on.".toList]⟩,
    ⟨"Power Attack".toList, [], ["Stop.".toList]⟩]

/-- With the ASCII tables, the rule line breaks the page of actions, and the two feats are parsed
one by one. -/
theorem convert_reparse_examples :
    ((parseCandidates .ascii (fun _ => 0) (convertFeatPage .ascii pageWithTwoFeats)).map
        Candidate.anonymous =
      twoFeats.map fun entry => parseBlock .ascii 0 (renderFeatBlock entry)) ∧
      ¬ ∀ entry ∈ splitEntries .ascii pageWithRuleLine, ¬ entry.RendersSeparator .ascii := by
  constructor
  · have hentries : splitFeatEntries .ascii pageWithTwoFeats = twoFeats := by decide +kernel
    rw [← hentries]
    refine (convert_reparse_iff CaseTables.ascii_keepsSpacing CaseTables.ascii_keepsHyphens
      (fun _ => 0) pageWithTwoFeats).2.1.mpr ?_
    simp only [hentries, RawFeatEntry.RendersSeparator, HasSeparator]
    decide
  · rw [← (convert_reparse_iff CaseTables.ascii_keepsSpacing CaseTables.ascii_keepsHyphens
      (fun _ => 0) pageWithRuleLine).1]
    decide +kernel

end Pf2eParser
