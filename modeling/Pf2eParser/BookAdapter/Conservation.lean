import Mathlib.Algebra.Order.Group.Multiset
import Mathlib.Tactic.Abel
import Pf2eParser.BookAdapter.Paragraphs

/-!
# Conservation of the words of an action

Every word in the text of an action is meant to turn up in its block, apart from the label words
that open clauses.  The one place where words are lost is a clause whose label occurs again: its
value is overwritten.  So the words are conserved exactly when no label opens two paragraphs
(`conserved_iff`).
-/

namespace Pf2eParser

open Text

variable {U : CaseTables}

/-- The words of texts, with their multiplicities. -/
def words (texts : List Str) : Multiset Str := texts.flatMap splitWhitespace

/-- The values that are written into the block of an action. -/
def emittedValues (U : CaseTables) (entry : RawEntry) : List Str :=
  let parts := readParagraphs U (groupParagraphs entry.bodyLines)
  (if parts.traits.isEmpty then [] else [", ".toList.intercalate parts.traits]) ++
    parts.trigger.toList ++ parts.requirements.toList ++
    if parts.effectParts.isEmpty then [] else [" ".toList.intercalate parts.effectParts]

/-- The words of the body lines are the words of the values in the block, once the label word of
every clause is added to the values and the trait paragraph is compared in lower case. -/
def RawEntry.Conserved (U : CaseTables) (entry : RawEntry) : Prop :=
  let roles := paragraphRoles U (groupParagraphs entry.bodyLines)
  words (emittedValues U entry) + words ((clauseLabels roles).map BookLabel.word) +
      words (traitParagraphs roles) =
    words entry.bodyLines + words ((traitParagraphs roles).map U.toLowercase)

/-! ## Counting words -/

/-- The words of two lists of texts. -/
@[simp] theorem words_append (texts texts' : List Str) :
    words (texts ++ texts') = words texts + words texts' := by
  simp [words]

/-- There are no words in no texts. -/
@[simp] theorem words_nil : words [] = 0 := rfl

/-- Texts joined by spaces have the words of the texts. -/
theorem words_joined (texts : List Str) :
    words (if texts.isEmpty then [] else [" ".toList.intercalate texts]) = words texts := by
  cases texts with
  | nil => rfl
  | cons text texts =>
    have hjoin := splitWhitespace_intercalate (text :: texts)
    simp only [words, List.isEmpty_cons, Bool.false_eq_true, if_false, List.flatMap_cons,
      List.flatMap_nil, List.append_nil] at hjoin ⊢
    exact congrArg _ hjoin

/-- The words of lines are the words of their paragraphs. -/
theorem words_groupParagraphs (ls : List Str) : words (groupParagraphs ls) = words ls := by
  have hparagraphs := splitWhitespace_intercalate (groupParagraphs ls)
  rw [intercalate_groupParagraphs, splitWhitespace_intercalate] at hparagraphs
  have hblank : (ls.filter fun line => !line.isEmpty).flatMap splitWhitespace =
      ls.flatMap splitWhitespace := by
    clear hparagraphs
    induction ls with
    | nil => rfl
    | cons line ls ih =>
      cases line with
      | nil => simpa [splitWhitespace] using ih
      | cons c line => simp [ih]
  rw [words, words, ← hparagraphs, hblank]

/-- A space separates words. -/
theorem words_append_space (a b : Str) : words [a ++ ' ' :: b] = words [a] + words [b] := by
  simp only [words, List.flatMap_cons, List.flatMap_nil, List.append_nil, Multiset.coe_add,
    splitWhitespace_append_cons a (show isWhitespace ' ' = true by decide) b]

/-- Trimming does not change the words of a text. -/
theorem words_trim (s : Str) : words [trim s] = words [s] := by
  simp only [words, List.flatMap_cons, List.flatMap_nil, splitWhitespace_trim]

/-- A clause consists of its label, its value and what follows the value. -/
theorem words_clause {index : ℕ} {paragraph value : Str} {label : BookLabel}
    {leftover : Option Str} (h : paragraphRole U index paragraph = .clause label value leftover) :
    words [paragraph] = words [label.word] + (words [value] + words leftover.toList) := by
  obtain ⟨clause, rest, hparagraph, rfl, rfl⟩ :=
    extractBookLabel_eq_some (extractBookLabel_of_role h)
  have hrest : words (if (trim rest).isEmpty then none else some (trim rest) : Option Str).toList =
      words [rest] := by
    rw [← words_trim rest]
    cases trim rest <;> rfl
  rw [hrest, words_trim]
  rcases hparagraph with ⟨rfl, rfl⟩ | ⟨rfl, -⟩
  · have hempty : words [[]] = 0 := rfl
    rw [words_append_space, hempty, add_zero]
  · rw [words_append_space, words_append_space]

/-- The words of paragraphs, by the roles of the paragraphs. -/
theorem words_eq_of_roles {roles : List (Str × ParagraphRole)}
    (h : ∀ entry ∈ roles, ∃ index, paragraphRole U index entry.1 = entry.2) :
    words (roles.map Prod.fst) =
      words (traitParagraphs roles) + words ((clauseLabels roles).map BookLabel.word) +
      (words (clauseValues .trigger roles) + words (clauseValues .requirements roles)) +
      words (effectTexts roles) := by
  induction roles with
  | nil => rfl
  | cons entry roles ih =>
    obtain ⟨index, hrole⟩ := h entry (by simp)
    have hrest := ih fun entry he => h entry (by simp [he])
    obtain ⟨paragraph, role⟩ := entry
    rw [List.map_cons, ← List.singleton_append, words_append, hrest]
    cases role with
    | traitWord =>
      rw [traitParagraphs_cons_traitWord, words_append]
      simp only [add_assoc]
      rfl
    | prose =>
      rw [effectTexts_cons_prose, words_append, add_left_comm]
      rfl
    | clause label value leftover =>
      rw [traitParagraphs_cons_clause, clauseLabels_cons_clause, effectTexts_cons_clause,
        clauseValues_cons_clause, clauseValues_cons_clause, List.map_append, List.map_singleton,
        words_clause hrole]
      simp only [words_append]
      cases label with
      | requirements =>
        rw [if_neg (by simp), if_pos rfl, words_nil]
        abel
      | trigger =>
        rw [if_pos rfl, if_neg (by simp), words_nil]
        abel

/-! ## Clauses that are overwritten -/

/-- The clauses with a label are counted by their values. -/
theorem length_clauseValues (label : BookLabel) (roles : List (Str × ParagraphRole)) :
    (clauseValues label roles).length = (clauseLabels roles).count label := by
  induction roles with
  | nil => rfl
  | cons entry roles ih =>
    obtain ⟨paragraph, role⟩ := entry
    simp only [clauseValues, clauseLabels, List.flatMap_cons, List.length_append,
      List.count_append] at ih ⊢
    rw [ih]
    cases role with
    | traitWord => rfl
    | prose => rfl
    | clause label' value leftover => by_cases heq : label' = label <;> simp [heq]

/-- A solid text has a word. -/
theorem words_singleton_ne_zero {text : Str} (h : IsSolid text) : words [text] ≠ 0 := by
  have hne := h.splitWhitespace_ne_nil
  simpa [words] using hne

/-- Some solid texts without the last one. -/
theorem words_dropLast_eq_zero_iff {texts : List Str} (h : ∀ text ∈ texts, IsSolid text) :
    words texts.dropLast = 0 ↔ texts.length ≤ 1 := by
  rcases List.eq_nil_or_concat' texts with rfl | ⟨front, last, rfl⟩
  · simp
  · rw [List.dropLast_concat]
    cases front with
    | nil => simp
    | cons text front =>
      have hne := words_singleton_ne_zero (h text (by simp))
      rw [← List.singleton_append, words_append]
      refine iff_of_false (fun heq => hne ?_) (by simp)
      exact Multiset.le_zero.mp (heq ▸ Multiset.le_add_right _ _)

/-- The words of some texts are the words of the last one and of the others. -/
theorem words_dropLast_add (texts : List Str) :
    words texts.dropLast + words texts.getLast?.toList = words texts := by
  rw [← words_append]
  rcases List.eq_nil_or_concat' texts with rfl | ⟨front, last, rfl⟩
  · rfl
  · rw [List.dropLast_concat, List.getLast?_concat, Option.toList_some]

/-- The paragraphs with their roles are the paragraphs. -/
theorem map_fst_paragraphRoles (paragraphs : List Str) :
    (paragraphRoles U paragraphs).map Prod.fst = paragraphs := by
  rw [paragraphRoles, List.map_map]
  exact List.zipIdx_map_fst 0 paragraphs

/-- The role of a paragraph is found at its index. -/
theorem exists_of_mem_paragraphRoles {paragraphs : List Str} {entry : Str × ParagraphRole}
    (h : entry ∈ paragraphRoles U paragraphs) :
    entry.1 ∈ paragraphs ∧ ∃ index, paragraphRole U index entry.1 = entry.2 := by
  obtain ⟨⟨paragraph, index⟩, hmem, rfl⟩ := List.mem_map.mp h
  exact ⟨List.fst_mem_of_mem_zipIdx hmem, index, rfl⟩

/-- The values of the clauses of solid paragraphs are solid. -/
theorem isSolid_of_mem_clauseValues {paragraphs : List Str} (h : ∀ p ∈ paragraphs, IsSolid p)
    (label : BookLabel) : ∀ value ∈ clauseValues label (paragraphRoles U paragraphs),
      IsSolid value := by
  intro value hvalue
  obtain ⟨⟨paragraph, role⟩, hmem, hvalue⟩ := List.mem_flatMap.mp hvalue
  obtain ⟨hparagraph, index, hrole⟩ := exists_of_mem_paragraphRoles hmem
  cases role with
  | traitWord => simp at hvalue
  | prose => simp at hvalue
  | clause label' value' leftover =>
    have hsolid := (isSolid_clause hrole (h paragraph hparagraph)).1
    simp only at hvalue
    split at hvalue
    · exact List.mem_singleton.mp hvalue ▸ hsolid
    · simp at hvalue

/-- No label opens two paragraphs exactly when every label has one value at most. -/
theorem nodup_clauseLabels_iff (roles : List (Str × ParagraphRole)) :
    (clauseLabels roles).Nodup ↔ (clauseValues .trigger roles).length ≤ 1 ∧
      (clauseValues .requirements roles).length ≤ 1 := by
  rw [List.nodup_iff_count_le_one, length_clauseValues, length_clauseValues]
  refine ⟨fun h => ⟨h _, h _⟩, fun h label => ?_⟩
  cases label with
  | requirements => exact h.2
  | trigger => exact h.1

/-- The words of the values in the block of an action. -/
theorem words_emittedValues (entry : RawEntry) :
    let roles := paragraphRoles U (groupParagraphs entry.bodyLines)
    words (emittedValues U entry) = words ((traitParagraphs roles).map U.toLowercase) +
      words (clauseValues .trigger roles).getLast?.toList +
      words (clauseValues .requirements roles).getLast?.toList + words (effectTexts roles) := by
  intro roles
  have htraits : ∀ traits : List Str, traits.length ≤ 1 →
      words (if traits.isEmpty then [] else [", ".toList.intercalate traits]) = words traits := by
    intro traits hlen
    rcases traits with _ | ⟨word, _ | ⟨word', traits⟩⟩
    · rfl
    · simp
    · simp at hlen
  simp only [emittedValues, readParagraphs_eq, words_append, words_joined]
  rw [htraits _ (by simpa using traitParagraphs_paragraphRoles _)]

/-- What is kept of the clauses is all of them exactly when nothing else was read. -/
private theorem lost_words_iff (traits lowered labels effect trigger requirements lost lost' :
    Multiset Str) :
    lowered + trigger + requirements + effect + labels + traits =
        traits + labels + (lost + trigger + (lost' + requirements)) + effect + lowered ↔
      lost = 0 ∧ lost' = 0 := by
  have hsum : traits + labels + (lost + trigger + (lost' + requirements)) + effect + lowered =
      lowered + trigger + requirements + effect + labels + traits + (lost + lost') := by abel
  rw [hsum, left_eq_add]
  constructor
  · intro h
    exact ⟨Multiset.le_zero.mp (h ▸ Multiset.le_add_right _ _),
      Multiset.le_zero.mp (h ▸ Multiset.le_add_left _ _)⟩
  · rintro ⟨rfl, rfl⟩
    rfl

/-- The words in the text of an action are conserved exactly when no label opens two of its
paragraphs. -/
theorem conserved_iff (text : Str) (entry : RawEntry) (hentry : entry ∈ splitEntries U text) :
    entry.Conserved U ↔
      (clauseLabels (paragraphRoles U (groupParagraphs entry.bodyLines))).Nodup := by
  have htrimmed : ∀ entry ∈ splitEntries U text, ∀ line ∈ entry.bodyLines, IsTrimmed line :=
    splitEntries_induction text (by simp) fun line hline e he =>
      List.forall_mem_append.mpr ⟨he, List.forall_mem_singleton.mpr (isTrimmed_of_mem hline)⟩
  have hsolid : ∀ p ∈ groupParagraphs entry.bodyLines, IsSolid p :=
    isSolid_of_mem_groupParagraphs (htrimmed entry hentry)
  rw [nodup_clauseLabels_iff, ← words_dropLast_eq_zero_iff (isSolid_of_mem_clauseValues hsolid _),
    ← words_dropLast_eq_zero_iff (isSolid_of_mem_clauseValues hsolid _)]
  have hbody := @words_eq_of_roles U (paragraphRoles U (groupParagraphs entry.bodyLines))
    fun entry he => (exists_of_mem_paragraphRoles he).2
  rw [map_fst_paragraphRoles, words_groupParagraphs] at hbody
  have htrigger := words_dropLast_add
    (clauseValues .trigger (paragraphRoles U (groupParagraphs entry.bodyLines)))
  have hrequirements := words_dropLast_add
    (clauseValues .requirements (paragraphRoles U (groupParagraphs entry.bodyLines)))
  simp only [RawEntry.Conserved, words_emittedValues, hbody]
  rw [← htrigger, ← hrequirements]
  exact lost_words_iff _ _ _ _ _ _ _ _

/-- A page with an action, and a section without a heading of its own that has a clause, too. -/
def pageWithTwoClauses : Str :=
  "STEP [one-action]\nRequirements You stand.\n\nNOTE\n\nRequirements You sit.".toList

/-- The action of that page. -/
def entryWithTwoClauses : RawEntry where
  name := "Step".toList
  ruleTypeLabel := "Action".toList
  bodyLines := ["Requirements You stand.".toList, [], "NOTE".toList, [],
    "Requirements You sit.".toList]

/-- The first clause of the action is dropped. -/
theorem conserved_fails :
    ¬ ∀ (text : Str), ∀ entry ∈ splitEntries .ascii text, entry.Conserved .ascii := by
  intro h
  have hentry : entryWithTwoClauses ∈ splitEntries .ascii pageWithTwoClauses := by decide +kernel
  have hconserved := congrArg Multiset.card (h _ _ hentry)
  exact absurd hconserved (by decide +kernel)

/-- With the ASCII tables, an action with one clause is conserved, and the action with two is not.
-/
theorem conserved_examples :
    (⟨"Step".toList, "Action".toList, ["Trigger You fall. Go on.".toList]⟩ : RawEntry).Conserved
        .ascii ∧
      ¬ (clauseLabels (paragraphRoles .ascii
        (groupParagraphs entryWithTwoClauses.bodyLines))).Nodup := by
  constructor
  · refine (conserved_iff "STEP [one-action]\nTrigger You fall. Go on.".toList _
      (by decide +kernel)).mpr ?_
    decide +kernel
  · rw [← conserved_iff pageWithTwoClauses entryWithTwoClauses (by decide +kernel)]
    intro hconserved
    exact absurd (congrArg Multiset.card hconserved) (by decide +kernel)

end Pf2eParser
