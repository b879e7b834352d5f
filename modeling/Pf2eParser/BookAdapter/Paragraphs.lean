import Pf2eParser.BookAdapter.Reparse

/-!
# What the paragraph loop computes

The loop over the paragraphs of an action sorts them by their roles.  What comes out can be said
without the loop: the traits, the effect and the values of each label are read off the list of
paragraphs with their roles, and the last value of a label wins (`readParagraphs_eq`).
-/

namespace Pf2eParser

open Text

/-- The paragraphs of an action with their roles. -/
def paragraphRoles (U : CaseTables) (paragraphs : List Str) : List (Str × ParagraphRole) :=
  paragraphs.zipIdx.map fun entry => (entry.1, paragraphRole U entry.2 entry.1)

/-- The paragraphs that are read as traits. -/
def traitParagraphs (roles : List (Str × ParagraphRole)) : List Str :=
  roles.flatMap fun entry => match entry.2 with
    | .traitWord => [entry.1]
    | _ => []

/-- The labels of the clauses, in order. -/
def clauseLabels (roles : List (Str × ParagraphRole)) : List BookLabel :=
  roles.flatMap fun entry => match entry.2 with
    | .clause label _ _ => [label]
    | _ => []

/-- The values of the clauses with the given label, in order. -/
def clauseValues (label : BookLabel) (roles : List (Str × ParagraphRole)) : List Str :=
  roles.flatMap fun entry => match entry.2 with
    | .clause label' value _ => if label' = label then [value] else []
    | _ => []

/-- The texts that go to the effect, in order. -/
def effectTexts (roles : List (Str × ParagraphRole)) : List Str :=
  roles.flatMap fun entry => match entry.2 with
    | .traitWord => []
    | .clause _ _ leftover => leftover.toList
    | .prose => [entry.1]

variable {U : CaseTables}

/-! ### One paragraph in front of the others -/

section Cons

variable (paragraph value : Str) (label : BookLabel) (leftover : Option Str)
  (roles : List (Str × ParagraphRole))

theorem traitParagraphs_cons_traitWord :
    traitParagraphs ((paragraph, .traitWord) :: roles) = [paragraph] ++ traitParagraphs roles := rfl

theorem effectTexts_cons_prose :
    effectTexts ((paragraph, .prose) :: roles) = [paragraph] ++ effectTexts roles := rfl

theorem traitParagraphs_cons_clause :
    traitParagraphs ((paragraph, .clause label value leftover) :: roles) =
      traitParagraphs roles := rfl

theorem clauseLabels_cons_clause :
    clauseLabels ((paragraph, .clause label value leftover) :: roles) =
      [label] ++ clauseLabels roles := rfl

theorem clauseValues_cons_clause (label' : BookLabel) :
    clauseValues label' ((paragraph, .clause label value leftover) :: roles) =
      (if label = label' then [value] else []) ++ clauseValues label' roles := rfl

theorem effectTexts_cons_clause :
    effectTexts ((paragraph, .clause label value leftover) :: roles) =
      leftover.toList ++ effectTexts roles := rfl

end Cons

/-! ### The loop -/

/-- One round of the paragraph loop, given the role of the paragraph. -/
def BlockParts.take (U : CaseTables) (parts : BlockParts) (paragraph : Str) :
    ParagraphRole → BlockParts
  | .traitWord => { parts with traits := parts.traits ++ [U.toLowercase paragraph] }
  | .clause label value leftover =>
    { parts.setClause label value with effectParts := parts.effectParts ++ leftover.toList }
  | .prose => { parts with effectParts := parts.effectParts ++ [paragraph] }

/-- The paragraph loop is a loop over the paragraphs with their roles. -/
theorem readParagraphs_eq_foldl (paragraphs : List Str) :
    readParagraphs U paragraphs =
      (paragraphRoles U paragraphs).foldl (fun parts entry => parts.take U entry.1 entry.2) {} := by
  rw [readParagraphs, paragraphRoles, List.foldl_map]
  refine List.foldl_ext _ _ _ fun parts entry _ => ?_
  rw [paragraph_eq_role]
  cases paragraphRole U entry.2 entry.1 <;> rfl

/-- The loop over paragraphs with roles: the last value of each label wins. -/
theorem foldl_take (parts : BlockParts) (roles : List (Str × ParagraphRole)) :
    roles.foldl (fun parts entry => parts.take U entry.1 entry.2) parts =
      { traits := parts.traits ++ (traitParagraphs roles).map U.toLowercase
        trigger := (clauseValues .trigger roles).getLast?.or parts.trigger
        requirements := (clauseValues .requirements roles).getLast?.or parts.requirements
        effectParts := parts.effectParts ++ effectTexts roles } := by
  induction roles generalizing parts with
  | nil => simp [traitParagraphs, clauseValues, effectTexts]
  | cons entry roles ih =>
    rw [List.foldl_cons, ih]
    obtain ⟨paragraph, role⟩ := entry
    cases role with
    | traitWord => simp [BlockParts.take, traitParagraphs, clauseValues, effectTexts]
    | prose => simp [BlockParts.take, traitParagraphs, clauseValues, effectTexts]
    | clause label value leftover =>
      cases label <;>
        simp [BlockParts.take, BlockParts.setClause, traitParagraphs, clauseValues, effectTexts,
          List.getLast?_cons]

/-- What the paragraph loop computes. -/
theorem readParagraphs_eq (paragraphs : List Str) :
    readParagraphs U paragraphs =
      { traits := (traitParagraphs (paragraphRoles U paragraphs)).map U.toLowercase
        trigger := (clauseValues .trigger (paragraphRoles U paragraphs)).getLast?
        requirements := (clauseValues .requirements (paragraphRoles U paragraphs)).getLast?
        effectParts := effectTexts (paragraphRoles U paragraphs) } := by
  rw [readParagraphs_eq_foldl, foldl_take]
  simp

/-- Only the first paragraph can be a trait. -/
theorem traitParagraphs_paragraphRoles (paragraphs : List Str) :
    (traitParagraphs (paragraphRoles U paragraphs)).length ≤ 1 := by
  have hlater : ∀ (ls : List Str) (k : ℕ), traitParagraphs
      ((ls.zipIdx (k + 1)).map fun entry => (entry.1, paragraphRole U entry.2 entry.1)) = [] := by
    intro ls k
    refine List.flatMap_eq_nil_iff.mpr fun entry hentry => ?_
    obtain ⟨⟨paragraph, index⟩, hmem, rfl⟩ := List.mem_map.mp hentry
    have hindex : k + 1 ≤ index := List.le_snd_of_mem_zipIdx hmem
    cases hrole : paragraphRole U index paragraph with
    | clause => rfl
    | prose => rfl
    | traitWord =>
      unfold paragraphRole at hrole
      grind
  cases paragraphs with
  | nil => simp [paragraphRoles, traitParagraphs]
  | cons paragraph paragraphs =>
    have hrest := hlater paragraphs 0
    rw [paragraphRoles, List.zipIdx_cons, List.map_cons]
    simp only [traitParagraphs, List.flatMap_cons] at hrest ⊢
    rw [hrest, List.append_nil]
    cases paragraphRole U 0 paragraph <;> simp

/-- Where no label opens two paragraphs, no clause is replaced by a later one. -/
theorem not_replaced_of_values {paragraphs before after : List Str} {p : Str}
    (hvalues : ∀ label, (clauseValues label (paragraphRoles U paragraphs)).length ≤ 1)
    (hsplit : paragraphs = before ++ p :: after) :
    ¬ Replaced U (paragraphRole U before.length p) after := by
  rintro ⟨label, value, leftover, hrole, -, q, hq, value', leftover', hrole'⟩
  obtain ⟨between, rest, rfl⟩ := List.append_of_mem hq
  have hlater : ∀ k, 0 < k → paragraphRole U k q = .clause label value' leftover' := by
    intro k hk
    obtain ⟨j, rfl⟩ : ∃ j, k = j + 1 := ⟨k - 1, by omega⟩
    rw [paragraphRole_succ, hrole']
  have htwo := hvalues label
  rw [hsplit, paragraphRoles, List.zipIdx_append, List.zipIdx_cons, List.zipIdx_append,
    List.zipIdx_cons] at htwo
  simp only [List.map_append, List.map_cons, clauseValues, List.flatMap_append, List.flatMap_cons,
    Nat.zero_add, hrole] at htwo
  rw [hlater _ (by omega)] at htwo
  simp only [if_true, List.length_append, List.length_singleton] at htwo
  omega

/-- Where no label opens two paragraphs, every paragraph is rendered. -/
theorem rendersSeparator_iff_of_values {paragraphs : List Str}
    (hvalues : ∀ label, (clauseValues label (paragraphRoles U paragraphs)).length ≤ 1) :
    RendersSeparator U paragraphs ↔ ∃ p ∈ paragraphs, HasSeparator p := by
  constructor
  · rintro ⟨before, p, after, rfl, hsep, -⟩
    exact ⟨p, by simp, hsep⟩
  · rintro ⟨p, hp, hsep⟩
    obtain ⟨before, after, hsplit⟩ := List.append_of_mem hp
    exact ⟨before, p, after, hsplit, hsep, not_replaced_of_values hvalues hsplit⟩

end Pf2eParser
