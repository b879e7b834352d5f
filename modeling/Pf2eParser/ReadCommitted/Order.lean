import Mathlib.Data.List.Dedup
import Pf2eParser.ReadCommitted

/-!
# The order in which transactions end

`ended` lists the transactions of a run that have ended, in the order of their last statements, each
with its own statements and its result.  The order respects real time: a transaction that has ended
before another one began comes before it (`pair_sublist_ended`).
-/

namespace ReadCommitted

variable {ι Row Key ρ : Type} [DecidableEq ι]

/-- The statements of one transaction. -/
def movesOf (moves : List (ι × Move Row)) (i : ι) : List (Move Row) :=
  moves.filterMap fun step => if step.1 = i then some step.2 else none

/-- The transactions that have ended, in the order of their last statements. -/
def ended (moves : List (ι × Move Row)) (s : State ι Row ρ) : List (ι × List (Move Row) × ρ) :=
  (moves.map Prod.fst).dedup.filterMap fun i =>
    (s.session i).result.map fun result => (i, movesOf moves i, result)

theorem movesOf_snoc_self (moves : List (ι × Move Row)) (i : ι) (move : Move Row) :
    movesOf (moves ++ [(i, move)]) i = movesOf moves i ++ [move] := by
  simp [movesOf, List.filterMap_append]

theorem movesOf_snoc_of_ne (moves : List (ι × Move Row)) {i j : ι} (move : Move Row) (hj : j ≠ i) :
    movesOf (moves ++ [(i, move)]) j = movesOf moves j := by
  simp [movesOf, List.filterMap_append, Ne.symm hj]

/-- The last occurrences of the elements of two lists. -/
theorem dedup_append_eq {α : Type} [DecidableEq α] (l₁ l₂ : List α) :
    (l₁ ++ l₂).dedup = l₁.dedup.filter (· ∉ l₂) ++ l₂.dedup := by
  induction l₁ with
  | nil => rfl
  | cons a l₁ ih =>
    by_cases h₁ : a ∈ l₁
    · rw [List.cons_append, List.dedup_cons_of_mem (List.mem_append_left _ h₁),
        List.dedup_cons_of_mem h₁, ih]
    · by_cases h₂ : a ∈ l₂
      · rw [List.cons_append, List.dedup_cons_of_mem (List.mem_append_right _ h₂),
          List.dedup_cons_of_notMem h₁, List.filter_cons_of_neg (by simpa using h₂), ih]
      · rw [List.cons_append, List.dedup_cons_of_notMem (by simp [h₁, h₂]),
          List.dedup_cons_of_notMem h₁, List.filter_cons_of_pos (by simpa using h₂), ih,
          List.cons_append]

/-- One more statement of a running transaction: if it was the last one, the transaction comes last.
-/
theorem ended_snoc {moves : List (ι × Move Row)} {s s' : State ι Row ρ} {i : ι} {move : Move Row}
    (hrunning : (s.session i).result = none)
    (hothers : ∀ j, j ≠ i → s'.session j = s.session j) :
    ended (moves ++ [(i, move)]) s' = ended moves s ++
      ((s'.session i).result.map fun result => (i, movesOf moves i ++ [move], result)).toList := by
  have hold : ∀ l : List ι, (l.filter (· ∉ [i])).filterMap (fun j => (s'.session j).result.map
      fun result => (j, movesOf (moves ++ [(i, move)]) j, result)) =
        l.filterMap fun j =>
          (s.session j).result.map fun result => (j, movesOf moves j, result) := by
    intro l
    induction l with
    | nil => rfl
    | cons j l ih =>
      by_cases hj : j = i
      · rw [List.filter_cons_of_neg (by simp [hj]), ih]
        simp [hj, hrunning]
      · rw [List.filter_cons_of_pos (by simp [hj]), List.filterMap_cons, List.filterMap_cons, ih,
          hothers j hj, movesOf_snoc_of_ne moves move hj]
  unfold ended
  rw [List.map_append, dedup_append_eq, List.filterMap_append]
  refine congrArg₂ (· ++ ·) (hold _) ?_
  cases h : (s'.session i).result <;> simp [h, movesOf_snoc_self]

/-- Every transaction that has ended is listed, with its statements and its result. -/
theorem mem_ended_iff {moves : List (ι × Move Row)} {s : State ι Row ρ} {i : ι}
    {own : List (Move Row)} {result : ρ} :
    (i, own, result) ∈ ended moves s ↔ i ∈ moves.map Prod.fst ∧ own = movesOf moves i ∧
      (s.session i).result = some result := by
  unfold ended
  rw [List.mem_filterMap]
  constructor
  · rintro ⟨j, hj, hresult⟩
    obtain ⟨result', hresult', heq⟩ := Option.map_eq_some_iff.mp hresult
    obtain ⟨rfl, rfl, rfl⟩ := by simpa using heq
    exact ⟨List.mem_dedup.mp hj, rfl, hresult'⟩
  · rintro ⟨hi, rfl, hresult⟩
    exact ⟨i, List.mem_dedup.mpr hi, by rw [hresult]; rfl⟩

/-- The transactions that are listed. -/
theorem map_fst_ended (moves : List (ι × Move Row)) (s : State ι Row ρ) :
    (ended moves s).map Prod.fst =
      (moves.map Prod.fst).dedup.filter fun i => (s.session i).result.isSome := by
  unfold ended
  induction (moves.map Prod.fst).dedup with
  | nil => rfl
  | cons i l ih =>
    cases h : (s.session i).result <;> simp [h, ih]

/-- No transaction is listed twice. -/
theorem nodup_map_fst_ended (moves : List (ι × Move Row)) (s : State ι Row ρ) :
    ((ended moves s).map Prod.fst).Nodup := by
  rw [map_fst_ended]
  exact (List.nodup_dedup _).filter _

/-- A transaction that makes no further statement comes before one that does. -/
theorem pair_sublist_ended {before after : List (ι × Move Row)} {s : State ι Row ρ} {i j : ι}
    (hi : i ∈ (ended (before ++ after) s).map Prod.fst) (hlast : i ∉ after.map Prod.fst)
    (hj : j ∈ (ended (before ++ after) s).map Prod.fst) (hlater : j ∈ after.map Prod.fst) :
    [i, j].Sublist ((ended (before ++ after) s).map Prod.fst) := by
  rw [map_fst_ended, List.map_append, dedup_append_eq, List.filter_append] at *
  change ([i] ++ [j]).Sublist _
  refine .append (List.singleton_sublist.mpr ?_) (List.singleton_sublist.mpr ?_)
  · refine (List.mem_append.mp hi).resolve_right fun hmem => ?_
    exact hlast (List.mem_dedup.mp (List.mem_filter.mp hmem).1)
  · refine (List.mem_append.mp hj).resolve_left fun hmem => ?_
    have hnot := (List.mem_filter.mp (List.mem_filter.mp hmem).1).2
    exact absurd hlater (by simpa using hnot)

/-- What is allowed can be widened. -/
theorem Run.mono [DecidableEq Row] [DecidableEq Key] [Fintype ι] {schema : Schema Row Key}
    {allowed allowed' : State ι Row ρ → ι → Move Row → Prop} {initial s : State ι Row ρ}
    {moves : List (ι × Move Row)} (hrun : Run schema allowed initial moves s)
    (h : ∀ t i move, allowed t i move → allowed' t i move) :
    Run schema allowed' initial moves s := by
  induction hrun with
  | nil => exact .nil
  | snoc _ ha hn ih => exact ih.snoc (h _ _ _ ha) hn

end ReadCommitted
