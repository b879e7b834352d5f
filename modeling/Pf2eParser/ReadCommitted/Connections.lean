import Pf2eParser.ReadCommitted

/-!
# Connections

A connection executes one transaction after the other: `State.beginTx` gives it a new one.  A state
stays consistent if the rows that were committed before count as initial ones
(`Consistent.beginTx`), so that what is known about a fixed family of transactions applies between
two beginnings.
-/

namespace ReadCommitted

variable {ι Row Key ρ : Type} [DecidableEq ι] {schema : Schema Row Key} {initial : List Row}
  {s : State ι Row ρ} {i : ι}

/-- The connection begins a transaction. -/
def State.beginTx (s : State ι Row ρ) (i : ι) (tx : Tx Row ρ) : State ι Row ρ where
  committed := s.committed
  session := Function.update s.session i (.running [] tx)

@[simp] theorem State.session_beginTx_self (tx : Tx Row ρ) :
    (s.beginTx i tx).session i = .running [] tx := Function.update_self _ _ _

theorem State.session_beginTx_of_ne (tx : Tx Row ρ) {j : ι} (hj : j ≠ i) :
    (s.beginTx i tx).session j = s.session j := Function.update_of_ne hj _ _

/-- A transaction that begins has no rows, and the others keep theirs. -/
theorem State.mem_session_beginTx {tx : Tx Row ρ} {rowsOf : Session Row ρ → List Row}
    (hnone : rowsOf (.running [] tx) = []) {j : ι} {row : Row}
    (hrow : row ∈ rowsOf ((s.beginTx i tx).session j)) :
    j ≠ i ∧ row ∈ rowsOf (s.session j) := by
  by_cases hj : j = i
  · subst hj
    rw [session_beginTx_self, hnone] at hrow
    exact absurd hrow List.not_mem_nil
  · rw [session_beginTx_of_ne _ hj] at hrow
    exact ⟨hj, hrow⟩

/-- A connection without uncommitted rows can begin a transaction. -/
theorem Consistent.beginTx (h : Consistent schema initial s) (i : ι) (tx : Tx Row ρ) :
    Consistent schema s.committed (s.beginTx i tx) where
  valid := h.valid
  rows_nodup j := by
    by_cases hj : j = i
    · subst hj
      rw [State.session_beginTx_self]
      exact List.nodup_nil
    · rw [State.session_beginTx_of_ne _ hj]
      exact h.rows_nodup j
  rows_disjoint j k hjk row hrow row' hrow' := by
    have hrow := (State.mem_session_beginTx rfl hrow).2
    have hrow' := (State.mem_session_beginTx rfl hrow').2
    exact h.rows_disjoint j k hjk row hrow row' hrow'
  pending_disjoint j row hrow := h.pending_disjoint j row (State.mem_session_beginTx rfl hrow).2
  mem_committed_iff row := by
    refine ⟨Or.inl, fun hrow => hrow.elim id ?_⟩
    rintro ⟨j, hwritten⟩
    have hwritten := (State.mem_session_beginTx rfl hwritten).2
    exact (h.mem_committed_iff row).mpr (Or.inr ⟨j, hwritten⟩)
  pending_references j row hrow key hkey := by
    obtain ⟨hj, hrow⟩ := State.mem_session_beginTx rfl hrow
    rw [State.session_beginTx_of_ne _ hj]
    exact h.pending_references j row hrow key hkey

end ReadCommitted
