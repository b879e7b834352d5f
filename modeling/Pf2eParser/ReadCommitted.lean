import Mathlib.Data.Fintype.Basic
import Mathlib.Data.List.Nodup
import Mathlib.Data.List.Perm.Basic
import Mathlib.Logic.Function.Basic

/-!
# Transactions under read committed

A database of keyed rows and any number of concurrent transactions.  A transaction is the tree of
its statements, and every statement can fail.  The isolation level is read committed:

* a `SELECT` sees the rows that are committed when it is executed, and the transaction's own rows;
* an `INSERT` of a key that another open transaction has inserted waits for that transaction;
* an `INSERT ... ON CONFLICT DO NOTHING` waits in the same way, and inserts nothing if the key is
  committed then;
* a failed statement rolls the transaction back.

`State.next` executes one statement of one transaction and `Run` is a sequence of such steps in any
order.  `Consistent` collects what holds along every run (`Run.consistent`): keys are unique, no two
transactions have rows with one key, references are valid, and every committed row comes from the
initial tables or from a transaction that has committed it.
-/

namespace ReadCommitted

variable {ι Row Key ρ : Type}

/-- The constraints on the rows of a database. -/
structure Schema (Row Key : Type) where
  /-- The primary key of a row. -/
  key : Row → Key
  /-- The key that a row refers to. -/
  references : Row → Option Key
  /-- The check constraints. -/
  check : Row → Bool

/-- A transaction that ends with a result.  Every statement comes with the result of its failure. -/
inductive Tx (Row ρ : Type) : Type where
  | abort (result : ρ)
  | commit (onError result : ρ)
  | select (condition : Row → Bool) (onError : ρ) (next : List Row → Tx Row ρ)
  | insert (row : Row) (onError : ρ) (next : Tx Row ρ)
  | insertIgnore (row : Row) (onError : ρ) (next : Bool → Tx Row ρ)

/-- The result of a failure of the next statement.  An abort is not a statement. -/
def Tx.onError : Tx Row ρ → Option ρ
  | .abort _ => none
  | .commit onError _ | .select _ onError _ | .insert _ onError _ | .insertIgnore _ onError _ =>
    some onError

/-- A transaction with its uncommitted rows, or what it has committed and its result. -/
inductive Session (Row ρ : Type) : Type where
  | running (writes : List Row) (tx : Tx Row ρ)
  | ended (written : List Row) (result : ρ)

namespace Session

/-- The uncommitted rows. -/
def pending : Session Row ρ → List Row
  | running writes _ => writes
  | ended _ _ => []

/-- The committed rows. -/
def written : Session Row ρ → List Row
  | running _ _ => []
  | ended written _ => written

/-- The result of a transaction that has ended. -/
def result : Session Row ρ → Option ρ
  | running _ _ => none
  | ended _ result => some result

/-- All rows of a transaction. -/
def rows (session : Session Row ρ) : List Row := session.pending ++ session.written

@[simp] theorem pending_running (writes : List Row) (tx : Tx Row ρ) :
    (running writes tx).pending = writes := rfl

@[simp] theorem pending_ended (written : List Row) (result : ρ) :
    (ended written result).pending = [] := rfl

@[simp] theorem written_running (writes : List Row) (tx : Tx Row ρ) :
    (running writes tx).written = [] := rfl

@[simp] theorem written_ended (written : List Row) (result : ρ) :
    (ended written result).written = written := rfl

@[simp] theorem result_running (writes : List Row) (tx : Tx Row ρ) :
    (running writes tx).result = none := rfl

@[simp] theorem result_ended (written : List Row) (result : ρ) :
    (ended written result).result = some result := rfl

/-- A transaction that has ended has no uncommitted rows. -/
theorem pending_of_result {session : Session Row ρ} {result : ρ}
    (h : session.result = some result) : session.pending = [] := by
  cases session with
  | running writes tx => cases h
  | ended written result' => rfl

@[simp] theorem mem_rows_iff {session : Session Row ρ} {row : Row} :
    row ∈ session.rows ↔ row ∈ session.pending ∨ row ∈ session.written := List.mem_append

end Session

/-- What the database does with the next statement: execute it, with the rows that a `SELECT`
returns in the order in which it returns them, or fail. -/
inductive Move (Row : Type) where
  | go (reply : List Row)
  | fail
  deriving DecidableEq

/-- The committed rows and the transactions. -/
structure State (ι Row ρ : Type) where
  committed : List Row
  session : ι → Session Row ρ

/-- All transactions before their first statement. -/
def State.start (committed : List Row) (tx : ι → Tx Row ρ) : State ι Row ρ where
  committed
  session i := .running [] (tx i)

section Constraints

variable [DecidableEq Key] (schema : Schema Row Key)

/-- Some of the rows has the key. -/
def Schema.taken (visible : List Row) (key : Key) : Bool :=
  visible.any fun row => schema.key row = key

/-- The row meets the constraints when these rows are visible. -/
def Schema.admits (visible : List Row) (row : Row) : Bool :=
  schema.check row && (schema.references row).all (schema.taken visible)

variable {schema}

/-- A key is taken by some row. -/
theorem Schema.taken_eq_true_iff {visible : List Row} {key : Key} :
    schema.taken visible key = true ↔ ∃ row ∈ visible, schema.key row = key := by
  simp [Schema.taken]

/-- A key is free if no row has it. -/
theorem Schema.taken_eq_false_iff {visible : List Row} {key : Key} :
    schema.taken visible key = false ↔ ∀ row ∈ visible, schema.key row ≠ key := by
  simp [Schema.taken]

/-- The constraints on a row. -/
theorem Schema.admits_eq_true_iff {visible : List Row} {row : Row} :
    schema.admits visible row = true ↔ schema.check row = true ∧
      ∀ key ∈ schema.references row, ∃ row' ∈ visible, schema.key row' = key := by
  unfold Schema.admits
  rw [Bool.and_eq_true]
  cases schema.references row with
  | none => simp
  | some key => simp [Schema.taken_eq_true_iff]

/-- The tables meet the constraints. -/
structure Schema.Valid (schema : Schema Row Key) (tables : List Row) : Prop where
  /-- Keys are unique. -/
  keys_nodup : (tables.map schema.key).Nodup
  /-- References lead to rows. -/
  references : ∀ row ∈ tables, ∀ key ∈ schema.references row,
    ∃ row' ∈ tables, schema.key row' = key

omit [DecidableEq Key] in
/-- Empty tables meet the constraints. -/
theorem Schema.Valid.nil : schema.Valid [] :=
  ⟨List.nodup_nil, fun _ hrow => absurd hrow List.not_mem_nil⟩

end Constraints

/-! ## Statements and runs -/

section Semantics

variable [DecidableEq Row] [DecidableEq Key] (schema : Schema Row Key)

/-- Execute the next statement of a transaction with the uncommitted rows `writes`, when other
transactions hold the keys `held`: the rows that are committed by it, and what is left of the
transaction.  A statement that has to wait, or that cannot but fail, does not execute. -/
def advance (held : Key → Bool) (committed writes : List Row) :
    Tx Row ρ → Move Row → Option (List Row × Session Row ρ)
  | .abort result, .go _ => some ([], .ended [] result)
  | .commit _ result, .go _ => some (writes, .ended writes result)
  | .select condition _ next, .go reply =>
    if reply.isPerm ((committed ++ writes).filter condition) then
      some ([], .running writes (next reply))
    else none
  | .insert row _ next, .go _ =>
    if schema.admits (committed ++ writes) row &&
        !schema.taken (committed ++ writes) (schema.key row) && !held (schema.key row) then
      some ([], .running (writes ++ [row]) next)
    else none
  | .insertIgnore row _ next, .go _ =>
    if schema.taken (committed ++ writes) (schema.key row) then
      some ([], .running writes (next false))
    else if schema.admits (committed ++ writes) row && !held (schema.key row) then
      some ([], .running (writes ++ [row]) (next true))
    else none
  | tx, .fail => tx.onError.map fun result => ([], .ended [] result)

variable [Fintype ι] [DecidableEq ι]

/-- Another transaction than `i` has an uncommitted row with the key. -/
def State.heldByOthers (s : State ι Row ρ) (i : ι) (key : Key) : Bool :=
  decide (∃ j, j ≠ i ∧ schema.taken (s.session j).pending key = true)

/-- One statement of the transaction `i`. -/
def State.next (s : State ι Row ρ) (i : ι) (move : Move Row) : Option (State ι Row ρ) :=
  match s.session i with
  | .ended _ _ => none
  | .running writes tx =>
    (advance schema (s.heldByOthers schema i) s.committed writes tx move).map
      fun (rows, session) =>
        { committed := s.committed ++ rows, session := Function.update s.session i session }

/-- A sequence of statements in any order, all of them allowed in the state in which they are
executed. -/
inductive Run (allowed : State ι Row ρ → ι → Move Row → Prop) (initial : State ι Row ρ) :
    List (ι × Move Row) → State ι Row ρ → Prop
  | nil : Run allowed initial [] initial
  | snoc {moves : List (ι × Move Row)} {s s' : State ι Row ρ} {i : ι} {move : Move Row}
      (h : Run allowed initial moves s) (ha : allowed s i move)
      (hn : s.next schema i move = some s') : Run allowed initial (moves ++ [(i, move)]) s'

/-- Execute a sequence of statements. -/
def State.execute (s : State ι Row ρ) : List (ι × Move Row) → Option (State ι Row ρ)
  | [] => some s
  | (i, move) :: moves => (s.next schema i move).bind fun s' => s'.execute moves

end Semantics

section Inversion

variable [DecidableEq Row] [DecidableEq Key] {schema : Schema Row Key}

/-- What the next statement of a transaction can do. -/
inductive Advances (schema : Schema Row Key) (held : Key → Bool) (committed writes : List Row) :
    Tx Row ρ → Move Row → List Row → Session Row ρ → Prop
  | abort (result : ρ) (reply : List Row) :
      Advances schema held committed writes (.abort result) (.go reply) [] (.ended [] result)
  | commit (onError result : ρ) (reply : List Row) :
      Advances schema held committed writes (.commit onError result) (.go reply) writes
        (.ended writes result)
  | select {condition : Row → Bool} {onError : ρ} {next : List Row → Tx Row ρ} {reply : List Row}
      (h : reply.Perm ((committed ++ writes).filter condition)) :
      Advances schema held committed writes (.select condition onError next) (.go reply) []
        (.running writes (next reply))
  | insert {row : Row} {onError : ρ} {next : Tx Row ρ} {reply : List Row}
      (hadmits : schema.admits (committed ++ writes) row = true)
      (htaken : schema.taken (committed ++ writes) (schema.key row) = false)
      (hheld : held (schema.key row) = false) :
      Advances schema held committed writes (.insert row onError next) (.go reply) []
        (.running (writes ++ [row]) next)
  | ignored {row : Row} {onError : ρ} {next : Bool → Tx Row ρ} {reply : List Row}
      (htaken : schema.taken (committed ++ writes) (schema.key row) = true) :
      Advances schema held committed writes (.insertIgnore row onError next) (.go reply) []
        (.running writes (next false))
  | inserted {row : Row} {onError : ρ} {next : Bool → Tx Row ρ} {reply : List Row}
      (hadmits : schema.admits (committed ++ writes) row = true)
      (htaken : schema.taken (committed ++ writes) (schema.key row) = false)
      (hheld : held (schema.key row) = false) :
      Advances schema held committed writes (.insertIgnore row onError next) (.go reply) []
        (.running (writes ++ [row]) (next true))
  | fail {tx : Tx Row ρ} {result : ρ} (h : tx.onError = some result) :
      Advances schema held committed writes tx .fail [] (.ended [] result)

/-- Every execution of a statement is one of these. -/
theorem advances_of_advance {held : Key → Bool} {committed writes rows : List Row} {tx : Tx Row ρ}
    {move : Move Row} {session : Session Row ρ}
    (h : advance schema held committed writes tx move = some (rows, session)) :
    Advances schema held committed writes tx move rows session := by
  cases move with
  | fail =>
    cases tx with
    | abort result => simp [advance, Tx.onError] at h
    | _ =>
      simp only [advance, Tx.onError, Option.map_some, Option.some.injEq, Prod.mk.injEq] at h
      obtain ⟨rfl, rfl⟩ := h
      exact .fail rfl
  | go reply =>
    cases tx with
    | abort result =>
      simp only [advance, Option.some.injEq, Prod.mk.injEq] at h
      obtain ⟨rfl, rfl⟩ := h
      exact .abort _ _
    | commit onError result =>
      simp only [advance, Option.some.injEq, Prod.mk.injEq] at h
      obtain ⟨rfl, rfl⟩ := h
      exact .commit _ _ _
    | select condition onError next =>
      rw [advance] at h
      split at h
      case isTrue hperm =>
        simp only [Option.some.injEq, Prod.mk.injEq] at h
        obtain ⟨rfl, rfl⟩ := h
        exact .select (List.isPerm_iff.mp hperm)
      case isFalse => simp at h
    | insert row onError next =>
      rw [advance] at h
      split at h
      case isTrue hok =>
        simp only [Option.some.injEq, Prod.mk.injEq] at h
        obtain ⟨rfl, rfl⟩ := h
        simp only [Bool.and_eq_true, Bool.not_eq_true'] at hok
        exact .insert hok.1.1 hok.1.2 hok.2
      case isFalse => simp at h
    | insertIgnore row onError next =>
      rw [advance] at h
      split at h
      case isTrue htaken =>
        simp only [Option.some.injEq, Prod.mk.injEq] at h
        obtain ⟨rfl, rfl⟩ := h
        exact .ignored htaken
      case isFalse htaken =>
        split at h
        case isTrue hok =>
          simp only [Option.some.injEq, Prod.mk.injEq] at h
          obtain ⟨rfl, rfl⟩ := h
          simp only [Bool.and_eq_true, Bool.not_eq_true'] at hok
          exact .inserted hok.1 (by simpa using htaken) hok.2
        case isFalse => simp at h

/-- What a statement does to the rows of its transaction. -/
inductive Effect (schema : Schema Row Key) (held : Key → Bool) (committed writes : List Row) :
    List Row → Session Row ρ → Prop
  /-- The statement writes nothing. -/
  | keep (tx : Tx Row ρ) : Effect schema held committed writes [] (.running writes tx)
  /-- The statement writes a row. -/
  | add {row : Row} (tx : Tx Row ρ) (hadmits : schema.admits (committed ++ writes) row = true)
      (htaken : schema.taken (committed ++ writes) (schema.key row) = false)
      (hheld : held (schema.key row) = false) :
      Effect schema held committed writes [] (.running (writes ++ [row]) tx)
  /-- The transaction is rolled back. -/
  | drop (result : ρ) : Effect schema held committed writes [] (.ended [] result)
  /-- The transaction is committed. -/
  | publish (result : ρ) : Effect schema held committed writes writes (.ended writes result)

omit [DecidableEq Row] in
/-- Every statement has one of these effects. -/
theorem Advances.effect {held : Key → Bool} {committed writes rows : List Row} {tx : Tx Row ρ}
    {move : Move Row} {session : Session Row ρ}
    (h : Advances schema held committed writes tx move rows session) :
    Effect schema held committed writes rows session := by
  cases h with
  | abort result => exact .drop result
  | commit onError result => exact .publish result
  | select h => exact .keep _
  | insert hadmits htaken hheld => exact .add _ hadmits htaken hheld
  | ignored htaken => exact .keep _
  | inserted hadmits htaken hheld => exact .add _ hadmits htaken hheld
  | fail h => exact .drop _

variable [Fintype ι] [DecidableEq ι] {s s' : State ι Row ρ} {i : ι} {move : Move Row}

omit [DecidableEq Row] in
/-- A key that no other transaction holds. -/
theorem State.heldByOthers_eq_false_iff {key : Key} :
    s.heldByOthers schema i key = false ↔
      ∀ j, j ≠ i → ∀ row ∈ (s.session j).pending, schema.key row ≠ key := by
  simp only [State.heldByOthers, decide_eq_false_iff_not, not_exists, not_and,
    Bool.not_eq_true, Schema.taken_eq_false_iff]

/-- One step of the database: a running transaction executes its next statement, and nothing happens
to the others. -/
theorem State.next_cases (h : s.next schema i move = some s') :
    ∃ writes tx rows session, s.session i = .running writes tx ∧
      Advances schema (s.heldByOthers schema i) s.committed writes tx move rows session ∧
      s'.committed = s.committed ++ rows ∧ s'.session i = session ∧
      ∀ j, j ≠ i → s'.session j = s.session j := by
  unfold State.next at h
  split at h
  case h_1 => simp at h
  case h_2 writes tx heq =>
    obtain ⟨⟨rows, session⟩, hadv, rfl⟩ := Option.map_eq_some_iff.mp h
    exact ⟨writes, tx, rows, session, heq, advances_of_advance hadv, rfl,
      Function.update_self _ _ _, fun j hj => Function.update_of_ne hj _ _⟩

/-- A sequence of statements that can be executed is a run. -/
theorem Run.of_execute {moves : List (ι × Move Row)} {initial : State ι Row ρ}
    (h : initial.execute schema moves = some s) :
    Run schema (fun _ _ _ => True) initial moves s := by
  have hmain : ∀ (done : List (ι × Move Row)) (t : State ι Row ρ),
      Run schema (fun _ _ _ => True) initial done t → t.execute schema moves = some s →
        Run schema (fun _ _ _ => True) initial (done ++ moves) s := by
    clear h
    induction moves with
    | nil =>
      intro done t hrun h
      rw [State.execute, Option.some.injEq] at h
      rwa [List.append_nil, ← h]
    | cons step moves ih =>
      obtain ⟨i, move⟩ := step
      intro done t hrun h
      obtain ⟨t', hnext, hrest⟩ := Option.bind_eq_some_iff.mp h
      have hmore := ih _ t' (hrun.snoc trivial hnext) hrest
      rwa [List.append_assoc, List.singleton_append] at hmore
  exact hmain [] initial .nil h

/-- Statements of one transaction extend a run if they are allowed whatever that transaction does.
-/
theorem Run.solo {allowed : State ι Row ρ → ι → Move Row → Prop} {initial : State ι Row ρ}
    {done : List (ι × Move Row)} {moves : List (Move Row)}
    (hallowed : ∀ t : State ι Row ρ, (∀ j, j ≠ i → t.session j = s.session j) →
      ∀ move, allowed t i move)
    (hrun : Run schema allowed initial done s)
    (h : s.execute schema (moves.map (Prod.mk i)) = some s') :
    Run schema allowed initial (done ++ moves.map (Prod.mk i)) s' ∧
      ∀ j, j ≠ i → s'.session j = s.session j := by
  induction moves generalizing done s with
  | nil =>
    rw [List.map_nil, State.execute, Option.some.injEq] at h
    rw [List.map_nil, List.append_nil, ← h]
    exact ⟨hrun, fun _ _ => rfl⟩
  | cons move moves ih =>
    obtain ⟨t, hnext, hrest⟩ := Option.bind_eq_some_iff.mp h
    obtain ⟨writes, tx, rows, session, -, -, -, -, hothers⟩ := State.next_cases hnext
    obtain ⟨hmore, hsame⟩ := ih
      (fun t' ht' => hallowed t' fun j hj => (ht' j hj).trans (hothers j hj))
      (hrun.snoc (hallowed s (fun _ _ => rfl) move) hnext) hrest
    rw [List.append_assoc, List.singleton_append] at hmore
    exact ⟨hmore, fun j hj => (hsame j hj).trans (hothers j hj)⟩

end Inversion

/-! ## What holds along every run -/

section Invariant

variable {schema : Schema Row Key} {initial : List Row} {s s' : State ι Row ρ} {i : ι}

/-- What holds in every state of a run. -/
structure Consistent (schema : Schema Row Key) (initial : List Row) (s : State ι Row ρ) : Prop where
  /-- The committed tables meet the constraints. -/
  valid : schema.Valid s.committed
  /-- A transaction has no two rows with one key. -/
  rows_nodup : ∀ i, ((s.session i).rows.map schema.key).Nodup
  /-- Different transactions have no rows with one key. -/
  rows_disjoint : ∀ i j, i ≠ j → ∀ row ∈ (s.session i).rows, ∀ row' ∈ (s.session j).rows,
    schema.key row ≠ schema.key row'
  /-- The key of an uncommitted row is not committed. -/
  pending_disjoint : ∀ i, ∀ row ∈ (s.session i).pending, ∀ row' ∈ s.committed,
    schema.key row' ≠ schema.key row
  /-- The committed rows are the initial ones and those that the transactions have committed. -/
  mem_committed_iff : ∀ row, row ∈ s.committed ↔ row ∈ initial ∨ ∃ i, row ∈ (s.session i).written
  /-- The references of uncommitted rows lead to committed rows or to rows of the transaction. -/
  pending_references : ∀ i, ∀ row ∈ (s.session i).pending, ∀ key ∈ schema.references row,
    ∃ row' ∈ s.committed ++ (s.session i).pending, schema.key row' = key

/-- Before the first statement, valid tables are consistent. -/
theorem Consistent.start (h : schema.Valid initial) (tx : ι → Tx Row ρ) :
    Consistent schema initial (State.start initial tx) where
  valid := h
  rows_nodup _ := List.nodup_nil
  rows_disjoint _ _ _ _ hrow := absurd hrow List.not_mem_nil
  pending_disjoint _ _ hrow := absurd hrow List.not_mem_nil
  mem_committed_iff row := by simp [State.start]
  pending_references _ _ hrow := absurd hrow List.not_mem_nil

/-- A step that commits nothing and gives up the uncommitted rows of some transactions keeps a state
consistent. -/
theorem Consistent.of_shrink (h : Consistent schema initial s)
    (hcommitted : s'.committed = s.committed)
    (hwritten : ∀ j, (s'.session j).written = (s.session j).written)
    (hpending : ∀ j, (s'.session j).pending = (s.session j).pending ∨
      (s'.session j).pending = []) : Consistent schema initial s' := by
  have hsub : ∀ j, (s'.session j).rows.Sublist (s.session j).rows := by
    intro j
    unfold Session.rows
    rw [hwritten]
    rcases hpending j with hj | hj
    · rw [hj]
    · rw [hj]
      exact List.sublist_append_right _ _
  have hmem : ∀ j, ∀ row ∈ (s'.session j).pending, row ∈ (s.session j).pending := by
    intro j row hrow
    rcases hpending j with hj | hj
    · rwa [hj] at hrow
    · rw [hj] at hrow
      exact absurd hrow List.not_mem_nil
  refine ⟨hcommitted ▸ h.valid, fun j => ((hsub j).map _).nodup (h.rows_nodup j),
    fun j k hjk row hrow row' hrow' => h.rows_disjoint j k hjk row ((hsub j).subset hrow) row'
      ((hsub k).subset hrow'), fun j row hrow => ?_, fun row => ?_, fun j row hrow => ?_⟩
  · rw [hcommitted]
    exact h.pending_disjoint j row (hmem j row hrow)
  · rw [hcommitted, h.mem_committed_iff]
    simp only [hwritten]
  · rcases hpending j with hj | hj
    · rw [hj] at hrow ⊢
      rw [hcommitted]
      exact h.pending_references j row hrow
    · rw [hj] at hrow
      exact absurd hrow List.not_mem_nil

/-- One session has got a new last row. -/
theorem mem_iff_of_added [DecidableEq ι] (rowsOf : Session Row ρ → List Row) {row : Row}
    (hothers : ∀ j, j ≠ i → s'.session j = s.session j)
    (hadded : rowsOf (s'.session i) = rowsOf (s.session i) ++ [row]) (j : ι) (r : Row) :
    r ∈ rowsOf (s'.session j) ↔ r ∈ rowsOf (s.session j) ∨ j = i ∧ r = row := by
  by_cases hj : j = i
  · subst hj
    rw [hadded, List.mem_append, List.mem_singleton]
    simp
  · rw [hothers j hj]
    simp [hj]

/-- A new uncommitted row with a free key and valid references keeps a state consistent. -/
theorem Consistent.of_add [DecidableEq ι] (h : Consistent schema initial s) {row : Row}
    (hcommitted : s'.committed = s.committed)
    (hothers : ∀ j, j ≠ i → s'.session j = s.session j)
    (hwritten : (s.session i).written = [] ∧ (s'.session i).written = [])
    (hpending : (s'.session i).pending = (s.session i).pending ++ [row])
    (hfree : ∀ row' ∈ s.committed ++ (s.session i).pending, schema.key row' ≠ schema.key row)
    (hheld : ∀ j, j ≠ i → ∀ row' ∈ (s.session j).pending, schema.key row' ≠ schema.key row)
    (hreferences : ∀ key ∈ schema.references row,
      ∃ row' ∈ s.committed ++ (s.session i).pending, schema.key row' = key) :
    Consistent schema initial s' := by
  have hwritten' : ∀ j, (s'.session j).written = (s.session j).written := by
    intro j
    by_cases hj : j = i
    · rw [hj, hwritten.1, hwritten.2]
    · rw [hothers j hj]
  have hnew : ∀ j, j ≠ i → ∀ row' ∈ (s.session j).rows, schema.key row' ≠ schema.key row := by
    intro j hj row' hrow'
    rcases Session.mem_rows_iff.mp hrow' with hrow' | hrow'
    · exact hheld j hj row' hrow'
    · exact hfree row' (List.mem_append_left _ ((h.mem_committed_iff row').mpr (Or.inr ⟨j, hrow'⟩)))
  have hrows : (s'.session i).rows = (s.session i).rows ++ [row] := by
    simp [Session.rows, hwritten, hpending]
  -- the rows of a session are its old ones, and the new one in the session that added it
  have hmemRows := mem_iff_of_added Session.rows hothers hrows
  have hmemPending := mem_iff_of_added Session.pending hothers hpending
  refine ⟨hcommitted ▸ h.valid, fun j => ?_, fun j k hjk r hr r' hr' => ?_, fun j r hr => ?_,
    fun r => ?_, fun j r hr key hkey => ?_⟩
  · by_cases hj : j = i
    · rw [hj, hrows, List.map_append, List.nodup_append]
      refine ⟨h.rows_nodup i, List.nodup_singleton _, ?_⟩
      intro key hkey key' hkey'
      obtain ⟨r, hr, rfl⟩ := List.mem_map.mp hkey
      rw [List.map_singleton, List.mem_singleton] at hkey'
      rw [hkey']
      rw [Session.rows, hwritten.1, List.append_nil] at hr
      exact hfree r (List.mem_append_right _ hr)
    · rw [hothers j hj]
      exact h.rows_nodup j
  · rcases (hmemRows j r).mp hr with hr | ⟨hj, rfl⟩
    · rcases (hmemRows k r').mp hr' with hr' | ⟨hk, rfl⟩
      · exact h.rows_disjoint j k hjk r hr r' hr'
      · exact hnew j (fun hj => hjk (hj.trans hk.symm)) r hr
    · rcases (hmemRows k r').mp hr' with hr' | ⟨hk, rfl⟩
      · exact (hnew k (fun hk => hjk (hj.trans hk.symm)) r' hr').symm
      · exact absurd (hj.trans hk.symm) hjk
  · rw [hcommitted]
    rcases (hmemPending j r).mp hr with hr | ⟨-, rfl⟩
    · exact h.pending_disjoint j r hr
    · exact fun r' hr' => hfree r' (List.mem_append_left _ hr')
  · rw [hcommitted, h.mem_committed_iff]
    simp only [hwritten']
  · rw [hcommitted]
    have hold : ∃ r' ∈ s.committed ++ (s.session j).pending, schema.key r' = key := by
      rcases (hmemPending j r).mp hr with hr | ⟨rfl, rfl⟩
      · exact h.pending_references j r hr key hkey
      · exact hreferences key hkey
    obtain ⟨r', hr', hkey'⟩ := hold
    exact ⟨r', (List.mem_append.mp hr').elim (List.mem_append_left _) fun hr' =>
      List.mem_append_right _ ((hmemPending j r').mpr (Or.inl hr')), hkey'⟩

/-- The rows of a running transaction can be committed. -/
theorem Consistent.valid_append (h : Consistent schema initial s)
    (hwritten : (s.session i).written = []) :
    schema.Valid (s.committed ++ (s.session i).pending) where
  keys_nodup := by
    have hnodup := h.rows_nodup i
    rw [Session.rows, hwritten, List.append_nil] at hnodup
    rw [List.map_append, List.nodup_append]
    refine ⟨h.valid.keys_nodup, hnodup, ?_⟩
    intro key hkey key' hkey'
    obtain ⟨r, hr, rfl⟩ := List.mem_map.mp hkey
    obtain ⟨r', hr', rfl⟩ := List.mem_map.mp hkey'
    exact h.pending_disjoint i r' hr' r hr
  references r hr key hkey := by
    rcases List.mem_append.mp hr with hr | hr
    · obtain ⟨r', hr', hkey'⟩ := h.valid.references r hr key hkey
      exact ⟨r', List.mem_append_left _ hr', hkey'⟩
    · exact h.pending_references i r hr key hkey

/-- Committing the rows of a transaction keeps a state consistent. -/
theorem Consistent.of_publish [DecidableEq ι] (h : Consistent schema initial s)
    (hcommitted : s'.committed = s.committed ++ (s.session i).pending)
    (hothers : ∀ j, j ≠ i → s'.session j = s.session j)
    (hwritten : (s.session i).written = [] ∧ (s'.session i).written = (s.session i).pending)
    (hpending : (s'.session i).pending = []) : Consistent schema initial s' := by
  have hrows : ∀ j, (s'.session j).rows = (s.session j).rows := by
    intro j
    by_cases hj : j = i
    · rw [hj, Session.rows, Session.rows, hpending, hwritten.1, hwritten.2]
      simp
    · rw [hothers j hj]
  refine ⟨hcommitted ▸ h.valid_append hwritten.1, fun j => hrows j ▸ h.rows_nodup j,
    fun j k hjk => by rw [hrows, hrows]; exact h.rows_disjoint j k hjk, fun j r hr => ?_,
    fun r => ?_, fun j r hr => ?_⟩
  · by_cases hj : j = i
    · rw [hj, hpending] at hr
      exact absurd hr List.not_mem_nil
    · rw [hothers j hj] at hr
      rw [hcommitted]
      intro r' hr'
      rcases List.mem_append.mp hr' with hr' | hr'
      · exact h.pending_disjoint j r hr r' hr'
      · exact h.rows_disjoint i j (Ne.symm hj) r' (Session.mem_rows_iff.mpr (Or.inl hr')) r
          (Session.mem_rows_iff.mpr (Or.inl hr))
  · rw [hcommitted, List.mem_append, h.mem_committed_iff, or_assoc]
    refine or_congr_right ⟨?_, ?_⟩
    · rintro (⟨j, hr⟩ | hr)
      · by_cases hj : j = i
        · rw [hj, hwritten.1] at hr
          exact absurd hr List.not_mem_nil
        · exact ⟨j, by rwa [hothers j hj]⟩
      · exact ⟨i, by rwa [hwritten.2]⟩
    · rintro ⟨j, hr⟩
      by_cases hj : j = i
      · rw [hj, hwritten.2] at hr
        exact Or.inr hr
      · exact Or.inl ⟨j, by rwa [hothers j hj] at hr⟩
  · by_cases hj : j = i
    · rw [hj, hpending] at hr
      exact absurd hr List.not_mem_nil
    · rw [hothers j hj] at hr ⊢
      intro key hkey
      obtain ⟨r', hr', hkey'⟩ := h.pending_references j r hr key hkey
      refine ⟨r', ?_, hkey'⟩
      rw [hcommitted]
      rcases List.mem_append.mp hr' with hr' | hr'
      · exact List.mem_append_left _ (List.mem_append_left _ hr')
      · exact List.mem_append_right _ hr'

end Invariant

section Runs

variable [DecidableEq Row] [DecidableEq Key] {schema : Schema Row Key}
variable [Fintype ι] [DecidableEq ι] {initial : List Row} {s s' : State ι Row ρ} {i : ι}
  {move : Move Row}

/-- Every step keeps a state consistent. -/
theorem Consistent.next (h : Consistent schema initial s) (hn : s.next schema i move = some s') :
    Consistent schema initial s' := by
  obtain ⟨writes, tx, rows, session, hs, hadv, hcommitted, hs', hothers⟩ := State.next_cases hn
  have hwritten : (s.session i).written = [] := by rw [hs, Session.written_running]
  have hpending : (s.session i).pending = writes := by rw [hs, Session.pending_running]
  have hframe : ∀ j, (j = i → (s'.session j).written = (s.session j).written ∧
      ((s'.session j).pending = (s.session j).pending ∨ (s'.session j).pending = [])) →
      (s'.session j).written = (s.session j).written ∧
      ((s'.session j).pending = (s.session j).pending ∨ (s'.session j).pending = []) := by
    intro j hj
    by_cases hji : j = i
    · exact hj hji
    · rw [hothers j hji]
      exact ⟨rfl, Or.inl rfl⟩
  cases hadv.effect with
  | keep tx =>
    have hall := fun j => hframe j fun hj => by
      rw [hj, hs', hs]
      exact ⟨rfl, Or.inl rfl⟩
    exact h.of_shrink (by simpa using hcommitted) (fun j => (hall j).1) fun j => (hall j).2
  | drop result =>
    have hall := fun j => hframe j fun hj => by
      rw [hj, hs', hs]
      exact ⟨rfl, Or.inr rfl⟩
    exact h.of_shrink (by simpa using hcommitted) (fun j => (hall j).1) fun j => (hall j).2
  | add tx hadmits htaken hheld =>
    rw [Schema.taken_eq_false_iff] at htaken
    rw [State.heldByOthers_eq_false_iff] at hheld
    exact h.of_add (by simpa using hcommitted) hothers ⟨hwritten, by rw [hs']; rfl⟩
      (by rw [hs', hpending]; rfl) (hpending ▸ htaken) hheld
      (hpending ▸ (Schema.admits_eq_true_iff.mp hadmits).2)
  | publish result =>
    exact h.of_publish (hpending ▸ hcommitted) hothers ⟨hwritten, by rw [hs', hpending]; rfl⟩
      (by rw [hs']; rfl)

/-- Along a run from valid tables, every state is consistent. -/
theorem Run.consistent {allowed : State ι Row ρ → ι → Move Row → Prop} {tx : ι → Tx Row ρ}
    {moves : List (ι × Move Row)} (hinitial : schema.Valid initial)
    (h : Run schema allowed (State.start initial tx) moves s) : Consistent schema initial s := by
  induction h with
  | nil => exact .start hinitial tx
  | snoc h ha hn ih => exact ih.next hn

end Runs

end ReadCommitted
