import Pf2eParser.ReadCommitted

/-!
# A transaction alone

While no other transaction is open, a transaction is a sequential program over the committed rows.
`runAlone` executes it, `Evaluates` is its meaning, and `Evaluates` is taken apart statement by
statement (`evaluates_select_iff` and its siblings).  A transaction that is executed alone in a
concurrent system does what `runAlone` says (`State.execute_of_evaluates`).
-/

namespace ReadCommitted

variable {ι Row Key ρ : Type}

/-- Execute a transaction to its end while no other one is open: the rows that it commits, and its
result. -/
def runAlone [DecidableEq Row] [DecidableEq Key] (schema : Schema Row Key) (committed : List Row) :
    List Row → Tx Row ρ → List (Move Row) → Option (List Row × ρ)
  | _, _, [] => none
  | writes, tx, move :: moves =>
    match advance schema (fun _ => false) committed writes tx move with
    | some (_, .running writes tx) => runAlone schema committed writes tx moves
    | some (rows, .ended _ result) => if moves.isEmpty then some (rows, result) else none
    | none => none

section Meaning

variable [DecidableEq Key]

/-- The statements `moves` take a transaction that is alone to its end; it commits `rows`. -/
inductive Evaluates (schema : Schema Row Key) (committed : List Row) :
    List Row → Tx Row ρ → List (Move Row) → List Row → ρ → Prop
  | last {writes rows written : List Row} {tx : Tx Row ρ} {move : Move Row} {result : ρ}
      (h : Advances schema (fun _ => false) committed writes tx move rows (.ended written result)) :
      Evaluates schema committed writes tx [move] rows result
  | more {writes writes' rows rows' : List Row} {tx tx' : Tx Row ρ} {move : Move Row}
      {moves : List (Move Row)} {result : ρ}
      (h : Advances schema (fun _ => false) committed writes tx move rows' (.running writes' tx'))
      (hrest : Evaluates schema committed writes' tx' moves rows result) :
      Evaluates schema committed writes tx (move :: moves) rows result

variable {schema : Schema Row Key} {committed writes rows : List Row} {moves : List (Move Row)}
  {onError result result' : ρ}

/-- The statement failed, and its transaction was rolled back. -/
def FailsAtOnce (onError : ρ) (moves : List (Move Row)) (rows : List Row) (result : ρ) : Prop :=
  moves = [.fail] ∧ rows = [] ∧ result = onError

/-- An abort gives up the uncommitted rows. -/
theorem evaluates_abort_iff :
    Evaluates schema committed writes (.abort result') moves rows result ↔
      ∃ reply, moves = [.go reply] ∧ rows = [] ∧ result = result' := by
  constructor
  · intro h
    cases h with
    | last h =>
      cases h with
      | abort _ reply => exact ⟨reply, rfl, rfl, rfl⟩
      | fail h => simp [Tx.onError] at h
    | more h hrest => cases h
  · rintro ⟨reply, rfl, rfl, rfl⟩
    exact .last (.abort _ _)

/-- A commit publishes the uncommitted rows. -/
theorem evaluates_commit_iff :
    Evaluates schema committed writes (.commit onError result') moves rows result ↔
      FailsAtOnce onError moves rows result ∨
        ∃ reply, moves = [.go reply] ∧ rows = writes ∧ result = result' := by
  constructor
  · intro h
    cases h with
    | last h =>
      cases h with
      | commit _ _ reply => exact Or.inr ⟨reply, rfl, rfl, rfl⟩
      | fail h => exact Or.inl ⟨rfl, rfl, (Option.some.inj h).symm⟩
    | more h hrest => cases h
  · rintro (⟨rfl, rfl, rfl⟩ | ⟨reply, rfl, rfl, rfl⟩)
    · exact .last (.fail rfl)
    · exact .last (.commit _ _ _)

/-- A selection goes on with the rows that meet its condition, in some order. -/
theorem evaluates_select_iff {condition : Row → Bool} {next : List Row → Tx Row ρ} :
    Evaluates schema committed writes (.select condition onError next) moves rows result ↔
      FailsAtOnce onError moves rows result ∨
        ∃ reply rest, moves = .go reply :: rest ∧
          reply.Perm ((committed ++ writes).filter condition) ∧
          Evaluates schema committed writes (next reply) rest rows result := by
  constructor
  · intro h
    cases h with
    | last h =>
      cases h with
      | fail h => exact Or.inl ⟨rfl, rfl, (Option.some.inj h).symm⟩
    | more h hrest =>
      cases h with
      | select h => exact Or.inr ⟨_, _, rfl, h, hrest⟩
  · rintro (⟨rfl, rfl, rfl⟩ | ⟨reply, rest, rfl, h, hrest⟩)
    · exact .last (.fail rfl)
    · exact .more (.select h) hrest

/-- An insertion goes on with one more uncommitted row. -/
theorem evaluates_insert_iff {row : Row} {next : Tx Row ρ} :
    Evaluates schema committed writes (.insert row onError next) moves rows result ↔
      FailsAtOnce onError moves rows result ∨
        ∃ reply rest, moves = .go reply :: rest ∧
          schema.admits (committed ++ writes) row = true ∧
          schema.taken (committed ++ writes) (schema.key row) = false ∧
          Evaluates schema committed (writes ++ [row]) next rest rows result := by
  constructor
  · intro h
    cases h with
    | last h =>
      cases h with
      | fail h => exact Or.inl ⟨rfl, rfl, (Option.some.inj h).symm⟩
    | more h hrest =>
      cases h with
      | insert hadmits htaken hheld => exact Or.inr ⟨_, _, rfl, hadmits, htaken, hrest⟩
  · rintro (⟨rfl, rfl, rfl⟩ | ⟨reply, rest, rfl, hadmits, htaken, hrest⟩)
    · exact .last (.fail rfl)
    · exact .more (.insert hadmits htaken rfl) hrest

/-- An insertion that ignores conflicts inserts the row unless its key is taken. -/
theorem evaluates_insertIgnore_iff {row : Row} {next : Bool → Tx Row ρ} :
    Evaluates schema committed writes (.insertIgnore row onError next) moves rows result ↔
      FailsAtOnce onError moves rows result ∨
        ∃ reply rest, moves = .go reply :: rest ∧
          (schema.taken (committed ++ writes) (schema.key row) = true ∧
              Evaluates schema committed writes (next false) rest rows result ∨
            schema.admits (committed ++ writes) row = true ∧
              schema.taken (committed ++ writes) (schema.key row) = false ∧
              Evaluates schema committed (writes ++ [row]) (next true) rest rows result) := by
  constructor
  · intro h
    cases h with
    | last h =>
      cases h with
      | fail h => exact Or.inl ⟨rfl, rfl, (Option.some.inj h).symm⟩
    | more h hrest =>
      cases h with
      | ignored htaken => exact Or.inr ⟨_, _, rfl, Or.inl ⟨htaken, hrest⟩⟩
      | inserted hadmits htaken hheld =>
        exact Or.inr ⟨_, _, rfl, Or.inr ⟨hadmits, htaken, hrest⟩⟩
  · rintro (⟨rfl, rfl, rfl⟩ | ⟨reply, rest, rfl, ⟨htaken, hrest⟩ | ⟨hadmits, htaken, hrest⟩⟩)
    · exact .last (.fail rfl)
    · exact .more (.ignored htaken) hrest
    · exact .more (.inserted hadmits htaken rfl) hrest

end Meaning

section Execution

variable [DecidableEq Row] [DecidableEq Key] {schema : Schema Row Key}

/-- A statement that can be executed is executed. -/
theorem advance_of_advances {held : Key → Bool} {committed writes rows : List Row} {tx : Tx Row ρ}
    {move : Move Row} {session : Session Row ρ}
    (h : Advances schema held committed writes tx move rows session) :
    advance schema held committed writes tx move = some (rows, session) := by
  cases h with
  | abort result reply => rfl
  | commit onError result reply => rfl
  | select h => rw [advance, if_pos (List.isPerm_iff.mpr h)]
  | insert hadmits htaken hheld => simp [advance, hadmits, htaken, hheld]
  | ignored htaken => rw [advance, if_pos htaken]
  | inserted hadmits htaken hheld => simp [advance, hadmits, htaken, hheld]
  | @fail tx result h =>
    cases tx with
    | abort result => simp [Tx.onError] at h
    | _ => simp [advance, h]

/-- What `runAlone` computes is what a transaction means. -/
theorem runAlone_eq_some_iff {committed writes rows : List Row} {tx : Tx Row ρ}
    {moves : List (Move Row)} {result : ρ} :
    runAlone schema committed writes tx moves = some (rows, result) ↔
      Evaluates schema committed writes tx moves rows result := by
  constructor
  · intro h
    induction moves generalizing writes tx with
    | nil => simp [runAlone] at h
    | cons move moves ih =>
      rw [runAlone] at h
      split at h
      case h_1 hadv => exact .more (advances_of_advance hadv) (ih h)
      case h_2 hadv =>
        split at h
        case isTrue hmoves =>
          obtain ⟨rfl, rfl⟩ := Prod.mk.inj (Option.some.inj h)
          rw [List.isEmpty_iff.mp hmoves]
          exact .last (advances_of_advance hadv)
        case isFalse => simp at h
      case h_3 => simp at h
  · intro h
    induction h with
    | last h => simp [runAlone, advance_of_advances h]
    | more h hrest ih =>
      rw [runAlone, advance_of_advances h]
      exact ih

variable [Fintype ι] [DecidableEq ι] {s : State ι Row ρ} {i : ι}

/-- A statement of a transaction while all others have no uncommitted rows. -/
theorem State.next_of_advances {writes rows : List Row} {tx : Tx Row ρ} {move : Move Row}
    {session : Session Row ρ} (hs : s.session i = .running writes tx)
    (hothers : ∀ j, j ≠ i → (s.session j).pending = [])
    (h : Advances schema (fun _ => false) s.committed writes tx move rows session) :
    s.next schema i move = some
      { committed := s.committed ++ rows, session := Function.update s.session i session } := by
  have hheld : s.heldByOthers schema i = fun _ => false := by
    funext key
    refine State.heldByOthers_eq_false_iff.mpr fun j hj row hrow => ?_
    rw [hothers j hj] at hrow
    exact absurd hrow List.not_mem_nil
  unfold State.next
  rw [hs]
  simp only [hheld, advance_of_advances h, Option.map_some]

/-- A transaction that runs while all others have no uncommitted rows does what it does alone. -/
theorem State.execute_of_evaluates {committed writes rows : List Row} {tx : Tx Row ρ}
    {moves : List (Move Row)} {result : ρ} (hcommitted : s.committed = committed)
    (hs : s.session i = .running writes tx)
    (hothers : ∀ j, j ≠ i → (s.session j).pending = [])
    (h : Evaluates schema committed writes tx moves rows result) :
    ∃ s', s.execute schema (moves.map (Prod.mk i)) = some s' ∧ s'.committed = committed ++ rows ∧
      (s'.session i).result = some result ∧ ∀ j, j ≠ i → s'.session j = s.session j := by
  induction h generalizing s with
  | last h =>
    have hnext := State.next_of_advances hs hothers (hcommitted ▸ h)
    refine ⟨_, by rw [List.map_singleton, State.execute, hnext]; rfl, by rw [hcommitted], ?_, ?_⟩
    · simp only [Function.update_self, Session.result_ended]
    · exact fun j hj => Function.update_of_ne hj _ _
  | @more writes writes' rows rows' tx tx' move moves result h hrest ih =>
    have hnext := State.next_of_advances hs hothers (hcommitted ▸ h)
    have hrows : rows' = [] := by cases h <;> rfl
    have hsame : ∀ j, j ≠ i →
        Function.update s.session i (.running writes' tx') j = s.session j :=
      fun j hj => Function.update_of_ne hj _ _
    obtain ⟨s', hexec, hcommitted', hresult, hothers'⟩ := @ih
      { committed := s.committed ++ rows', session := Function.update s.session i _ }
      (by rw [hrows, List.append_nil, hcommitted]) (Function.update_self _ _ _)
      (fun j hj => (congrArg Session.pending (hsame j hj)).trans (hothers j hj))
    refine ⟨s', ?_, hcommitted', hresult, fun j hj => (hothers' j hj).trans (hsame j hj)⟩
    rw [List.map_cons, State.execute, hnext]
    exact hexec

/-- A transaction that runs alone keeps the tables valid. -/
theorem Schema.Valid.of_evaluates {committed rows : List Row} {tx : Tx Row ρ}
    {moves : List (Move Row)} {result : ρ} (hvalid : schema.Valid committed)
    (h : Evaluates schema committed [] tx moves rows result) :
    schema.Valid (committed ++ rows) := by
  have hcommitted : (State.start committed fun _ : Unit => tx).committed = committed := rfl
  obtain ⟨s', hexec, hcommitted', -, -⟩ :=
    State.execute_of_evaluates hcommitted rfl (fun j hj => (hj (Subsingleton.elim j ())).elim) h
  rw [← hcommitted']
  exact ((Run.of_execute hexec).consistent hvalid).valid

end Execution

end ReadCommitted
