import Pf2eParser.Repository.Invariant

/-!
# Concurrent parses of one key

Any number of calls ask for the same logical parse, and none of them finds it in the initial tables.
Each call that is not rolled back has parsed the text for itself, with UUIDs of its own, and leaves
on one of three paths: it finds the run, it loses the race for the run, or it wins it.  All of them
answer with the candidates of the winner, because these are the ones that are stored
(`SessionAt.succeeded`), and there is one winner, because the row of the run can come from one
transaction only.
-/

namespace Pf2eParser

open Text ReadCommitted

variable {E : Externals} {tables : List Row} {call : Call} {session : Session Row ParseResult}

/-- What is known when a call has succeeded. -/
structure Succeeded (E : Externals) (call : Call) (tables written : List Row)
    (outcome : ParseOutcome) : Prop where
  /-- The call had a text. -/
  isReadable : call.IsReadable
  /-- It answers about its own source. -/
  source_eq : outcome.source = call.source
  /-- Its run is in the tables. -/
  hasRun : HasRun tables (call.key E)
  /-- The candidates are the stored ones. -/
  stored : Stored E tables (call.key E) outcome.candidates
  /-- A call that reports a new parse has committed its rows. -/
  written_of_fresh : outcome.wasAlreadyProcessed = false → written = call.rows E

/-- A call that has succeeded has reached one of two points: it won, or it answers with what it has
loaded. -/
theorem SessionAt.succeeded (h : SessionAt E call tables session) {outcome : ParseOutcome}
    (hresult : session.result = some (.ok outcome)) :
    Succeeded E call tables session.written outcome := by
  cases h with
  | fresh hread hrun hs =>
    obtain rfl := Except.ok.inj (Option.some.inj hresult)
    exact ⟨hread, rfl, hrun, hs, fun _ => rfl⟩
  | repeated hread hrun hs =>
    obtain rfl := Except.ok.inj (Option.some.inj hresult)
    exact ⟨hread, rfl, hrun, hs, fun hnew => absurd hnew Bool.noConfusion⟩
  | _ => simp [repositoryError] at hresult

/-- A call that has committed a row reports a new parse. -/
theorem SessionAt.result_of_mem_written (h : SessionAt E call tables session) {row : Row}
    (hrow : row ∈ session.written) :
    row ∈ call.rows E ∧ session.result = some (.ok ⟨call.source, call.candidates E, false⟩) := by
  cases h with
  | fresh hread hrun hs => exact ⟨hrow, rfl⟩
  | _ => exact absurd hrow List.not_mem_nil

variable {ι : Type} {calls : ι → Call} {key : RunKey} {initial : List Row}
  {s : State ι Row ParseResult}

/-- The call has won the race for its run. -/
def IsWinner (s : State ι Row ParseResult) (i : ι) : Prop :=
  ∃ outcome, (s.session i).result = some (.ok outcome) ∧ outcome.wasAlreadyProcessed = false

/-- There is only one winner. -/
theorem IsWinner.unique (hinv : Inv E calls initial s) (hkey : ∀ i, (calls i).key E = key) {i j : ι}
    (hi : IsWinner s i) (hj : IsWinner s j) : i = j := by
  have hwritten : ∀ k, IsWinner s k → (calls k).runRow E ∈ (s.session k).rows := by
    rintro k ⟨outcome, hresult, hnew⟩
    rw [Session.mem_rows_iff, ((hinv.sessionAt k).succeeded hresult).written_of_fresh hnew]
    exact Or.inr List.mem_cons_self
  by_contra hne
  refine hinv.consistent.rows_disjoint i j hne _ (hwritten i hi) _ (hwritten j hj) ?_
  change ((calls i).runRow E).key = ((calls j).runRow E).key
  rw [key_runRow, key_runRow, hkey, hkey]

/-- A run that is not in the initial tables has a winner. -/
theorem Inv.exists_winner (hinv : Inv E calls initial s) (hnew : ¬ HasRun initial key)
    (hrun : HasRun s.committed key) : ∃ i, (calls i).key E = key ∧
      (s.session i).result = some (.ok ⟨(calls i).source, (calls i).candidates E, false⟩) := by
  obtain ⟨row, hrow, hrowkey⟩ := hrun
  rcases (hinv.consistent.mem_committed_iff row).mp hrow with hold | ⟨i, hwritten⟩
  · exact absurd ⟨row, hold, hrowkey⟩ hnew
  · obtain ⟨hmem, hresult⟩ := (hinv.sessionAt i).result_of_mem_written hwritten
    have hkey : HasRun ([] ++ (calls i).rows E) key := ⟨row, hmem, hrowkey⟩
    exact ⟨i, ((hasRun_append_rows.mp hkey).resolve_left not_hasRun_nil).symm, hresult⟩

/-- What concurrent parses of one key agree on. -/
structure Agreement (E : Externals) (key : RunKey) (s : State ι Row ParseResult) : Prop where
  /-- All successful calls return the same candidates, identities included. -/
  candidates_perm : ∀ i j outcome outcome', (s.session i).result = some (.ok outcome) →
    (s.session j).result = some (.ok outcome') → outcome.candidates.Perm outcome'.candidates
  /-- Once a call has succeeded, its run is in the tables exactly once. -/
  one_run : ∀ i outcome, (s.session i).result = some (.ok outcome) →
    (s.committed.filter (isRun key)).length = 1
  /-- Once a call has succeeded, the rows of its run are exactly those of the returned candidates.
  -/
  candidates_stored : ∀ i outcome, (s.session i).result = some (.ok outcome) →
    (s.committed.filter (isCandidateOf key)).Perm (outcome.candidates.map (candidateRow E key))
  /-- Once a call has succeeded, exactly one call has reported a new parse. -/
  one_winner : ∀ i outcome, (s.session i).result = some (.ok outcome) → ∃! j, IsWinner s j

/-- In every interleaving, with failures at any statement, concurrent parses of one key agree. -/
theorem parseOnce_agreement [Fintype ι] [DecidableEq ι] (hE : E.Lawful)
    (hkey : ∀ i, (calls i).key E = key) (hinitial : schema.Valid initial)
    (hnew : ¬ HasRun initial key) {moves : List (ι × Move Row)}
    (hrun : Run schema (fun _ _ _ => True)
      (State.start initial fun i => parseOnce E (calls i)) moves s) :
    Agreement E key s := by
  have hinv : Inv E calls initial s :=
    Inv.of_run hE hinitial (fun i h => absurd (hkey i ▸ h) hnew) hrun
  have hok : ∀ i outcome, (s.session i).result = some (.ok outcome) →
      HasRun s.committed key ∧ Stored E s.committed key outcome.candidates := by
    intro i outcome hresult
    have hi := (hinv.sessionAt i).succeeded hresult
    exact hkey i ▸ ⟨hi.hasRun, hi.stored⟩
  refine ⟨fun i j outcome outcome' hi hj => (hok i outcome hi).2.perm hE (hok j outcome' hj).2,
    fun i outcome hi => ?_, fun i outcome hi => (hok i outcome hi).2, fun i outcome hi => ?_⟩
  · obtain ⟨row, hrow, hrowkey⟩ := (hok i outcome hi).1
    have hmem : row ∈ s.committed.filter (isRun key) :=
      List.mem_filter.mpr ⟨hrow, isRun_eq_true_iff.mpr hrowkey⟩
    have hpos := List.length_pos_of_mem hmem
    have hle := length_filter_isRun_le_one hinv.consistent.valid key
    omega
  · obtain ⟨j, -, hresult⟩ := hinv.exists_winner hnew (hok i outcome hi).1
    have hj : IsWinner s j := ⟨_, hresult, rfl⟩
    exact ⟨j, hj, fun k hk => IsWinner.unique hinv hkey hk hj⟩

/-! ## A race -/

/-- A text that is parsed into one candidate. -/
def exampleSource : SourceReference :=
  ⟨0, 1, List.Vector.replicate 32 0, "p".toList, "x".toList⟩

/-- Who calls in an example. -/
inductive Caller where
  | first
  | second
  | third
  deriving DecidableEq

instance : Fintype Caller where
  elems := {.first, .second, .third}
  complete caller := by cases caller <;> decide

/-- The number of UUIDs that the callers before this one may draw. -/
def Caller.offset : Caller → ℕ
  | first => 0
  | second => 10
  | third => 20

/-- Calls for one text, with different UUIDs. -/
def exampleCalls (caller : Caller) : Call :=
  ⟨"v".toList, exampleSource, fun k => .ofNat 128 (caller.offset + k)⟩

/-- Two calls look for the run before the first one inserts it; the second one has parsed in vain
and answers with what the first one has stored. -/
def exampleRace : List (Caller × Move Row) :=
  let key := (exampleCalls .first).key .reference
  let stored := ((exampleCalls .first).candidates .reference).map (candidateRow .reference key)
  [(.first, .go []), (.second, .go []), (.first, .go []), (.second, .go []), (.first, .go []),
    (.first, .go []), (.first, .go []), (.second, .go []), (.second, .go stored), (.second, .go [])]

/-- The state after the race. -/
def exampleFinal : Option (State Caller Row ParseResult) :=
  (State.start [] fun i => parseOnce .reference (exampleCalls i)).execute schema exampleRace

/-- Both calls of the race succeed. -/
theorem result_exampleFinal :
    exampleFinal.map (fun s => ((s.session .first).result, (s.session .second).result)) =
      some (some (.ok ⟨exampleSource, (exampleCalls .first).candidates .reference, false⟩),
        some (.ok ⟨exampleSource, (exampleCalls .first).candidates .reference, true⟩)) := by
  decide +kernel

/-- The two calls of the race agree: the second one answers with the candidate of the first one. -/
theorem parseOnce_agreement_race : ∃ s, exampleFinal = some s ∧
    Agreement .reference ((exampleCalls .first).key .reference) s ∧
    (s.session .first).result =
      some (.ok ⟨exampleSource, (exampleCalls .first).candidates .reference, false⟩) ∧
    (s.session .second).result =
      some (.ok ⟨exampleSource, (exampleCalls .first).candidates .reference, true⟩) := by
  obtain ⟨s, hs, hresult⟩ := Option.map_eq_some_iff.mp result_exampleFinal
  obtain ⟨h₁, h₂⟩ := Prod.mk.inj hresult
  refine ⟨s, hs, ?_, h₁, h₂⟩
  have hkey : ∀ i, (exampleCalls i).key .reference = (exampleCalls .first).key .reference :=
    fun _ => rfl
  exact parseOnce_agreement Externals.reference_lawful hkey .nil not_hasRun_nil (.of_execute hs)

end Pf2eParser
