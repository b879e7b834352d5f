import Pf2eParser.ReadCommitted.Order
import Pf2eParser.Repository.DigestRace
import Pf2eParser.Repository.Refinement

/-!
# Concurrent calls, one after the other

The calls of a run without the digest race look as if they had been executed one after the other, in
the order in which they have ended: each of them answers as the abstract state does at its place,
and the tables hold the last abstract state (`linearized_of_serialized`).  So a call takes effect
between its first statement and its last one, whatever other calls did in between.
-/

namespace Pf2eParser

open Text ReadCommitted

variable {E : Externals} {call : Call} {tables writes rows : List Row} {tx : Tx Row ParseResult}
  {held : RowKey → Bool} {move : Move Row} {session : Session Row ParseResult}

/-! ## The last statement of a call -/

/-- Every statement of a call fails with a storage error. -/
theorem SessionAt.onError_eq (hat : SessionAt E call tables (.running writes tx))
    {result : ParseResult} (h : tx.onError = some result) : result = repositoryError := by
  cases hat with
  | start =>
    unfold Pf2eParser.parseOnce at h
    split at h
    case isTrue => cases h
    case isFalse => exact (Option.some.inj h).symm
  | mismatch => cases h
  | @inserting _ done rest hsplit => cases rest <;> exact (Option.some.inj h).symm
  | _ => exact (Option.some.inj h).symm

/-- A statement commits nothing, or all rows of its transaction. -/
theorem rows_eq_written_of_advances
    (h : Advances schema held tables writes tx move rows session) : rows = session.written := by
  cases h.effect <;> rfl

/-- A run whose digest is unique does not clash with another one. -/
theorem DigestUnique.not_conflicts (h : DigestUnique tables) {key : RunKey}
    (hrun : HasRun tables key) : ¬ Conflicts tables key := by
  rintro ⟨run, hmem, hid, hversion, hne⟩
  obtain ⟨row, hrow, hkey⟩ := hrun
  cases row with
  | run run' =>
    obtain rfl : run'.toRunKey = key := RowKey.run.inj hkey
    exact hne (h run run' hmem hrow hid hversion)
  | candidate candidate => cases hkey

/-- The last statement of a call, if its digest check is still right: the answer is the one of a
call that is executed alone on the tables before it. -/
theorem SessionAt.answered (hat : SessionAt E call tables (.running writes tx))
    (h : Advances schema held tables writes tx move rows session)
    (hstep : Advanced E call tables move rows session) (hunique : DigestUnique tables)
    (hwindow : InWindow E call (.running writes tx) → ¬ Conflicts tables (call.key E))
    {result : ParseResult} (hresult : session.result = some result) {own : List (Move Row)}
    (hok : Move.fail ∉ own) : Answered E call tables (own ++ [move]) rows result := by
  cases move with
  | fail =>
    cases h with
    | fail honError =>
      obtain rfl := hat.onError_eq honError
      obtain rfl := Option.some.inj hresult
      exact .failed List.mem_concat_self
  | go reply =>
    have hok' : Move.fail ∉ own ++ [Move.go reply] := by simp [hok]
    have hrows := rows_eq_written_of_advances h
    have hafter := hstep.sessionAt
    cases hafter with
    | fresh hread hrun hs =>
      obtain rfl := Option.some.inj hresult
      rw [Session.written_ended] at hrows
      subst hrows
      obtain ⟨-, rfl, rfl, -⟩ := inserting_of_rows_ne_nil hat h (List.cons_ne_nil _ _)
      have hnew : ¬ HasRun tables (call.key E) := by
        rcases hstep.rows_eq with hnone | ⟨-, hnew⟩
        · exact absurd hnone (List.cons_ne_nil _ _)
        · exact hnew
      exact .fresh hok' hread (hwindow (.inserting (call.candidates E) [])) hnew
    | repeated hread hrun hs =>
      obtain rfl := Option.some.inj hresult
      obtain rfl : rows = [] := hrows
      rw [List.append_nil] at hrun hs
      exact .repeated hok' hread (hunique.not_conflicts hrun) hrun hs
    | blank hblank =>
      obtain rfl := Option.some.inj hresult
      obtain rfl : rows = [] := hrows
      exact .blank hok' hblank
    | mismatched hread hconflict =>
      obtain rfl := Option.some.inj hresult
      obtain rfl : rows = [] := hrows
      rw [List.append_nil] at hconflict
      exact .mismatched hok' hread hconflict
    | failed hread => exact absurd (hstep.failed rfl) (by simp)
    | _ => cases hresult

/-! ## All runs -/

section Runs

variable {ι : Type} [DecidableEq ι] {calls : ι → Call} {s s' : State ι Row ParseResult}

/-- The calls that have ended, in the order of their last statements. -/
def entriesOf (calls : ι → Call) (moves : List (ι × Move Row)) (s : State ι Row ParseResult) :
    List Entry :=
  (ended moves s).map fun (i, own, answer) => ⟨calls i, own, answer⟩

/-- A run of concurrent calls looks like a sequence of calls. -/
structure Linearized (E : Externals) (calls : ι → Call) (moves : List (ι × Move Row))
    (s : State ι Row ParseResult) (store : Store) : Prop where
  /-- In the order in which they have ended, the calls answer as the abstract state does. -/
  behaves : Behaves E (entriesOf calls moves s) store
  /-- The tables hold the last abstract state. -/
  represents : Represents E s.committed store
  /-- These are all calls that have ended, each of them with its answer. -/
  complete : ∀ i answer, (s.session i).result = some answer ↔
    (i, movesOf moves i, answer) ∈ ended moves s
  /-- No call is listed twice. -/
  nodup : ((ended moves s).map Prod.fst).Nodup
  /-- A call that has ended before the last statement of another one comes before it. -/
  realtime : ∀ before after i j, moves = before ++ after → (s.session i).result.isSome →
    (s.session j).result.isSome → i ∉ after.map Prod.fst → j ∈ after.map Prod.fst →
    [i, j].Sublist ((ended moves s).map Prod.fst)

/-- What holds along a run without the race. -/
structure LinearInv (E : Externals) (calls : ι → Call) (moves : List (ι × Move Row))
    (s : State ι Row ParseResult) : Prop where
  inv : Inv E calls [] s
  unraced : Unraced E calls s
  /-- No statement of a call that is still running has failed. -/
  unfailed : ∀ i, (s.session i).result = none → Move.fail ∉ movesOf moves i
  /-- A call that has ended has made a statement. -/
  moved : ∀ i answer, (s.session i).result = some answer → i ∈ moves.map Prod.fst
  coupled : ∃ store, Behaves E (entriesOf calls moves s) store ∧ Represents E s.committed store

variable [Fintype ι]

/-- A statement keeps the invariant. -/
theorem LinearInv.next (hE : E.Lawful) {moves : List (ι × Move Row)}
    (h : LinearInv E calls moves s) {i : ι} {move : Move Row}
    (hserialized : Serialized E calls s i move) (hn : s.next schema i move = some s') :
    LinearInv E calls (moves ++ [(i, move)]) s' := by
  have hinv' := h.inv.next hE hn
  have hunraced' := h.unraced.next h.inv hserialized hn
  obtain ⟨writes, tx, rows, session, hs, hadv, hcommitted, hs', hothers⟩ := State.next_cases hn
  have hrunning : (s.session i).result = none := by rw [hs, Session.result_running]
  have hat : SessionAt E (calls i) s.committed (.running writes tx) := hs ▸ h.inv.sessionAt i
  have hstep : Advanced E (calls i) s.committed move rows session := by
    refine hat.advance hE h.inv.consistent.valid (h.inv.stored i) (fun row hrow => ?_) hadv
    exact h.inv.consistent.pending_disjoint i row (by rw [hs]; exact hrow)
  have hentries : entriesOf calls (moves ++ [(i, move)]) s' = entriesOf calls moves s ++
      (session.result.map fun answer =>
        (⟨calls i, movesOf moves i ++ [move], answer⟩ : Entry)).toList := by
    unfold entriesOf
    rw [ended_snoc hrunning hothers, List.map_append, hs']
    cases session.result <;> rfl
  refine ⟨hinv', hunraced', fun j hj => ?_, fun j answer hj => ?_, ?_⟩
  · by_cases hji : j = i
    · subst hji
      rw [movesOf_snoc_self, List.mem_append, List.mem_singleton, not_or]
      refine ⟨h.unfailed j hrunning, ?_⟩
      rintro rfl
      rw [hs'] at hj
      cases hadv with
      | fail honError => cases hj
    · rw [hothers j hji] at hj
      rw [movesOf_snoc_of_ne moves move hji]
      exact h.unfailed j hj
  · by_cases hji : j = i
    · simp [hji]
    · rw [hothers j hji] at hj
      have hmoved := h.moved j answer hj
      rw [List.map_append]
      exact List.mem_append_left _ hmoved
  · obtain ⟨store, hbehaves, hrepresents⟩ := h.coupled
    rw [hentries, hcommitted]
    cases hresult : session.result with
    | none =>
      have hnone : rows = [] := by
        rw [rows_eq_written_of_advances hadv]
        cases session with
        | running writes' tx' => rfl
        | ended written result => cases hresult
      rw [hnone, List.append_nil]
      exact ⟨store, by simpa using hbehaves, hrepresents⟩
    | some answer =>
      have hanswered := hat.answered hadv hstep h.unraced.unique
        (fun hwindow => h.unraced.window i (hs ▸ hwindow)) hresult (h.unfailed i hrunning)
      obtain ⟨store', hrepresents', hnext⟩ :=
        hrepresents.answered hE (hcommitted ▸ hinv'.consistent.valid) hanswered
      exact ⟨store', hnext _ hbehaves, hrepresents'⟩

/-- The invariant holds along every run without the race. -/
theorem LinearInv.of_run (hE : E.Lawful) {moves : List (ι × Move Row)}
    (hrun : Run schema (Serialized E calls) (State.start [] fun i => parseOnce E (calls i)) moves
      s) : LinearInv E calls moves s := by
  induction hrun with
  | nil =>
    exact ⟨.start .nil fun i h => absurd h not_hasRun_nil,
      ⟨fun run run' h => absurd h List.not_mem_nil, fun i h => absurd h not_inWindow_parseOnce⟩,
      fun i _ => List.not_mem_nil, fun i answer h => by simp [State.start] at h,
      Store.empty, .nil, .nil⟩
  | snoc h ha hn ih => exact ih.next hE ha hn

/-- From empty tables, in every interleaving in which no call commits a new run during the window of
a clashing one, the calls look as if they had been executed one after the other, in the order in
which they have ended. -/
theorem linearized_of_serialized (hE : E.Lawful) {moves : List (ι × Move Row)}
    (hrun : Run schema (Serialized E calls) (State.start [] fun i => parseOnce E (calls i)) moves
      s) : ∃ store, Linearized E calls moves s store := by
  have h := LinearInv.of_run hE hrun
  obtain ⟨store, hbehaves, hrepresents⟩ := h.coupled
  have hlisted : ∀ i, (s.session i).result.isSome →
      i ∈ (ended moves s).map Prod.fst := by
    intro i hi
    obtain ⟨answer, hanswer⟩ := Option.isSome_iff_exists.mp hi
    exact List.mem_map.mpr ⟨_, mem_ended_iff.mpr ⟨h.moved i answer hanswer, rfl, hanswer⟩, rfl⟩
  refine ⟨store, hbehaves, hrepresents, fun i answer => ?_, nodup_map_fst_ended _ _, ?_⟩
  · rw [mem_ended_iff]
    exact ⟨fun hanswer => ⟨h.moved i answer hanswer, rfl, hanswer⟩, fun hmem => hmem.2.2⟩
  · rintro before after i j rfl hi hj hlast hlater
    exact pair_sublist_ended (hlisted i hi) hlast (hlisted j hj) hlater

end Runs

/-- Two calls that overlap look as if the one that has inserted the run had been executed first. -/
theorem linearized_exampleRace : ∃ s store, exampleFinal = some s ∧
    (s.session .second).result =
      some (.ok ⟨exampleSource, (exampleCalls .first).candidates .reference, true⟩) ∧
    Linearized .reference exampleCalls exampleRace s store := by
  obtain ⟨s, hs, hresult⟩ := Option.map_eq_some_iff.mp result_exampleFinal
  have hrun : Run schema (Serialized .reference exampleCalls)
      (State.start [] fun i => parseOnce .reference (exampleCalls i)) exampleRace s := by
    refine (Run.of_execute hs).mono fun t i move _ _ _ j _ hclash => ?_
    exact absurd rfl hclash.2.2
  obtain ⟨store, hlinearized⟩ := linearized_of_serialized Externals.reference_lawful hrun
  exact ⟨s, store, hs, (Prod.mk.inj hresult).2, hlinearized⟩

end Pf2eParser
