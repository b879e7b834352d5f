import Pf2eParser.ReadCommitted.Alone
import Pf2eParser.Repository.Invariant

/-!
# A call alone

What `parse_once` commits and answers while no other call is open.  `Answered` lists the five ways
in which it ends, each with the condition on the tables under which it is taken;
`Answered.of_evaluates` says that there is no other one, and `exists_evaluates` that a call ends
without a failure if its UUIDs are new.
-/

namespace Pf2eParser

open Text ReadCommitted

/-- The rows that a call commits with the statements `moves` while no other call is open, and its
answer. -/
inductive Answered (E : Externals) (call : Call) (tables : List Row) :
    List (Move Row) → List Row → ParseResult → Prop
  /-- A statement has failed. -/
  | failed {moves : List (Move Row)} (hfail : Move.fail ∈ moves) :
      Answered E call tables moves [] repositoryError
  /-- The source text is blank. -/
  | blank {moves : List (Move Row)} (hok : Move.fail ∉ moves) (hblank : ¬ call.IsReadable) :
      Answered E call tables moves [] (.error .emptySourceText)
  /-- The document version has another digest. -/
  | mismatched {moves : List (Move Row)} (hok : Move.fail ∉ moves) (hread : call.IsReadable)
      (h : Conflicts tables (call.key E)) :
      Answered E call tables moves [] (.error .sourceDigestMismatch)
  /-- The run is in the tables. -/
  | repeated {moves : List (Move Row)} (hok : Move.fail ∉ moves) (hread : call.IsReadable)
      (hfree : ¬ Conflicts tables (call.key E)) (hrun : HasRun tables (call.key E))
      {candidates : List Candidate} (hs : Stored E tables (call.key E) candidates) :
      Answered E call tables moves [] (.ok ⟨call.source, candidates, true⟩)
  /-- The run is new. -/
  | fresh {moves : List (Move Row)} (hok : Move.fail ∉ moves) (hread : call.IsReadable)
      (hfree : ¬ Conflicts tables (call.key E)) (hnew : ¬ HasRun tables (call.key E)) :
      Answered E call tables moves (call.rows E) (.ok ⟨call.source, call.candidates E, false⟩)

variable {E : Externals} {call : Call} {tables rows : List Row} {moves : List (Move Row)}
  {result : ParseResult}

/-- One more statement in front that has not failed. -/
theorem Answered.cons (h : Answered E call tables moves rows result) (reply : List Row) :
    Answered E call tables (.go reply :: moves) rows result := by
  have hmem : Move.fail ∉ moves → Move.fail ∉ Move.go reply :: moves := by simp
  cases h with
  | failed hfail => exact .failed (List.mem_cons_of_mem _ hfail)
  | blank hok hblank => exact .blank (hmem hok) hblank
  | mismatched hok hread h => exact .mismatched (hmem hok) hread h
  | repeated hok hread hfree hrun hs => exact .repeated (hmem hok) hread hfree hrun hs
  | fresh hok hread hfree hnew => exact .fresh (hmem hok) hread hfree hnew

/-- A failed statement. -/
theorem Answered.of_failsAtOnce (h : FailsAtOnce repositoryError moves rows result) :
    Answered E call tables moves rows result := by
  obtain ⟨rfl, rfl, rfl⟩ := h
  exact .failed (List.mem_singleton_self _)

/-- A call commits nothing, or a new run. -/
theorem Answered.rows_eq (h : Answered E call tables moves rows result) :
    rows = [] ∨ rows = call.rows E ∧ ¬ HasRun tables (call.key E) ∧
      result = .ok ⟨call.source, call.candidates E, false⟩ := by
  cases h with
  | fresh hok hread hfree hnew => exact Or.inr ⟨rfl, hnew, rfl⟩
  | _ => exact Or.inl rfl

/-- A call that succeeds answers with what is stored for its source, and reports a new parse if its
run was not in the tables. -/
theorem Answered.stored (hvalid : schema.Valid tables) {outcome : ParseOutcome}
    (h : Answered E call tables moves rows (.ok outcome)) :
    outcome.source = call.source ∧ HasRun (tables ++ rows) (call.key E) ∧
      Stored E (tables ++ rows) (call.key E) outcome.candidates ∧
      (outcome.wasAlreadyProcessed = false → ¬ HasRun tables (call.key E)) := by
  cases h with
  | repeated hok hread hfree hrun hs =>
    rw [List.append_nil]
    exact ⟨rfl, hrun, hs, fun h => absurd h (by simp)⟩
  | fresh hok hread hfree hnew =>
    obtain ⟨hrun, hs⟩ := stored_append_rows hvalid hnew
    exact ⟨rfl, hrun, hs, fun _ => hnew⟩

/-! ## Every way to end -/

/-- The replay of a run that is in the tables. -/
theorem answered_replay (hE : E.Lawful) (hread : call.IsReadable)
    (hfree : ¬ Conflicts tables (call.key E)) (hrun : HasRun tables (call.key E))
    (hstored : ∃ candidates, Stored E tables (call.key E) candidates)
    (h : Evaluates schema tables [] (replay E call) moves rows result) :
    Answered E call tables moves rows result := by
  rw [replay, loadCandidates, evaluates_select_iff] at h
  obtain h | ⟨reply, rest, rfl, hreply, h⟩ := h
  · exact .of_failsAtOnce h
  rw [List.append_nil] at hreply
  obtain ⟨candidates, hs⟩ := hstored
  obtain ⟨read, hread', hperm⟩ := mapM_decodeCandidate hE (hreply.trans hs)
  simp only [hread', evaluates_commit_iff] at h
  refine Answered.cons ?_ reply
  obtain h | ⟨reply', rfl, rfl, rfl⟩ := h
  · exact .of_failsAtOnce h
  · exact .repeated (by simp) hread hfree hrun (hs.of_perm hperm)

/-- The insertion of the remaining candidates. -/
theorem answered_insertCandidates (hread : call.IsReadable)
    (hfree : ¬ Conflicts tables (call.key E)) (hnew : ¬ HasRun tables (call.key E))
    {done rest : List Candidate} (hsplit : call.candidates E = done ++ rest)
    (h : Evaluates schema tables (call.runRow E :: done.map (candidateRow E (call.key E)))
      (insertCandidates E call rest) moves rows result) :
    Answered E call tables moves rows result := by
  induction rest generalizing done moves with
  | nil =>
    rw [insertCandidates, evaluates_commit_iff] at h
    rw [List.append_nil] at hsplit
    subst hsplit
    obtain h | ⟨reply, rfl, rfl, rfl⟩ := h
    · exact .of_failsAtOnce h
    · exact .fresh (by simp) hread hfree hnew
  | cons candidate rest ih =>
    rw [insertCandidates, evaluates_insert_iff] at h
    obtain h | ⟨reply, rest', rfl, -, -, h⟩ := h
    · exact .of_failsAtOnce h
    have hmore : call.candidates E = (done ++ [candidate]) ++ rest := by simp [hsplit]
    have hmap : call.runRow E :: done.map (candidateRow E (call.key E)) ++
        [candidateRow E (call.key E) candidate] =
          call.runRow E :: (done ++ [candidate]).map (candidateRow E (call.key E)) := by simp
    rw [hmap] at h
    exact (ih hmore h).cons reply

/-- The insertion of a run that is not in the tables. -/
theorem answered_insertRun (hread : call.IsReadable) (hfree : ¬ Conflicts tables (call.key E))
    (hnew : ¬ HasRun tables (call.key E))
    (h : Evaluates schema tables [] (insertRun E call) moves rows result) :
    Answered E call tables moves rows result := by
  rw [insertRun, evaluates_insertIgnore_iff] at h
  obtain h | ⟨reply, rest, rfl, ⟨htaken, h⟩ | ⟨-, -, h⟩⟩ := h
  · exact .of_failsAtOnce h
  · rw [List.append_nil, Schema.taken_eq_true_iff] at htaken
    exact absurd htaken hnew
  · exact (answered_insertCandidates hread hfree hnew (List.nil_append _).symm h).cons reply

/-- The search for the run. -/
theorem answered_findRun (hE : E.Lawful) (hvalid : schema.Valid tables)
    (hstored : HasRun tables (call.key E) → ∃ candidates, Stored E tables (call.key E) candidates)
    (hread : call.IsReadable) (hfree : ¬ Conflicts tables (call.key E))
    (h : Evaluates schema tables [] (findRun E call) moves rows result) :
    Answered E call tables moves rows result := by
  rw [findRun, evaluates_select_iff] at h
  obtain h | ⟨reply, rest, rfl, hreply, h⟩ := h
  · exact .of_failsAtOnce h
  rw [List.append_nil] at hreply
  refine Answered.cons ?_ reply
  rcases reply with _ | ⟨row, _ | ⟨row', others⟩⟩
  · have hnew : ¬ HasRun tables (call.key E) := by
      rintro ⟨row, hrow, hkey⟩
      have hmem := List.mem_filter.mpr ⟨hrow, isRun_eq_true_iff.mpr hkey⟩
      exact absurd (hreply.mem_iff.mpr hmem) List.not_mem_nil
    exact answered_insertRun hread hfree hnew h
  · have hmem := List.mem_filter.mp (hreply.mem_iff.mp (List.mem_singleton_self row))
    have hrun : HasRun tables (call.key E) := ⟨row, hmem.1, isRun_eq_true_iff.mp hmem.2⟩
    exact answered_replay hE hread hfree hrun (hstored hrun) h
  · have hlen := hreply.length_eq ▸ length_filter_isRun_le_one hvalid (call.key E)
    simp at hlen

/-- There is no other way for a call to end. -/
theorem Answered.of_evaluates (hE : E.Lawful) (hvalid : schema.Valid tables)
    (hstored : HasRun tables (call.key E) → ∃ candidates, Stored E tables (call.key E) candidates)
    (h : Evaluates schema tables [] (parseOnce E call) moves rows result) :
    Answered E call tables moves rows result := by
  unfold parseOnce at h
  split at h
  case isTrue hblank =>
    obtain ⟨reply, rfl, rfl, rfl⟩ := evaluates_abort_iff.mp h
    exact .blank (by simp) (by simp [Call.IsReadable, hblank])
  case isFalse hread =>
    have hread : call.IsReadable := by simpa [Call.IsReadable] using hread
    obtain h | ⟨reply, rest, rfl, hreply, h⟩ := evaluates_select_iff.mp h
    · exact .of_failsAtOnce h
    rw [List.append_nil] at hreply
    refine Answered.cons ?_ reply
    split at h
    case isTrue hany =>
      obtain ⟨reply', rfl, rfl, rfl⟩ := evaluates_abort_iff.mp h
      exact .mismatched (by simp) hread ((conflicts_iff_any hreply).mpr hany)
    case isFalse hany =>
      have hfree : ¬ Conflicts tables (call.key E) :=
        fun hconflict => hany ((conflicts_iff_any hreply).mp hconflict)
      exact answered_findRun hE hvalid hstored hread hfree h

/-! ## Every call ends -/

/-- The candidates of the call have UUIDs of their own, and none of them is in the tables. -/
structure Call.HasNewIds (E : Externals) (call : Call) (tables : List Row) : Prop where
  nodup : ((call.candidates E).map Candidate.candidateId).Nodup
  notMem : ∀ candidate ∈ call.candidates E, ∀ row ∈ tables,
    row.key ≠ .candidate (E.uuid.toStr candidate.candidateId)

/-- The transaction can end without a failure. -/
def CanEnd (tables writes : List Row) (tx : Tx Row ParseResult) : Prop :=
  ∃ moves rows result, Move.fail ∉ moves ∧ Evaluates schema tables writes tx moves rows result

/-- A transaction can end if it can end after one statement. -/
theorem CanEnd.of_rest {writes writes' : List Row} {tx tx' : Tx Row ParseResult} (reply : List Row)
    (h : CanEnd tables writes' tx')
    (hstep : ∀ moves rows result, Evaluates schema tables writes' tx' moves rows result →
      Evaluates schema tables writes tx (.go reply :: moves) rows result) :
    CanEnd tables writes tx := by
  obtain ⟨moves, rows, result, hok, heval⟩ := h
  exact ⟨.go reply :: moves, rows, result, by simpa using hok, hstep _ _ _ heval⟩

/-- A commit ends a transaction. -/
theorem canEnd_commit {writes : List Row} {onError answer : ParseResult} :
    CanEnd tables writes (.commit onError answer) :=
  ⟨[.go []], writes, answer, by simp, evaluates_commit_iff.mpr (Or.inr ⟨[], rfl, rfl, rfl⟩)⟩

/-- An abort ends a transaction. -/
theorem canEnd_abort {writes : List Row} {answer : ParseResult} :
    CanEnd tables writes (.abort answer) :=
  ⟨[.go []], [], answer, by simp, evaluates_abort_iff.mpr ⟨[], rfl, rfl, rfl⟩⟩

/-- A selection can be executed. -/
theorem canEnd_select {writes : List Row} {condition : Row → Bool} {onError : ParseResult}
    {next : List Row → Tx Row ParseResult}
    (h : CanEnd tables writes (next ((tables ++ writes).filter condition))) :
    CanEnd tables writes (.select condition onError next) :=
  h.of_rest _ fun _ _ _ heval => evaluates_select_iff.mpr (Or.inr ⟨_, _, rfl, .refl _, heval⟩)

/-- The confidence of a parsed candidate meets its check constraint. -/
theorem check_candidateRow {candidate : Candidate} (h : candidate ∈ call.candidates E)
    (key : RunKey) : schema.check (candidateRow E key candidate) = true := by
  obtain ⟨i, hi, rfl⟩ := mem_parseCandidates_iff.mp h
  have hall : ∀ confidence ∈ ([20, 55, 70, 75, 90] : List Confidence),
      0 ≤ confidence ∧ confidence ≤ 100 := by decide
  exact decide_eq_true (hall _ (confidence_parseBlock_mem _ _))

/-- The remaining candidates can be inserted. -/
theorem canEnd_insertCandidates (hE : E.Lawful) (hids : call.HasNewIds E tables)
    {done rest : List Candidate} (hsplit : call.candidates E = done ++ rest) :
    CanEnd tables (call.runRow E :: done.map (candidateRow E (call.key E)))
      (insertCandidates E call rest) := by
  induction rest generalizing done with
  | nil => exact canEnd_commit
  | cons candidate rest ih =>
    have hmem : candidate ∈ call.candidates E := by simp [hsplit]
    have hmore : call.candidates E = (done ++ [candidate]) ++ rest := by simp [hsplit]
    have hmap : call.runRow E :: (done ++ [candidate]).map (candidateRow E (call.key E)) =
        call.runRow E :: done.map (candidateRow E (call.key E)) ++
          [candidateRow E (call.key E) candidate] := by simp
    have hadmits : schema.admits
        (tables ++ call.runRow E :: done.map (candidateRow E (call.key E)))
        (candidateRow E (call.key E) candidate) = true := by
      refine Schema.admits_eq_true_iff.mpr ⟨check_candidateRow hmem _, fun key hkey => ?_⟩
      exact ⟨call.runRow E, by simp, Option.some.inj hkey⟩
    have hfree : schema.taken
        (tables ++ call.runRow E :: done.map (candidateRow E (call.key E)))
        (candidateRow E (call.key E) candidate).key = false := by
      refine Schema.taken_eq_false_iff.mpr fun row hrow => ?_
      rcases List.mem_append.mp hrow with hrow | hrow
      · exact hids.notMem candidate hmem row hrow
      rcases List.mem_cons.mp hrow with rfl | hrow
      · exact RowKey.noConfusion
      obtain ⟨candidate', hmem', rfl⟩ := List.mem_map.mp hrow
      have hnodup := hids.nodup
      rw [hsplit, List.map_append, List.nodup_append] at hnodup
      intro hkey
      refine hnodup.2.2 _ (List.mem_map_of_mem hmem') _ (List.mem_map_of_mem List.mem_cons_self) ?_
      exact hE.uuid.toStr_injective (RowKey.candidate.inj hkey)
    refine (ih hmore).of_rest [] fun moves rows result heval => ?_
    rw [hmap] at heval
    exact evaluates_insert_iff.mpr (Or.inr ⟨_, _, rfl, hadmits, hfree, heval⟩)

/-- The replay of a stored run can end. -/
theorem canEnd_replay (hE : E.Lawful)
    (hstored : ∃ candidates, Stored E tables (call.key E) candidates) :
    CanEnd tables [] (replay E call) := by
  obtain ⟨candidates, hs⟩ := hstored
  obtain ⟨read, hread, -⟩ := mapM_decodeCandidate hE hs
  refine canEnd_select ?_
  simp only [List.append_nil, hread]
  exact canEnd_commit

/-- A run that is not in the tables can be inserted with its candidates. -/
theorem canEnd_insertRun (hE : E.Lawful) (hids : call.HasNewIds E tables)
    (hnew : ¬ HasRun tables (call.key E)) : CanEnd tables [] (insertRun E call) := by
  have hadmits : schema.admits (tables ++ []) (call.runRow E) = true := by
    refine Schema.admits_eq_true_iff.mpr ⟨?_, fun key hkey => by cases hkey⟩
    exact decide_eq_true call.source.contentDigest.toList_length
  have hfree : schema.taken (tables ++ []) (call.runRow E).key = false := by
    rw [List.append_nil, Schema.taken_eq_false_iff]
    exact fun row hrow hkey => hnew ⟨row, hrow, hkey⟩
  refine (canEnd_insertCandidates hE hids (List.nil_append _).symm).of_rest [] ?_
  intro moves rows result heval
  exact evaluates_insertIgnore_iff.mpr (Or.inr ⟨_, _, rfl, Or.inr ⟨hadmits, hfree, heval⟩⟩)

/-- A call can end without a failure if its run is in the tables or its UUIDs are new. -/
theorem canEnd_parseOnce (hE : E.Lawful) (hvalid : schema.Valid tables)
    (hstored : HasRun tables (call.key E) → ∃ candidates, Stored E tables (call.key E) candidates)
    (hids : ¬ HasRun tables (call.key E) → call.HasNewIds E tables) :
    CanEnd tables [] (parseOnce E call) := by
  unfold parseOnce
  split
  case isTrue => exact canEnd_abort
  case isFalse =>
    refine canEnd_select ?_
    split
    case isTrue => exact canEnd_abort
    case isFalse =>
      refine canEnd_select ?_
      rw [List.append_nil]
      have hlen := length_filter_isRun_le_one hvalid (call.key E)
      have hrun : ∀ row, row ∈ tables.filter (isRun (call.key E)) ↔
          row ∈ tables ∧ row.key = .run (call.key E) := by
        intro row
        rw [List.mem_filter, isRun_eq_true_iff]
      generalize tables.filter (isRun (call.key E)) = found at hlen hrun
      rcases found with _ | ⟨row, _ | ⟨row', rest⟩⟩
      · have hnew : ¬ HasRun tables (call.key E) := by
          rintro ⟨row, hrow⟩
          exact absurd ((hrun row).mpr hrow) List.not_mem_nil
        exact canEnd_insertRun hE (hids hnew) hnew
      · exact canEnd_replay hE (hstored ⟨row, (hrun row).mp (List.mem_singleton_self row)⟩)
      · simp at hlen

/-- A call for a new run can insert it. -/
theorem exists_evaluates_fresh (hE : E.Lawful) (hvalid : schema.Valid tables)
    (hread : call.IsReadable) (hfree : ¬ Conflicts tables (call.key E))
    (hnew : ¬ HasRun tables (call.key E)) (hids : call.HasNewIds E tables) :
    ∃ moves, Evaluates schema tables [] (parseOnce E call) moves (call.rows E)
      (.ok ⟨call.source, call.candidates E, false⟩) := by
  obtain ⟨moves, rows, result, hok, heval⟩ :=
    canEnd_parseOnce hE hvalid (fun h => absurd h hnew) fun _ => hids
  cases Answered.of_evaluates hE hvalid (fun h => absurd h hnew) heval with
  | failed hfail => exact absurd hfail hok
  | blank _ hblank => exact absurd hread hblank
  | mismatched _ _ h => exact absurd h hfree
  | repeated _ _ _ hrun _ => exact absurd hrun hnew
  | fresh _ _ _ _ => exact ⟨moves, heval⟩

/-- A call for a run in the tables can answer with the stored candidates. -/
theorem exists_evaluates_repeated (hE : E.Lawful) (hvalid : schema.Valid tables)
    (hread : call.IsReadable) (hfree : ¬ Conflicts tables (call.key E))
    (hrun : HasRun tables (call.key E)) {candidates : List Candidate}
    (hs : Stored E tables (call.key E) candidates) :
    ∃ moves candidates', candidates'.Perm candidates ∧
      Evaluates schema tables [] (parseOnce E call) moves []
        (.ok ⟨call.source, candidates', true⟩) := by
  obtain ⟨moves, rows, result, hok, heval⟩ :=
    canEnd_parseOnce hE hvalid (fun _ => ⟨candidates, hs⟩) fun h => absurd hrun h
  cases Answered.of_evaluates hE hvalid (fun _ => ⟨candidates, hs⟩) heval with
  | failed hfail => exact absurd hfail hok
  | blank _ hblank => exact absurd hread hblank
  | mismatched _ _ h => exact absurd h hfree
  | repeated _ _ _ _ hs' => exact ⟨moves, _, hs'.perm hE hs, heval⟩
  | fresh _ _ _ hnew => exact absurd hrun hnew

end Pf2eParser
