import Pf2eParser.Repository

/-!
# The invariant of concurrent calls

Any number of calls of `parse_once` run concurrently under read committed.  `SessionAt` lists the
points that a call can have reached, with what it has written and with what it knows about the
committed tables.  The knowledge is stable: the tables only grow, and once a run is committed no
other call can add candidates to it (`SessionAt.mono`).  `SessionAt.advance` says what one statement
does at each point, and `Inv` is preserved by every step (`Inv.next`) and thus along every run
(`Inv.of_run`).
-/

namespace Pf2eParser

open Text ReadCommitted

/-! ## Facts about tables -/

/-- The run with the key is in the tables. -/
def HasRun (tables : List Row) (key : RunKey) : Prop := ∃ row ∈ tables, row.key = .run key

/-- The candidates of the key in the tables are exactly the given ones. -/
def Stored (E : Externals) (tables : List Row) (key : RunKey) (candidates : List Candidate) :
    Prop :=
  (tables.filter (isCandidateOf key)).Perm (candidates.map (candidateRow E key))

/-- Two keys name one document version under different digests. -/
def RunKey.ClashesWith (key key' : RunKey) : Prop :=
  key.documentId = key'.documentId ∧ key.documentVersion = key'.documentVersion ∧
    key.contentDigest ≠ key'.contentDigest

/-- The tables have a run of the document version of the key under another digest. -/
def Conflicts (tables : List Row) (key : RunKey) : Prop :=
  ∃ run, Row.run run ∈ tables ∧ run.toRunKey.ClashesWith key

variable {E : Externals} {tables : List Row} {key : RunKey}

/-- The condition of `FIND_RUN_SQL`. -/
theorem isRun_eq_true_iff {row : Row} : isRun key row = true ↔ row.key = .run key := by
  cases row <;> simp [isRun, Row.key]

/-- The candidates of a run refer to it. -/
theorem references_of_isCandidateOf {row : Row} (h : isCandidateOf key row = true) :
    row.references = some (.run key) := by
  cases row with
  | run row => simp [isCandidateOf] at h
  | candidate row =>
    have hkey : row.toRunKey = key := by simpa [isCandidateOf] using h
    rw [Row.references, hkey]

/-- The row of a candidate is a row of its run. -/
@[simp] theorem isCandidateOf_candidateRow (key key' : RunKey) (candidate : Candidate) :
    isCandidateOf key (candidateRow E key' candidate) = decide (key' = key) := rfl

/-- The row of a run is not the row of a candidate. -/
@[simp] theorem isCandidateOf_runRow (key : RunKey) (call : Call) :
    isCandidateOf key (call.runRow E) = false := rfl

/-- The run of a call has the key of the call. -/
@[simp] theorem key_runRow (call : Call) : (call.runRow E).key = .run (call.key E) := rfl

/-- Empty tables have no run. -/
theorem not_hasRun_nil : ¬ HasRun [] key := by
  rintro ⟨row, hrow, -⟩
  exact absurd hrow List.not_mem_nil

/-- Empty tables have no conflicting run. -/
theorem not_conflicts_nil : ¬ Conflicts [] key := by
  rintro ⟨run, hrun, -⟩
  exact absurd hrun List.not_mem_nil

/-- A run stays in the tables. -/
theorem HasRun.append (h : HasRun tables key) (rows : List Row) : HasRun (tables ++ rows) key := by
  obtain ⟨row, hrow, hkey⟩ := h
  exact ⟨row, List.mem_append_left _ hrow, hkey⟩

/-- A conflicting run stays in the tables. -/
theorem Conflicts.append (h : Conflicts tables key) (rows : List Row) :
    Conflicts (tables ++ rows) key := by
  obtain ⟨run, hrun, hdoc⟩ := h
  exact ⟨run, List.mem_append_left _ hrun, hdoc⟩

/-- Rows of other runs do not change the candidates of a run. -/
theorem Stored.append {candidates : List Candidate} (h : Stored E tables key candidates)
    {rows : List Row} (hrows : ∀ row ∈ rows, isCandidateOf key row = false) :
    Stored E (tables ++ rows) key candidates := by
  have hnone : rows.filter (isCandidateOf key) = [] :=
    List.filter_eq_nil_iff.mpr fun row hrow => by simp [hrows row hrow]
  rwa [Stored, List.filter_append, hnone, List.append_nil]

/-- The candidates of a run are determined up to their order. -/
theorem Stored.perm (hE : E.Lawful) {candidates candidates' : List Candidate}
    (h : Stored E tables key candidates) (h' : Stored E tables key candidates') :
    candidates.Perm candidates' :=
  (List.map_perm_map_iff (candidateRow_injective hE key)).mp (h.symm.trans h')

/-- The order of the candidates does not matter. -/
theorem Stored.of_perm {candidates candidates' : List Candidate}
    (h : Stored E tables key candidates) (hperm : candidates'.Perm candidates) :
    Stored E tables key candidates' :=
  h.trans (hperm.symm.map _)

/-- A run that is not in the tables has no candidates there. -/
theorem filter_isCandidateOf_eq_nil (hvalid : schema.Valid tables) (h : ¬ HasRun tables key) :
    tables.filter (isCandidateOf key) = [] := by
  refine List.filter_eq_nil_iff.mpr fun row hrow hcandidate => h ?_
  obtain ⟨row', hrow', hkey⟩ :=
    hvalid.references row hrow _ (references_of_isCandidateOf hcandidate)
  exact ⟨row', hrow', hkey⟩

/-- There is at most one run with a key. -/
theorem length_filter_isRun_le_one (hvalid : schema.Valid tables) (key : RunKey) :
    (tables.filter (isRun key)).length ≤ 1 := by
  have hnodup : ((tables.filter (isRun key)).map Row.key).Nodup :=
    (List.filter_sublist.map _).nodup hvalid.keys_nodup
  have hall : (tables.filter (isRun key)).map Row.key =
      List.replicate (tables.filter (isRun key)).length (.run key) := by
    rw [List.eq_replicate_iff, List.length_map]
    refine ⟨rfl, fun k hk => ?_⟩
    obtain ⟨row, hrow, rfl⟩ := List.mem_map.mp hk
    exact isRun_eq_true_iff.mp (List.mem_filter.mp hrow).2
  rw [hall] at hnodup
  exact List.nodup_replicate.mp hnodup

/-! ## The points of a call -/

namespace Call

/-- The source text is not blank. -/
def IsReadable (call : Call) : Prop := (trim call.source.sourceText).isEmpty = false

/-- All rows that the call inserts if it runs to its end. -/
def rows (E : Externals) (call : Call) : List Row :=
  call.runRow E :: (call.candidates E).map (candidateRow E (call.key E))

end Call

/-- The points that a call can have reached, given the committed tables. -/
inductive SessionAt (E : Externals) (call : Call) (tables : List Row) :
    Session Row ParseResult → Prop
  /-- Nothing has been executed. -/
  | start : SessionAt E call tables (.running [] (parseOnce E call))
  /-- The digest check has failed. -/
  | mismatch (hread : call.IsReadable) (h : Conflicts tables (call.key E)) :
      SessionAt E call tables (.running [] (.abort (.error .sourceDigestMismatch)))
  /-- The digest check has passed. -/
  | findRun (hread : call.IsReadable) : SessionAt E call tables (.running [] (findRun E call))
  /-- The run was not found. -/
  | insertRun (hread : call.IsReadable) : SessionAt E call tables (.running [] (insertRun E call))
  /-- The run was found, or a concurrent call has inserted it. -/
  | replay (hread : call.IsReadable) (h : HasRun tables (call.key E)) :
      SessionAt E call tables (.running [] (replay E call))
  /-- The stored candidates have been loaded. -/
  | replayed (hread : call.IsReadable) (h : HasRun tables (call.key E))
      {candidates : List Candidate} (hs : Stored E tables (call.key E) candidates) :
      SessionAt E call tables
        (.running [] (.commit repositoryError (.ok ⟨call.source, candidates, true⟩)))
  /-- The run and the candidates in `done` have been inserted. -/
  | inserting (hread : call.IsReadable) {done rest : List Candidate}
      (h : call.candidates E = done ++ rest) :
      SessionAt E call tables
        (.running (call.runRow E :: done.map (candidateRow E (call.key E)))
          (insertCandidates E call rest))
  /-- The call has inserted the run and its candidates. -/
  | fresh (hread : call.IsReadable) (h : HasRun tables (call.key E))
      (hs : Stored E tables (call.key E) (call.candidates E)) :
      SessionAt E call tables (.ended (call.rows E) (.ok ⟨call.source, call.candidates E, false⟩))
  /-- The call has answered with stored candidates. -/
  | repeated (hread : call.IsReadable) (h : HasRun tables (call.key E))
      {candidates : List Candidate} (hs : Stored E tables (call.key E) candidates) :
      SessionAt E call tables (.ended [] (.ok ⟨call.source, candidates, true⟩))
  /-- The source text is blank. -/
  | blank (hblank : ¬ call.IsReadable) :
      SessionAt E call tables (.ended [] (.error .emptySourceText))
  /-- The call has reported a conflicting digest. -/
  | mismatched (hread : call.IsReadable) (h : Conflicts tables (call.key E)) :
      SessionAt E call tables (.ended [] (.error .sourceDigestMismatch))
  /-- A statement has failed. -/
  | failed (hread : call.IsReadable) : SessionAt E call tables (.ended [] repositoryError)

/-- What a call knows about the committed tables stays true when rows of other runs are committed.
-/
theorem SessionAt.mono {call : Call} {session : Session Row ParseResult}
    (h : SessionAt E call tables session) {rows : List Row}
    (hrows : HasRun tables (call.key E) → ∀ row ∈ rows, isCandidateOf (call.key E) row = false) :
    SessionAt E call (tables ++ rows) session := by
  cases h with
  | start => exact .start
  | mismatch hread h => exact .mismatch hread (h.append rows)
  | findRun hread => exact .findRun hread
  | insertRun hread => exact .insertRun hread
  | replay hread h => exact .replay hread (h.append rows)
  | replayed hread h hs => exact .replayed hread (h.append rows) (hs.append (hrows h))
  | inserting hread h => exact .inserting hread h
  | fresh hread h hs => exact .fresh hread (h.append rows) (hs.append (hrows h))
  | repeated hread h hs => exact .repeated hread (h.append rows) (hs.append (hrows h))
  | blank hblank => exact .blank hblank
  | mismatched hread h => exact .mismatched hread (h.append rows)
  | failed hread => exact .failed hread

/-- A call is refused only because of a conflicting run. -/
theorem SessionAt.conflicts_of_mismatch {call : Call} {session : Session Row ParseResult}
    (h : SessionAt E call tables session)
    (hresult : session.result = some (.error .sourceDigestMismatch)) :
    Conflicts tables (call.key E) := by
  cases h with
  | mismatched hread h => exact h
  | _ => simp [repositoryError] at hresult

/-- The rows of a call make its run and its candidates known. -/
theorem stored_append_rows {call : Call} (hvalid : schema.Valid tables)
    (h : ¬ HasRun tables (call.key E)) :
    HasRun (tables ++ call.rows E) (call.key E) ∧
      Stored E (tables ++ call.rows E) (call.key E) (call.candidates E) := by
  refine ⟨⟨call.runRow E, by simp [Call.rows], rfl⟩, ?_⟩
  have hall : ((call.candidates E).map (candidateRow E (call.key E))).filter
      (isCandidateOf (call.key E)) = (call.candidates E).map (candidateRow E (call.key E)) := by
    refine List.filter_eq_self.mpr fun row hrow => ?_
    obtain ⟨candidate, -, rfl⟩ := List.mem_map.mp hrow
    simp
  unfold Stored Call.rows
  rw [List.filter_append, filter_isCandidateOf_eq_nil hvalid h, List.nil_append,
    List.filter_cons_of_neg (by simp), hall]

/-- The run that a call adds to the tables is the only run among its rows. -/
theorem run_mem_append_rows {call : Call} {run : ParseRun}
    (h : Row.run run ∈ tables ++ call.rows E) :
    Row.run run ∈ tables ∨ run.toRunKey = call.key E := by
  rcases List.mem_append.mp h with h | h
  · exact Or.inl h
  · rcases List.mem_cons.mp h with h | h
    · rw [Row.run.inj h]
      exact Or.inr rfl
    · obtain ⟨candidate, -, h⟩ := List.mem_map.mp h
      exact absurd h (by simp [candidateRow])

/-- The run of a call among all rows. -/
theorem hasRun_append_rows {call : Call} :
    HasRun (tables ++ call.rows E) key ↔ HasRun tables key ∨ key = call.key E := by
  constructor
  · rintro ⟨row, hrow, hkey⟩
    rcases List.mem_append.mp hrow with hrow | hrow
    · exact Or.inl ⟨row, hrow, hkey⟩
    · rcases List.mem_cons.mp hrow with rfl | hrow
      · exact Or.inr (RowKey.run.inj hkey).symm
      · obtain ⟨candidate, -, rfl⟩ := List.mem_map.mp hrow
        cases hkey
  · rintro (h | rfl)
    · exact h.append _
    · exact ⟨call.runRow E, by simp [Call.rows], rfl⟩

/-- The run of a call that does not clash with a key is no conflict for it. -/
theorem not_conflicts_append_rows {call : Call} (h : ¬ Conflicts tables key)
    (hclash : ¬ (call.key E).ClashesWith key) : ¬ Conflicts (tables ++ call.rows E) key := by
  rintro ⟨run, hrun, hid, hversion, hne⟩
  rcases run_mem_append_rows hrun with hrun | hkey
  · exact h ⟨run, hrun, hid, hversion, hne⟩
  · rw [hkey] at hid hversion hne
    exact hclash ⟨hid, hversion, hne⟩

/-! ## One statement -/

/-- What a statement of a call leads to. -/
structure Advanced (E : Externals) (call : Call) (tables : List Row) (move : Move Row)
    (rows : List Row) (session : Session Row ParseResult) : Prop where
  /-- The call has reached another point. -/
  sessionAt : SessionAt E call (tables ++ rows) session
  /-- The statement commits nothing, or all rows of the call. -/
  rows_eq : rows = [] ∨ rows = call.rows E ∧ ¬ HasRun tables (call.key E)
  /-- A storage error is the failure of a statement. -/
  failed : session = .ended [] repositoryError → move = .fail

/-- A failed statement ends a call. -/
theorem advanced_fail {call : Call} (hread : call.IsReadable) :
    Advanced E call tables .fail [] (.ended [] repositoryError) :=
  ⟨.failed hread, Or.inl rfl, fun _ => rfl⟩

/-- A statement that commits nothing. -/
theorem advanced_of_sessionAt {call : Call} {move : Move Row} {session : Session Row ParseResult}
    (h : SessionAt E call tables session) (hne : session ≠ .ended [] repositoryError) :
    Advanced E call tables move [] session :=
  ⟨by rwa [List.append_nil], Or.inl rfl, fun heq => absurd heq hne⟩

/-- The digest check. -/
theorem existingDigests_any_iff {rows : List Row} {digest : List UInt8} :
    (existingDigests rows).any (fun existing => existing ≠ digest) = true ↔
      ∃ run, Row.run run ∈ rows ∧ run.contentDigest ≠ digest := by
  simp only [existingDigests, List.any_eq_true, List.mem_dedup, List.mem_filterMap,
    decide_eq_true_eq]
  constructor
  · rintro ⟨existing, ⟨row, hrow, heq⟩, hne⟩
    cases row with
    | run run => exact ⟨run, hrow, by simpa using (Option.some.inj heq) ▸ hne⟩
    | candidate row => simp at heq
  · rintro ⟨run, hrun, hne⟩
    exact ⟨run.contentDigest, ⟨.run run, hrun, rfl⟩, hne⟩

/-- The digest check finds a conflicting run if there is one. -/
theorem conflicts_iff_any {reply : List Row}
    (hreply : reply.Perm (tables.filter (ofVersion key.documentId key.documentVersion))) :
    Conflicts tables key ↔
      (existingDigests reply).any (fun existing => existing ≠ key.contentDigest) = true := by
  rw [existingDigests_any_iff]
  refine exists_congr fun run => ?_
  rw [hreply.mem_iff, List.mem_filter, RunKey.ClashesWith]
  simp [ofVersion, and_assoc]

/-- The first statement: the digest check. -/
theorem advanced_parseOnce {call : Call} {held : RowKey → Bool} {move : Move Row} {rows : List Row}
    {session : Session Row ParseResult}
    (h : Advances schema held tables [] (parseOnce E call) move rows session) :
    Advanced E call tables move rows session := by
  unfold parseOnce at h
  split at h
  case isTrue hblank =>
    cases h with
    | abort result reply =>
      exact advanced_of_sessionAt (.blank (by simp [Call.IsReadable, hblank]))
        (by simp [repositoryError])
    | fail h => simp [Tx.onError] at h
  case isFalse hread =>
    have hread : call.IsReadable := by simpa [Call.IsReadable] using hread
    cases h with
    | fail h =>
      obtain rfl := Option.some.inj h
      exact advanced_fail hread
    | @select _ _ _ reply hreply =>
      rw [List.append_nil] at hreply
      dsimp only
      split
      case isTrue hany =>
        exact advanced_of_sessionAt (.mismatch hread ((conflicts_iff_any hreply).mpr hany))
          (by simp)
      case isFalse => exact advanced_of_sessionAt (.findRun hread) (by simp)

/-- The second statement: the search for the run. -/
theorem advanced_findRun {call : Call} (hvalid : schema.Valid tables) (hread : call.IsReadable)
    {held : RowKey → Bool} {move : Move Row} {rows : List Row} {session : Session Row ParseResult}
    (h : Advances schema held tables [] (findRun E call) move rows session) :
    Advanced E call tables move rows session := by
  unfold findRun at h
  cases h with
  | fail h =>
    obtain rfl := Option.some.inj h
    exact advanced_fail hread
  | @select _ _ _ reply hreply =>
    rw [List.append_nil] at hreply
    rcases reply with _ | ⟨row, _ | ⟨row', others⟩⟩
    · exact advanced_of_sessionAt (.insertRun hread) (by simp)
    · have hmem := List.mem_filter.mp (hreply.mem_iff.mp (List.mem_singleton_self row))
      exact advanced_of_sessionAt (.replay hread ⟨row, hmem.1, isRun_eq_true_iff.mp hmem.2⟩)
        (by simp)
    · have hlen := hreply.length_eq ▸ length_filter_isRun_le_one hvalid (call.key E)
      simp at hlen

/-- The replay: the stored candidates are loaded. -/
theorem advanced_replay {call : Call} (hE : E.Lawful) (hread : call.IsReadable)
    (hrun : HasRun tables (call.key E))
    (hstored : ∃ candidates, Stored E tables (call.key E) candidates) {held : RowKey → Bool}
    {move : Move Row} {rows : List Row} {session : Session Row ParseResult}
    (h : Advances schema held tables [] (replay E call) move rows session) :
    Advanced E call tables move rows session := by
  unfold replay loadCandidates at h
  cases h with
  | fail h =>
    obtain rfl := Option.some.inj h
    exact advanced_fail hread
  | @select _ _ _ reply hreply =>
    rw [List.append_nil] at hreply
    obtain ⟨candidates, hs⟩ := hstored
    obtain ⟨read, hread', hperm⟩ := mapM_decodeCandidate hE (hreply.trans hs)
    simp only [hread']
    exact advanced_of_sessionAt (.replayed hread hrun (hs.of_perm hperm)) (by simp)

/-- The insertion of the run. -/
theorem advanced_insertRun {call : Call} (hread : call.IsReadable) {held : RowKey → Bool}
    {move : Move Row} {rows : List Row} {session : Session Row ParseResult}
    (h : Advances schema held tables [] (insertRun E call) move rows session) :
    Advanced E call tables move rows session := by
  unfold insertRun at h
  cases h with
  | fail h =>
    obtain rfl := Option.some.inj h
    exact advanced_fail hread
  | ignored htaken =>
    rw [List.append_nil, Schema.taken_eq_true_iff] at htaken
    exact advanced_of_sessionAt (.replay hread htaken) (by simp)
  | inserted hadmits htaken hheld =>
    have hpoint : SessionAt E call tables (.running (call.runRow E :: [].map _) _) :=
      .inserting hread (List.nil_append _).symm
    exact advanced_of_sessionAt hpoint (by simp)

/-- The insertion of the next candidate, or the commit after the last one. -/
theorem advanced_insertCandidates {call : Call} (hvalid : schema.Valid tables)
    (hread : call.IsReadable) (hfree : ¬ HasRun tables (call.key E)) {done rest : List Candidate}
    (hsplit : call.candidates E = done ++ rest) {held : RowKey → Bool} {move : Move Row}
    {rows : List Row} {session : Session Row ParseResult}
    (h : Advances schema held tables (call.runRow E :: done.map (candidateRow E (call.key E)))
      (insertCandidates E call rest) move rows session) :
    Advanced E call tables move rows session := by
  cases rest with
  | nil =>
    rw [insertCandidates] at h
    rw [List.append_nil] at hsplit
    subst hsplit
    cases h with
    | fail h =>
      obtain rfl := Option.some.inj h
      exact advanced_fail hread
    | commit =>
      obtain ⟨hrun, hstored⟩ := stored_append_rows hvalid hfree
      exact ⟨.fresh hread hrun hstored, Or.inr ⟨rfl, hfree⟩, fun heq => by simp at heq⟩
  | cons candidate rest =>
    rw [insertCandidates] at h
    cases h with
    | fail h =>
      obtain rfl := Option.some.inj h
      exact advanced_fail hread
    | insert hadmits htaken hheld =>
      have hmore : call.candidates E = (done ++ [candidate]) ++ rest := by simp [hsplit]
      have hpoint : SessionAt E call tables (.running _ (insertCandidates E call rest)) :=
        .inserting hread hmore
      rw [List.map_append, ← List.cons_append] at hpoint
      exact advanced_of_sessionAt hpoint (by simp)

/-- One statement of a call takes it from one point to another. -/
theorem SessionAt.advance {call : Call} (hE : E.Lawful) (hvalid : schema.Valid tables)
    {writes : List Row} {tx : Tx Row ParseResult}
    (hat : SessionAt E call tables (.running writes tx))
    (hstored : HasRun tables (call.key E) → ∃ candidates, Stored E tables (call.key E) candidates)
    (hfree : ∀ row ∈ writes, ∀ row' ∈ tables, row'.key ≠ row.key) {held : RowKey → Bool}
    {move : Move Row} {rows : List Row} {session : Session Row ParseResult}
    (h : Advances schema held tables writes tx move rows session) :
    Advanced E call tables move rows session := by
  cases hat with
  | start => exact advanced_parseOnce h
  | mismatch hread hconflict =>
    cases h with
    | abort => exact advanced_of_sessionAt (.mismatched hread hconflict) (by simp [repositoryError])
    | fail h => simp [Tx.onError] at h
  | findRun hread => exact advanced_findRun hvalid hread h
  | insertRun hread => exact advanced_insertRun hread h
  | replay hread hrun => exact advanced_replay hE hread hrun (hstored hrun) h
  | replayed hread hrun hs =>
    cases h with
    | commit => exact advanced_of_sessionAt (.repeated hread hrun hs) (by simp [repositoryError])
    | fail h =>
      obtain rfl := Option.some.inj h
      exact advanced_fail hread
  | inserting hread hsplit =>
    refine advanced_insertCandidates hvalid hread ?_ hsplit h
    rintro ⟨row', hrow', hkey⟩
    exact hfree (call.runRow E) List.mem_cons_self row' hrow' hkey

/-! ## All runs -/

variable {ι : Type} {calls : ι → Call} {initial : List Row} {s s' : State ι Row ParseResult}

/-- What holds in every state of concurrent calls. -/
structure Inv (E : Externals) (calls : ι → Call) (initial : List Row)
    (s : State ι Row ParseResult) : Prop where
  /-- The state is consistent. -/
  consistent : Consistent schema initial s
  /-- Every call is at one of its points. -/
  sessionAt : ∀ i, SessionAt E (calls i) s.committed (s.session i)
  /-- The runs that the calls ask for have been stored with their candidates. -/
  stored : ∀ i, HasRun s.committed ((calls i).key E) →
    ∃ candidates, Stored E s.committed ((calls i).key E) candidates

/-- The invariant holds before the first statement. -/
theorem Inv.start (hinitial : schema.Valid initial)
    (hstored : ∀ i, HasRun initial ((calls i).key E) →
      ∃ candidates, Stored E initial ((calls i).key E) candidates) :
    Inv E calls initial (State.start initial fun i => parseOnce E (calls i)) :=
  ⟨.start hinitial _, fun _ => .start, hstored⟩

/-- No row of a call belongs to another run. -/
theorem isCandidateOf_of_mem_rows {call : Call} (hkey : call.key E ≠ key) :
    ∀ row ∈ call.rows E, isCandidateOf key row = false := by
  intro row hrow
  rcases List.mem_cons.mp hrow with rfl | hrow
  · exact isCandidateOf_runRow _ _
  · obtain ⟨candidate, -, rfl⟩ := List.mem_map.mp hrow
    simp [hkey]

variable [Fintype ι] [DecidableEq ι]

/-- Every step keeps the invariant. -/
theorem Inv.next (hE : E.Lawful) (h : Inv E calls initial s) {i : ι} {move : Move Row}
    (hn : s.next schema i move = some s') : Inv E calls initial s' := by
  obtain ⟨writes, tx, rows, session, hs, hadv, hcommitted, hs', hothers⟩ := State.next_cases hn
  have hfree : ∀ row ∈ writes, ∀ row' ∈ s.committed, row'.key ≠ row.key := by
    intro row hrow
    exact h.consistent.pending_disjoint i row (by rw [hs]; exact hrow)
  have hstep : Advanced E (calls i) s.committed move rows session :=
    SessionAt.advance hE h.consistent.valid (hs ▸ h.sessionAt i) (h.stored i) hfree hadv
  have hforeign : ∀ key, HasRun s.committed key → ∀ row ∈ rows, isCandidateOf key row = false := by
    intro key hrun
    rcases hstep.rows_eq with rfl | ⟨rfl, hnew⟩
    · exact fun row hrow => absurd hrow List.not_mem_nil
    · exact isCandidateOf_of_mem_rows fun hkey => hnew (hkey ▸ hrun)
  refine ⟨h.consistent.next hn, fun j => ?_, fun j hrun => ?_⟩
  · rw [hcommitted]
    by_cases hj : j = i
    · rw [hj, hs']
      exact hstep.sessionAt
    · rw [hothers j hj]
      exact (h.sessionAt j).mono (hforeign _)
  · rw [hcommitted] at hrun ⊢
    by_cases hold : HasRun s.committed ((calls j).key E)
    · obtain ⟨candidates, hcandidates⟩ := h.stored j hold
      exact ⟨candidates, hcandidates.append (hforeign _ hold)⟩
    · rcases hstep.rows_eq with rfl | ⟨rfl, hnew⟩
      · rw [List.append_nil] at hrun
        exact absurd hrun hold
      · by_cases hkey : (calls i).key E = (calls j).key E
        · rw [← hkey]
          exact ⟨_, (stored_append_rows h.consistent.valid hnew).2⟩
        · rcases hasRun_append_rows.mp hrun with hrun | hsame
          · exact absurd hrun hold
          · exact absurd hsame.symm hkey

/-- The invariant holds along every run. -/
theorem Inv.of_run (hE : E.Lawful) {allowed : State ι Row ParseResult → ι → Move Row → Prop}
    (hinitial : schema.Valid initial)
    (hstored : ∀ i, HasRun initial ((calls i).key E) →
      ∃ candidates, Stored E initial ((calls i).key E) candidates)
    {moves : List (ι × Move Row)}
    (h : Run schema allowed (State.start initial fun i => parseOnce E (calls i)) moves s) :
    Inv E calls initial s := by
  induction h with
  | nil => exact .start hinitial hstored
  | snoc h ha hn ih => exact ih.next hE hn

end Pf2eParser
