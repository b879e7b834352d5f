import Pf2eParser.Repository.Agreement

/-!
# The digest check under concurrency

A document version must have stable content: `parse_once` refuses a digest if a run of the document
version is recorded under another one.  But the check and the insertion are two statements, and the
primary key of `parse_runs` contains the digest, so that nothing keeps two calls with different
digests from passing the check before either of them commits.  `clashingMoves` is such an
interleaving; from then on every call for the document version is refused, that of an accepted
digest as well (`digests_not_settled`).

The digests are unique as long as no call commits a new run while another one, for the same document
version under another digest, is in the window between its check and its end
(`digestsSettled_of_serialized`).
-/

namespace Pf2eParser

open Text ReadCommitted

/-- All runs of a document version carry one digest. -/
def DigestUnique (tables : List Row) : Prop :=
  ∀ run run', Row.run run ∈ tables → Row.run run' ∈ tables → run.documentId = run'.documentId →
    run.documentVersion = run'.documentVersion → run.contentDigest = run'.contentDigest

/-- A call has passed its digest check and is going to insert its run. -/
inductive InWindow (E : Externals) (call : Call) : Session Row ParseResult → Prop
  | findRun : InWindow E call (.running [] (findRun E call))
  | insertRun : InWindow E call (.running [] (insertRun E call))
  | inserting (done rest : List Candidate) :
      InWindow E call (.running (call.runRow E :: done.map (candidateRow E (call.key E)))
        (insertCandidates E call rest))

variable {E : Externals} {tables : List Row} {call : Call} {session : Session Row ParseResult}

/-- A call that has not begun is not in its window. -/
theorem not_inWindow_parseOnce : ¬ InWindow E call (.running [] (parseOnce E call)) := by
  intro h
  generalize hsession :
    (Session.running [] (parseOnce E call) : Session Row ParseResult) = session at h
  cases h with
  | findRun =>
    rw [Session.running.injEq, parseOnce, findRun] at hsession
    split at hsession
    case isTrue => simp at hsession
    case isFalse =>
      -- the two conditions differ on a run of another parser version
      have hcondition := congrFun (Tx.select.inj hsession.2).1
        (.run ⟨{ call.key E with parserVersion := 'v' :: call.parserVersion }, []⟩)
      simp [ofVersion, isRun, Call.key] at hcondition
  | insertRun =>
    rw [Session.running.injEq, parseOnce, insertRun] at hsession
    split at hsession <;> simp at hsession
  | inserting done rest => simp at hsession

/-- A call that has ended is not in its window. -/
theorem not_inWindow_of_result {result : ParseResult} (h : session.result = some result) :
    ¬ InWindow E call session := by
  rintro (_ | _ | _) <;> simp at h

/-- A call that gives up is not in its window. -/
theorem not_inWindow_abort {result : ParseResult} :
    ¬ InWindow E call (.running [] (.abort result)) := by
  intro h
  cases h

/-- A call that answers with stored candidates is not in its window. -/
theorem not_inWindow_commit {onError result : ParseResult} :
    ¬ InWindow E call (.running [] (.commit onError result)) := by
  intro h
  cases h

/-- A call enters its window when its digest check passes. -/
theorem inWindow_of_advance {writes rows : List Row} {tx : Tx Row ParseResult}
    (hat : SessionAt E call tables (.running writes tx)) {held : RowKey → Bool} {move : Move Row}
    (h : Advances schema held tables writes tx move rows session)
    (hwindow : InWindow E call session) :
    InWindow E call (.running writes tx) ∨ ¬ Conflicts tables (call.key E) := by
  cases hat with
  | findRun hread => exact Or.inl .findRun
  | insertRun hread => exact Or.inl .insertRun
  | inserting hread hsplit => exact Or.inl (.inserting _ _)
  | mismatch hread hconflict =>
    cases h with
    | _ => exact absurd hwindow (not_inWindow_of_result rfl)
  | replayed hread hrun hs =>
    cases h with
    | _ => exact absurd hwindow (not_inWindow_of_result rfl)
  | replay hread hrun =>
    unfold replay loadCandidates at h
    cases h with
    | fail h => exact absurd hwindow (not_inWindow_of_result rfl)
    | @select _ _ _ reply hreply =>
      dsimp only at hwindow
      split at hwindow
      case h_1 => exact absurd hwindow not_inWindow_abort
      case h_2 => exact absurd hwindow not_inWindow_commit
  | start =>
    unfold parseOnce at h
    split at h
    case isTrue =>
      cases h with
      | _ => exact absurd hwindow (not_inWindow_of_result rfl)
    case isFalse hread =>
      cases h with
      | fail h => exact absurd hwindow (not_inWindow_of_result rfl)
      | @select _ _ _ reply hreply =>
        dsimp only at hwindow
        split at hwindow
        case isTrue => exact absurd hwindow not_inWindow_abort
        case isFalse hany =>
          rw [List.append_nil] at hreply
          exact Or.inr fun hconflict => hany ((conflicts_iff_any hreply).mp hconflict)

/-- A call commits its rows by its last statement. -/
theorem inserting_of_rows_ne_nil {writes rows : List Row} {tx : Tx Row ParseResult}
    (hat : SessionAt E call tables (.running writes tx)) {held : RowKey → Bool} {move : Move Row}
    (h : Advances schema held tables writes tx move rows session) (hne : rows ≠ []) :
    rows = call.rows E ∧ writes = call.rows E ∧ tx = insertCandidates E call [] ∧
      (∃ reply, move = .go reply) ∧ ∃ result, session.result = some result := by
  have hcommit : rows = writes ∧ (∃ onError result, tx = .commit onError result) ∧
      (∃ reply, move = .go reply) ∧ ∃ result, session.result = some result := by
    cases h with
    | commit onError result reply =>
      exact ⟨rfl, ⟨onError, result, rfl⟩, ⟨reply, rfl⟩, result, rfl⟩
    | _ => exact absurd rfl hne
  obtain ⟨rfl, ⟨onError, result, htx⟩, hmove⟩ := hcommit
  cases hat with
  | @inserting _ done rest hsplit =>
    cases rest with
    | nil =>
      rw [List.append_nil] at hsplit
      subst hsplit
      exact ⟨rfl, rfl, rfl, hmove⟩
    | cons candidate rest =>
      rw [insertCandidates] at htx
      cases htx
  | _ => exact absurd rfl hne

/-! ## Runs without the race -/

variable {ι : Type} {calls : ι → Call} {s s' : State ι Row ParseResult}

/-- The call does not commit a new run while another one, for the same document version under
another digest, is in its window. -/
def Serialized (E : Externals) (calls : ι → Call) (s : State ι Row ParseResult) (i : ι)
    (move : Move Row) : Prop :=
  s.session i = .running ((calls i).rows E) (insertCandidates E (calls i) []) →
    (∃ reply, move = .go reply) → ∀ j, j ≠ i → ((calls i).key E).ClashesWith ((calls j).key E) →
      ¬ InWindow E (calls j) (s.session j)

/-- The digests of document versions are settled. -/
structure DigestsSettled (E : Externals) (calls : ι → Call) (s : State ι Row ParseResult) :
    Prop where
  /-- All runs of a document version carry one digest. -/
  unique : DigestUnique s.committed
  /-- No call was refused with the digest that is recorded for its document version. -/
  accepted : ∀ i run, (s.session i).result = some (.error .sourceDigestMismatch) →
    Row.run run ∈ s.committed → run.documentId = ((calls i).key E).documentId →
    run.documentVersion = ((calls i).key E).documentVersion →
    run.contentDigest ≠ ((calls i).key E).contentDigest

/-- Unique digests, and no conflicting run for a call in its window. -/
structure Unraced (E : Externals) (calls : ι → Call) (s : State ι Row ParseResult) : Prop where
  unique : DigestUnique s.committed
  window : ∀ i, InWindow E (calls i) (s.session i) → ¬ Conflicts s.committed ((calls i).key E)

/-- The digests stay unique if the run of a call without a conflict is added. -/
theorem DigestUnique.append_rows (h : DigestUnique tables)
    (hfree : ¬ Conflicts tables (call.key E)) : DigestUnique (tables ++ call.rows E) := by
  have hold : ∀ run, Row.run run ∈ tables → run.documentId = (call.key E).documentId →
      run.documentVersion = (call.key E).documentVersion →
      run.contentDigest = (call.key E).contentDigest := by
    intro run hrun hid hversion
    by_contra hne
    exact hfree ⟨run, hrun, hid, hversion, hne⟩
  intro run run' hrun hrun' hid hversion
  rcases run_mem_append_rows hrun with hrun | hkey
  · rcases run_mem_append_rows hrun' with hrun' | hkey'
    · exact h run run' hrun hrun' hid hversion
    · rw [hkey'] at hid hversion ⊢
      exact hold run hrun hid hversion
  · rcases run_mem_append_rows hrun' with hrun' | hkey'
    · rw [hkey] at hid hversion ⊢
      exact (hold run' hrun' hid.symm hversion.symm).symm
    · rw [hkey, hkey']

/-- No digest is recorded for a document version besides the one that has refused a call. -/
theorem Unraced.settled (h : Unraced E calls s) {initial : List Row}
    (hinv : Inv E calls initial s) : DigestsSettled E calls s := by
  refine ⟨h.unique, fun i run hresult hrun hid hversion heq => ?_⟩
  have hconflict : Conflicts s.committed ((calls i).key E) :=
    (hinv.sessionAt i).conflicts_of_mismatch hresult
  obtain ⟨run', hrun', hid', hversion', hne⟩ := hconflict
  have hsame : run'.contentDigest = run.contentDigest :=
    h.unique run' run hrun' hrun (hid'.trans hid.symm) (hversion'.trans hversion.symm)
  exact hne (hsame.trans heq)

variable [Fintype ι] [DecidableEq ι]

/-- A step without the race keeps the digests unique. -/
theorem Unraced.next (h : Unraced E calls s) {initial : List Row} (hinv : Inv E calls initial s)
    {i : ι} {move : Move Row} (hserialized : Serialized E calls s i move)
    (hn : s.next schema i move = some s') : Unraced E calls s' := by
  obtain ⟨writes, tx, rows, session, hs, hadv, hcommitted, hs', hothers⟩ := State.next_cases hn
  have hat := hs ▸ hinv.sessionAt i
  by_cases hrows : rows = []
  · rw [hrows, List.append_nil] at hcommitted
    refine ⟨hcommitted ▸ h.unique, fun j hj => ?_⟩
    rw [hcommitted]
    by_cases hji : j = i
    · subst hji
      rw [hs'] at hj
      rcases inWindow_of_advance hat hadv hj with hold | hnew
      · exact h.window j (hs ▸ hold)
      · exact hnew
    · exact h.window j (hothers j hji ▸ hj)
  · obtain ⟨rfl, rfl, rfl, hmove, result, hresult⟩ := inserting_of_rows_ne_nil hat hadv hrows
    have hfree : ¬ Conflicts s.committed ((calls i).key E) :=
      h.window i (hs ▸ .inserting ((calls i).candidates E) [])
    refine ⟨hcommitted ▸ h.unique.append_rows hfree, fun j hj => ?_⟩
    rw [hcommitted]
    by_cases hji : j = i
    · subst hji
      exact absurd hj (not_inWindow_of_result (hs' ▸ hresult))
    · rw [hothers j hji] at hj
      exact not_conflicts_append_rows (h.window j hj)
        fun hclash => hserialized hs hmove j hji hclash hj

/-- From empty tables, in every interleaving in which no call commits a new run during the window of
a clashing one, the digests of document versions are settled in every state. -/
theorem digestsSettled_of_serialized (hE : E.Lawful) {moves : List (ι × Move Row)}
    (hrun : Run schema (Serialized E calls) (State.start [] fun i => parseOnce E (calls i)) moves
      s) : DigestsSettled E calls s := by
  have hboth : Inv E calls [] s ∧ Unraced E calls s := by
    induction hrun with
    | nil =>
      refine ⟨.start .nil fun i h => absurd h not_hasRun_nil, fun run run' h => ?_, fun i h => ?_⟩
      · exact absurd h List.not_mem_nil
      · exact absurd h not_inWindow_parseOnce
    | snoc h ha hn ih => exact ⟨ih.1.next hE hn, ih.2.next ih.1 ha hn⟩
  exact hboth.2.settled hboth.1

/-! ## The race -/

/-- Three calls for one document version.  The first and the last one carry the same digest. -/
def clashingCalls : Caller → Call
  | .second => { exampleCalls .second with
      source := { exampleSource with contentDigest := .replicate 32 1 } }
  | caller => exampleCalls caller

/-- The first two calls pass their digest checks before either of them commits; the last one begins
when both have ended. -/
def clashingMoves : List (Caller × Move Row) :=
  let runs := [(clashingCalls .first).runRow .reference, (clashingCalls .second).runRow .reference]
  [(.first, .go []), (.second, .go []), (.first, .go []), (.second, .go []), (.first, .go []),
    (.first, .go []), (.first, .go []), (.second, .go []), (.second, .go []), (.second, .go []),
    (.third, .go runs), (.third, .go [])]

/-- What the race leaves behind. -/
theorem execute_clashingMoves :
    ((State.start [] fun i => parseOnce .reference (clashingCalls i)).execute schema
        clashingMoves).map
          (fun s => (s.committed, (s.session .first).result, (s.session .third).result)) =
      some ((clashingCalls .first).rows .reference ++ (clashingCalls .second).rows .reference,
        some (.ok ⟨exampleSource, (clashingCalls .first).candidates .reference, false⟩),
        some (.error .sourceDigestMismatch)) := by
  decide +kernel

/-- Two digests are recorded for one document version, and a digest that was accepted is refused
later. -/
theorem digests_not_settled : ∃ s,
    Run schema (fun _ _ _ => True) (State.start [] fun i => parseOnce .reference (clashingCalls i))
      clashingMoves s ∧
    ¬ DigestUnique s.committed ∧
    (s.session .first).result =
      some (.ok ⟨exampleSource, (clashingCalls .first).candidates .reference, false⟩) ∧
    (clashingCalls .third).source = exampleSource ∧
    (s.session .third).result = some (.error .sourceDigestMismatch) := by
  obtain ⟨s, hs, hstate⟩ := Option.map_eq_some_iff.mp execute_clashingMoves
  obtain ⟨hcommitted, hresults⟩ := Prod.mk.inj hstate
  obtain ⟨h₀, h₂⟩ := Prod.mk.inj hresults
  refine ⟨s, .of_execute hs, fun hunique => ?_, h₀, rfl, h₂⟩
  have hrun₀ : (clashingCalls .first).runRow .reference ∈ s.committed :=
    hcommitted ▸ List.mem_append_left _ List.mem_cons_self
  have hrun₁ : (clashingCalls .second).runRow .reference ∈ s.committed :=
    hcommitted ▸ List.mem_append_right _ List.mem_cons_self
  exact absurd (hunique _ _ hrun₀ hrun₁ rfl rfl) (by decide)

/-- A call that clashes with no call in its window is serialized. -/
theorem serialized_of_others {ι : Type} {calls : ι → Call} {s : State ι Row ParseResult} {i : ι}
    (h : ∀ j, j ≠ i → s.session j = .running [] (parseOnce E (calls j)) ∨
      (s.session j).result.isSome) (move : Move Row) : Serialized E calls s i move := by
  intro _ _ j hj _ hwindow
  rcases h j hj with hstart | hended
  · exact not_inWindow_parseOnce (hstart ▸ hwindow)
  · obtain ⟨result, hresult⟩ := Option.isSome_iff_exists.mp hended
    exact not_inWindow_of_result hresult hwindow

/-- The statements of the first two calls, executed one after the other: the first one inserts its
run, and the second one is refused. -/
def serialMoves : Caller → List (Move Row)
  | .first => [.go [], .go [], .go [], .go [], .go []]
  | .second => [.go [(clashingCalls .first).runRow .reference], .go []]
  | .third => []

/-- What the first two calls leave behind if they do not overlap. -/
theorem execute_serialMoves :
    ((State.start [] fun i => parseOnce .reference (clashingCalls i)).execute schema
        ((serialMoves .first).map (Prod.mk .first))).map (fun s => ((s.session .first).result,
          (s.execute schema ((serialMoves .second).map (Prod.mk .second))).map
            fun s => (s.session .second).result)) =
      some (some (.ok ⟨exampleSource, (clashingCalls .first).candidates .reference, false⟩),
        some (some (.error .sourceDigestMismatch))) := by
  decide +kernel

/-- If the first two calls do not overlap, the digests are settled. -/
theorem digestsSettled_serial : ∃ moves s,
    Run schema (Serialized .reference clashingCalls)
      (State.start [] fun i => parseOnce .reference (clashingCalls i)) moves s ∧
    DigestsSettled .reference clashingCalls s ∧
    (s.session .second).result = some (.error .sourceDigestMismatch) := by
  obtain ⟨s, hs, hstate⟩ := Option.map_eq_some_iff.mp execute_serialMoves
  obtain ⟨hresult, hnext⟩ := Prod.mk.inj hstate
  obtain ⟨s', hs', hrefused⟩ := Option.map_eq_some_iff.mp hnext
  obtain ⟨hrun, hothers⟩ := Run.solo (fun t ht => serialized_of_others fun j hj => Or.inl (ht j hj))
    .nil hs
  have hnext : ∀ j, j ≠ .second →
      s.session j = .running [] (parseOnce .reference (clashingCalls j)) ∨
        (s.session j).result.isSome := by
    intro j _
    by_cases h₀ : j = .first
    · exact Or.inr (by rw [h₀, hresult, Option.isSome_some])
    · exact Or.inl (hothers j h₀)
  obtain ⟨hrun', -⟩ := Run.solo
    (fun t ht => serialized_of_others fun j hj => (ht j hj).symm ▸ hnext j hj) hrun hs'
  exact ⟨_, s', hrun', digestsSettled_of_serialized Externals.reference_lawful hrun', hrefused⟩

end Pf2eParser
