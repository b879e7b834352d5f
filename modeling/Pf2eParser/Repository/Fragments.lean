import Pf2eParser.Dispatch
import Pf2eParser.Repository.Agreement
import Pf2eParser.Repository.Alone

/-!
# Fragments of one document version

A source reference carries a location and a text, but a logical parse is identified by the document
version, the digest and the parser version alone.  A call whose run is in the tables answers with
the candidates that are stored there, whatever text it carries itself; dispatch then submits them
under the location of the call.  So a call returns candidates of its own text exactly as long as all
texts that arrive under one key have the same candidates (`fragmentIntegrity_iff`).
-/

namespace Pf2eParser

open Text ReadCommitted Interaction

/-- The content of candidates: everything but their identities, and their order. -/
def contents (candidates : List Candidate) : Multiset Candidate :=
  (candidates.map Candidate.anonymous : List Candidate)

/-- The answer of a call is about its own fragment. -/
structure FragmentIntegrity (E : Externals) (call : Call) (outcome : ParseOutcome) : Prop where
  /-- The candidates are those of the text of the call. -/
  candidates : contents outcome.candidates =
    contents (parseCandidates E.caseTables call.fresh call.source.sourceText)
  /-- Every scope that dispatch submits after the answer carries the location of the call, and names
  a candidate that was parsed from its text. -/
  submissions : ∀ scope events rest, parseInputScope E scope = .ok call.source →
    Runs (dispatch E call.parserVersion parseAction scope)
      (⟨.parseOnce call.parserVersion call.source, .ok outcome⟩ :: events) rest →
    ∀ action text answer, ⟨.submitRequest action text, answer⟩ ∈ events →
      ∃ candidate, text = admitScopeFor E call.parserVersion call.source candidate ∧
        candidate.anonymous ∈
          contents (parseCandidates E.caseTables call.fresh call.source.sourceText)

variable {E : Externals}

/-! ## Submissions -/

/-- Only candidates of the list are submitted. -/
def submissionContract (E : Externals) (parserVersion : Str) (source : SourceReference)
    (candidates : List Candidate) : Contract PortCall.Answer where
  assumes _ := True
  gate _ c := ∀ action text, c = .submitRequest action text →
    ∃ candidate ∈ candidates, text = admitScopeFor E parserVersion source candidate

/-- The submission loop keeps the contract. -/
theorem submitCandidates_meets_submissionContract {parserVersion : Str} {source : SourceReference}
    {candidates rest : List Candidate} (hsub : rest ⊆ candidates) (history : List PassEvent) :
    (submitCandidates E parserVersion source rest).Meets
      (submissionContract E parserVersion source candidates) (fun _ _ => True) history := by
  induction rest generalizing history with
  | nil => exact trivial
  | cons candidate rest ih =>
    refine ⟨fun action text h => ?_, fun answer _ => ?_⟩
    · cases h
      exact ⟨candidate, hsub List.mem_cons_self, rfl⟩
    · cases answer with
      | error error => exact trivial
      | ok u => exact ih (fun c hc => hsub (List.mem_cons_of_mem _ hc)) _

/-- Dispatch submits the candidates of the answer. -/
theorem submission_of_dispatch {parserVersion scope : Str} {source : SourceReference}
    {outcome : ParseOutcome} {events : List PassEvent}
    {rest : Pass (Except ParserError DispatchOutcome)}
    (hscope : parseInputScope E scope = .ok source)
    (hrun : Runs (dispatch E parserVersion parseAction scope)
      (⟨.parseOnce parserVersion source, .ok outcome⟩ :: events) rest)
    {action text : Str} {answer : Except ParserError Unit}
    (he : ⟨.submitRequest action text, answer⟩ ∈ events) :
    ∃ candidate ∈ outcome.candidates,
      text = admitScopeFor E parserVersion outcome.source candidate := by
  rw [dispatch, if_pos rfl] at hrun
  simp only [hscope] at hrun
  cases hrun with
  | step _ h =>
    obtain ⟨before, after, rfl⟩ := List.append_of_mem he
    have hmeets := @submitCandidates_meets_submissionContract E parserVersion outcome.source
      outcome.candidates _ (List.Subset.refl _) []
    refine @Runs.gate _ _ _ _ (fun _ _ => True) [] _ _ _ _ _ h (hmeets.bind ?_) (fun _ _ => trivial)
      action text rfl
    intro history r _
    cases r <;> exact trivial

/-! ## Which fragments may share a key -/

variable {ι : Type} [Fintype ι] [DecidableEq ι] {calls : ι → Call} {s : State ι Row ParseResult}

/-- Two texts that arrive under one key have the same candidates. -/
def TextsAgree (E : Externals) (calls : ι → Call) : Prop :=
  ∀ i j, (calls i).key E = (calls j).key E → (calls i).IsReadable → (calls j).IsReadable →
    contents ((calls i).candidates E) = contents ((calls j).candidates E)

/-- If all texts under one key have the same candidates, every answer is about its own fragment. -/
theorem fragmentIntegrity_of_textsAgree (hE : E.Lawful) (hagree : TextsAgree E calls)
    {moves : List (ι × Move Row)} (hrun : Run schema (fun _ _ _ => True)
      (State.start [] fun i => parseOnce E (calls i)) moves s) {i : ι} {outcome : ParseOutcome}
    (hresult : (s.session i).result = some (.ok outcome)) :
    FragmentIntegrity E (calls i) outcome := by
  have hinv : Inv E calls [] s :=
    Inv.of_run hE .nil (fun i h => absurd h not_hasRun_nil) hrun
  have hi := (hinv.sessionAt i).succeeded hresult
  obtain ⟨j, hkey, hwinner⟩ := hinv.exists_winner not_hasRun_nil hi.hasRun
  have hj := (hinv.sessionAt j).succeeded hwinner
  have hperm : outcome.candidates.Perm ((calls j).candidates E) :=
    hi.stored.perm hE (hkey ▸ hj.stored)
  have hcandidates : contents outcome.candidates = contents ((calls i).candidates E) := by
    rw [← hagree j i hkey hj.isReadable hi.isReadable]
    exact Multiset.coe_eq_coe.mpr (hperm.map _)
  refine ⟨hcandidates, fun scope events rest hscope hdispatch action text answer he => ?_⟩
  obtain ⟨candidate, hmem, rfl⟩ := submission_of_dispatch hscope hdispatch he
  refine ⟨candidate, by rw [hi.source_eq], ?_⟩
  have hcontent : candidate.anonymous ∈ contents outcome.candidates :=
    Multiset.mem_coe.mpr (List.mem_map_of_mem hmem)
  rwa [hcandidates] at hcontent

/-- A call that runs after another one with its key answers with the candidates of that one. -/
theorem exists_run_of_key_eq (hE : E.Lawful) {i j : ι} (hne : i ≠ j)
    (hkey : (calls i).key E = (calls j).key E) (hi : (calls i).IsReadable)
    (hj : (calls j).IsReadable) (hids : (calls i).HasNewIds E []) :
    ∃ moves s outcome, Run schema (fun _ _ _ => True)
        (State.start [] fun i => parseOnce E (calls i)) moves s ∧
      (s.session j).result = some (.ok outcome) ∧
      outcome.candidates.Perm ((calls i).candidates E) := by
  -- the first call runs alone on empty tables
  obtain ⟨moves₁, heval₁⟩ := exists_evaluates_fresh hE .nil hi not_conflicts_nil not_hasRun_nil hids
  obtain ⟨s₁, hexec₁, hcommitted₁, hresult₁, hothers₁⟩ := State.execute_of_evaluates
    (rfl : (State.start [] fun i => parseOnce E (calls i)).committed = []) rfl (fun _ _ => rfl)
    heval₁
  obtain ⟨hrun₁, hstored₁⟩ := stored_append_rows .nil (@not_hasRun_nil ((calls i).key E))
  have hfree₁ : ¬ Conflicts ([] ++ (calls i).rows E) ((calls j).key E) :=
    not_conflicts_append_rows not_conflicts_nil fun hclash => hclash.2.2 (by rw [hkey])
  rw [hkey] at hrun₁ hstored₁
  -- the second one finds the run of the first
  obtain ⟨moves₂, candidates, hperm, heval₂⟩ := exists_evaluates_repeated hE
    (Schema.Valid.of_evaluates .nil heval₁) hj hfree₁ hrun₁ hstored₁
  have hothers₂ : ∀ k, k ≠ j → (s₁.session k).pending = [] := by
    intro k _
    by_cases hk : k = i
    · rw [hk]
      exact Session.pending_of_result hresult₁
    · rw [hothers₁ k hk]
      rfl
  obtain ⟨s₂, hexec₂, -, hresult₂, -⟩ := State.execute_of_evaluates hcommitted₁
    (hothers₁ j hne.symm) hothers₂ heval₂
  obtain ⟨hrun, -⟩ := Run.solo (fun _ _ _ => trivial) (Run.of_execute hexec₁) hexec₂
  exact ⟨_, s₂, _, hrun, hresult₂, hperm⟩

/-- Every answer in every interleaving is about its own fragment, if and only if all texts that
arrive under one key have the same candidates. -/
theorem fragmentIntegrity_iff (hE : E.Lawful) (hids : ∀ i, (calls i).HasNewIds E []) :
    (∀ moves s, Run schema (fun _ _ _ => True)
        (State.start [] fun i => parseOnce E (calls i)) moves s →
      ∀ i outcome, (s.session i).result = some (.ok outcome) →
        FragmentIntegrity E (calls i) outcome) ↔ TextsAgree E calls := by
  constructor
  · intro hintegrity i j hkey hi hj
    by_cases hne : i = j
    · rw [hne]
    · obtain ⟨moves, s, outcome, hrun, hresult, hperm⟩ :=
        exists_run_of_key_eq hE hne hkey hi hj (hids i)
      have hcandidates := (hintegrity moves s hrun j outcome hresult).candidates
      exact (Multiset.coe_eq_coe.mpr (hperm.map _)).symm.trans hcandidates
  · intro hagree moves s hrun i outcome hresult
    exact fragmentIntegrity_of_textsAgree hE hagree hrun hresult

/-- The contents of candidates do not depend on the UUIDs that a call draws. -/
theorem contents_parseCandidates (fresh fresh' : ℕ → Uuid) (sourceText : Str) :
    contents (parseCandidates E.caseTables fresh sourceText) =
      contents (parseCandidates E.caseTables fresh' sourceText) := by
  unfold contents
  rw [anonymous_parseCandidates, anonymous_parseCandidates]

/-- The two calls of the race carry one text, and the loser answers with candidates of that text. -/
theorem fragmentIntegrity_exampleCalls : TextsAgree .reference exampleCalls ∧
    FragmentIntegrity .reference (exampleCalls .second)
      ⟨exampleSource, (exampleCalls .first).candidates .reference, true⟩ := by
  have hids : ∀ i, (exampleCalls i).HasNewIds .reference [] := fun i =>
    ⟨by revert i; decide +kernel, fun _ _ _ hrow => absurd hrow List.not_mem_nil⟩
  have hagree : TextsAgree .reference exampleCalls :=
    fun i j _ _ _ => contents_parseCandidates _ _ _
  obtain ⟨s, hs, hresult⟩ := Option.map_eq_some_iff.mp result_exampleFinal
  exact ⟨hagree, (fragmentIntegrity_iff Externals.reference_lawful hids).mpr hagree _ s
    (.of_execute hs) .second _ (Prod.mk.inj hresult).2⟩

/-- Two fragments of one document version, with one digest. -/
def fragmentCalls : Caller → Call
  | .first => { exampleCalls .first with
      source := { exampleSource with
        location := "a".toList, sourceText := "Name: Stride".toList } }
  | caller => { exampleCalls caller with
      source := { exampleSource with
        location := "b".toList, sourceText := "Name: Strike".toList } }

/-- The fragments are parsed one after the other. -/
def fragmentMoves : List (Caller × Move Row) :=
  let run := (fragmentCalls .first).runRow .reference
  let stored := ((fragmentCalls .first).candidates .reference).map
    (candidateRow .reference ((fragmentCalls .first).key .reference))
  [(.first, .go []), (.first, .go []), (.first, .go []), (.first, .go []), (.first, .go []),
    (.second, .go [run]), (.second, .go [run]), (.second, .go stored), (.second, .go [])]

/-- The call for the second fragment answers with the candidate of the first one. -/
theorem execute_fragmentMoves :
    ((State.start [] fun i => parseOnce .reference (fragmentCalls i)).execute schema
        fragmentMoves).map (fun s => (s.session .second).result) =
      some (some (.ok ⟨(fragmentCalls .second).source,
        (fragmentCalls .first).candidates .reference, true⟩)) := by
  decide +kernel

/-- A call answers with a candidate that was parsed from another text, at another location. -/
theorem fragmentIntegrity_fails : ∃ s outcome,
    Run schema (fun _ _ _ => True) (State.start [] fun i => parseOnce .reference (fragmentCalls i))
      fragmentMoves s ∧
    (s.session .second).result = some (.ok outcome) ∧ outcome.source.location = "b".toList ∧
    outcome.candidates.map Candidate.name = [some "Stride".toList] ∧
    (fragmentCalls .second).source.sourceText = "Name: Strike".toList ∧
    ¬ FragmentIntegrity .reference (fragmentCalls .second) outcome := by
  obtain ⟨s, hs, hresult⟩ := Option.map_eq_some_iff.mp execute_fragmentMoves
  refine ⟨s, _, .of_execute hs, hresult, rfl, by decide +kernel, rfl, fun h => ?_⟩
  have hne : contents ((fragmentCalls .first).candidates .reference) ≠
      contents ((fragmentCalls .second).candidates .reference) := by decide +kernel
  exact hne h.candidates

end Pf2eParser
