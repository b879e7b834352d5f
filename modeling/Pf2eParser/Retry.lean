import Mathlib.Logic.Relation
import Pf2eParser.Completion
import Pf2eParser.Repository.Refinement

/-!
# Retries

Any number of work passes, of any number of workers, over one repository.  A pass makes its calls
one by one; a call of the repository is one step, and every other call is answered by the kernel as
it likes.  A pass that crashes is one that makes no further step, and a route that is reclaimed is
the route of another pass.

Whatever happens, a logical parse is committed once.  All passes over one input scope submit scopes
of the candidates of that parse, and a pass gets to the completion of its claim only after all of
them were accepted (`retry_stable`).  The reason is in the tables: an answer of the repository is
always what is stored, and what is stored never changes (`RetryInv`).
-/

namespace Pf2eParser

open Text ReadCommitted Interaction

/-! ## The system -/

/-- What a worker has been configured with. -/
structure Worker where
  parserVersion : Str
  leaseSeconds : Int64

/-- A work pass: its calls so far with their answers, and what is left of it. -/
structure PassState where
  trace : List PassEvent
  rest : Pass (Except ParserError WorkOutcome)

/-- The tables, and all passes. -/
structure System (ι : Type) where
  tables : List Row
  pass : ι → PassState

section System

variable {ι : Type} (E : Externals) (workers : ι → Worker)

/-- Empty tables, and passes that have not begun. -/
def System.start : System ι where
  tables := []
  pass i := ⟨[], workOnce E (workers i).parserVersion (workers i).leaseSeconds⟩

variable [DecidableEq ι]

/-- The pass `i` gets an answer, and `rows` are added to the tables. -/
def System.answer (s : System ι) (i : ι) (rows : List Row) (e : PassEvent)
    (rest : Pass (Except ParserError WorkOutcome)) : System ι where
  tables := s.tables ++ rows
  pass := Function.update s.pass i ⟨(s.pass i).trace ++ [e], rest⟩

/-- One call of one pass. -/
inductive System.Step : System ι → System ι → Prop
  /-- The kernel answers. -/
  | kernel {s : System ι} (i : ι) {c : PortCall}
      {next : c.Answer → Pass (Except ParserError WorkOutcome)}
      (hrest : (s.pass i).rest = .call c next)
      (hc : ∀ version source, c ≠ .parseOnce version source) (answer : c.Answer)
      (hanswer : SubmitAnswered ⟨c, answer⟩) :
      Step s (s.answer i [] ⟨c, answer⟩ (next answer))
  /-- The repository answers: the call is executed alone, with UUIDs that it draws. -/
  | parse {s : System ι} (i : ι) {version : Str} {source : SourceReference}
      {next : ParseResult → Pass (Except ParserError WorkOutcome)}
      (hrest : (s.pass i).rest = .call (.parseOnce version source) next) (fresh : ℕ → Uuid)
      {moves : List (Move Row)} {rows : List Row} {answer : ParseResult}
      (hrun : runAlone schema s.tables [] (parseOnce E ⟨version, source, fresh⟩) moves =
        some (rows, answer)) :
      Step s (s.answer i rows ⟨.parseOnce version source, answer⟩ (next answer))

/-- Any number of steps. -/
abbrev System.Steps : System ι → System ι → Prop := Relation.ReflTransGen (System.Step E)

end System

variable {ι : Type} {E : Externals} {workers : ι → Worker} {s s' : System ι}

/-- An event of a pass after a step is an event before the step, or the answer. -/
theorem System.mem_trace_answer [DecidableEq ι] {i j : ι} {rows : List Row} {e e' : PassEvent}
    {rest : Pass (Except ParserError WorkOutcome)} :
    e' ∈ ((s.answer i rows e rest).pass j).trace ↔ e' ∈ (s.pass j).trace ∨ j = i ∧ e' = e := by
  by_cases hj : j = i
  · subst hj
    simp [System.answer]
  · simp [System.answer, hj]

/-! ## What is committed -/

/-- The key of the logical parse of a source. -/
def sourceKey (E : Externals) (version : Str) (source : SourceReference) : RunKey :=
  Call.key E ⟨version, source, fun _ => 0⟩

/-- The pass has committed the parse with the key. -/
def System.Commits (E : Externals) (s : System ι) (key : RunKey) (i : ι) (first : ParseOutcome) :
    Prop :=
  ∃ version source, ⟨.parseOnce version source, .ok first⟩ ∈ (s.pass i).trace ∧
    sourceKey E version source = key ∧ first.wasAlreadyProcessed = false

/-- What holds in every state of the system. -/
structure RetryInv (E : Externals) (workers : ι → Worker) (s : System ι) : Prop where
  /-- The tables hold an abstract state. -/
  represents : ∃ store, Represents E s.tables store
  /-- Every pass is a run of the program. -/
  runs : ∀ i, Runs (workOnce E (workers i).parserVersion (workers i).leaseSeconds)
    (s.pass i).trace (s.pass i).rest
  /-- Submissions are not answered with `UnknownAction`. -/
  answered : ∀ i, ∀ e ∈ (s.pass i).trace, SubmitAnswered e
  /-- A parse was answered with what is stored. -/
  parsed : ∀ i version source outcome,
    ⟨.parseOnce version source, .ok outcome⟩ ∈ (s.pass i).trace → outcome.source = source ∧
      HasRun s.tables (sourceKey E version source) ∧
      Stored E s.tables (sourceKey E version source) outcome.candidates
  /-- Every run was committed by a pass. -/
  committed : ∀ key, HasRun s.tables key → ∃ i first, s.Commits E key i first
  /-- A run was committed once. -/
  unique : ∀ key i j first first', s.Commits E key i first → s.Commits E key j first' →
    i = j ∧ first = first'

/-- Before any pass begins. -/
theorem RetryInv.start : RetryInv E workers (System.start E workers) where
  represents := ⟨_, .nil⟩
  runs _ := .refl _
  answered _ _ he := absurd he List.not_mem_nil
  parsed _ _ _ _ he := absurd he List.not_mem_nil
  committed _ h := absurd h not_hasRun_nil
  unique _ _ _ _ _ h := absurd h.choose_spec.choose_spec.1 List.not_mem_nil

/-! ## Submissions and completions -/

namespace PassState

variable (p : PassState)

/-- The pass has read a parse request with the input scope. -/
def IsOver (scope : Str) : Prop :=
  ∃ routeId request, ⟨.routedRequest routeId, .ok (.found request)⟩ ∈ p.trace ∧
    request.action = parseAction ∧ request.scope = scope

/-- The pass has made the call, or it is about to make it. -/
def Makes (c : PortCall) : Prop :=
  (∃ answer, ⟨c, answer⟩ ∈ p.trace) ∨ ∃ next, p.rest = .call c next

/-- The kernel has accepted the submission. -/
def Accepted (text : Str) : Prop := ⟨.submitRequest admitAction text, .ok ()⟩ ∈ p.trace

end PassState

/-- A call of a pass is made behind a history that allows it. -/
theorem RetryInv.gate (h : RetryInv E workers s) {i : ι} {c : PortCall}
    (hc : (s.pass i).Makes c) : ∃ history, history <+: (s.pass i).trace ∧
      passGate E (workers i).parserVersion (workers i).leaseSeconds history c := by
  rcases hc with ⟨answer, he⟩ | ⟨next, hrest⟩
  · obtain ⟨before, after, htrace⟩ := List.append_of_mem he
    have hruns := h.runs i
    rw [htrace] at hruns
    exact ⟨before, ⟨_, htrace.symm⟩, hruns.gate workOnce_meets fun e he' =>
      h.answered i e (htrace ▸ List.mem_append_left _ he')⟩
  · have hmeets := (h.runs i).meets workOnce_meets (h.answered i)
    rw [hrest, List.nil_append] at hmeets
    exact ⟨_, List.prefix_rfl, hmeets.1⟩

/-- A pass over a scope has begun by reading its request. -/
theorem RetryInv.opening (h : RetryInv E workers s) {i : ι} {scope : Str}
    (hover : (s.pass i).IsOver scope) : ∃ route routes claim request,
      Pf2eParser.opening (workers i).leaseSeconds route routes claim request <+: (s.pass i).trace ∧
        request.action = parseAction ∧ request.scope = scope := by
  obtain ⟨routeId, request, he, haction, hscope⟩ := hover
  obtain ⟨before, after, htrace⟩ := List.append_of_mem he
  have hruns := h.runs i
  rw [htrace] at hruns
  have hgate := hruns.gate workOnce_meets fun e he' =>
    h.answered i e (htrace ▸ List.mem_append_left _ he')
  obtain ⟨route, routes, claim, rfl, hbefore⟩ := hgate
  rw [List.nil_append] at hbefore
  refine ⟨route, routes, claim, request, ⟨after, ?_⟩, haction, hscope⟩
  rw [htrace, hbefore]
  rfl

/-- The request that an event has read. -/
def requestOf : PassEvent → Option RoutedRequest
  | ⟨.routedRequest _, .ok (.found request)⟩ => some request
  | _ => none

/-- Two beginnings of one trace have read the same request. -/
theorem request_eq_of_opening {leaseSeconds : Int64} {route route' : EligibleRoute}
    {routes routes' : List EligibleRoute} {claim claim' : WorkClaim}
    {request request' : RoutedRequest} {trace : List PassEvent}
    (h : opening leaseSeconds route routes claim request <+: trace)
    (h' : opening leaseSeconds route' routes' claim' request' <+: trace) : request = request' := by
  have hle := List.prefix_of_prefix_length_le h h' (by simp [opening])
  have heq := hle.eq_of_length (by simp [opening])
  simpa [opening, requestOf] using congrArg (List.map requestOf) heq

/-- An answer of the repository holds the candidates of the parse that was committed. -/
theorem RetryInv.exists_commits (hE : E.Lawful) (h : RetryInv E workers s) {i : ι} {version : Str}
    {source : SourceReference} {outcome : ParseOutcome}
    (he : ⟨.parseOnce version source, .ok outcome⟩ ∈ (s.pass i).trace) :
    outcome.source = source ∧ ∃ j first, s.Commits E (sourceKey E version source) j first ∧
      outcome.candidates.Perm first.candidates := by
  obtain ⟨hsource, hrun, hs⟩ := h.parsed i version source outcome he
  obtain ⟨j, first, hcommits⟩ := h.committed _ hrun
  obtain ⟨version', source', he', hkey, -⟩ := id hcommits
  have hs' := (h.parsed j version' source' first he').2.2
  rw [hkey] at hs'
  exact ⟨hsource, j, first, hcommits, hs.perm hE hs'⟩

/-- A pass over a scope that has got to its submissions has parsed the source of the scope. -/
theorem RetryInv.exists_commits_of_atSubmission (hE : E.Lawful) (h : RetryInv E workers s) {i : ι}
    {scope : Str} (hover : (s.pass i).IsOver scope) {history : List PassEvent}
    (hhistory : history <+: (s.pass i).trace) {claim : WorkClaim} {outcome : ParseOutcome}
    {done : List Candidate} (hat : AtSubmission E (workers i).parserVersion
      (workers i).leaseSeconds claim outcome done history) :
    parseInputScope E scope = .ok outcome.source ∧ ∃ j first,
      s.Commits E (sourceKey E (workers i).parserVersion outcome.source) j first ∧
        outcome.candidates.Perm first.candidates := by
  obtain ⟨route, routes, claim', request, hopening, -, rfl⟩ := h.opening hover
  obtain ⟨route', routes', request', source, -, hscope, rfl⟩ := hat
  have hopening' := (List.prefix_append _ _).trans hhistory
  rw [request_eq_of_opening hopening hopening']
  obtain ⟨rfl, hcommits⟩ :=
    h.exists_commits hE (hhistory.subset (List.mem_append_right _ List.mem_cons_self))
  exact ⟨hscope, hcommits⟩

/-- The identity of a candidate can be read off its scope. -/
theorem candidateId_eq_of_admitScopeFor_eq (hE : E.Lawful) {version : Str}
    {source : SourceReference} {candidate candidate' : Candidate}
    (h : admitScopeFor E version source candidate = admitScopeFor E version source candidate') :
    candidate.candidateId = candidate'.candidateId := by
  have htake := congrArg (List.take 36) h
  unfold admitScopeFor at htake
  rw [List.take_left' (hE.uuid.length_toStr _), List.take_left' (hE.uuid.length_toStr _)] at htake
  exact hE.uuid.toStr_injective htake

/-- Stored candidates have different identities. -/
theorem Stored.pairwise_candidateId {tables : List Row} {key : RunKey} {candidates : List Candidate}
    (h : Stored E tables key candidates) (hvalid : schema.Valid tables) :
    candidates.Pairwise fun a b => a.candidateId ≠ b.candidateId := by
  have hnodup : ((tables.filter (isCandidateOf key)).map Row.key).Nodup :=
    (List.filter_sublist.map _).nodup hvalid.keys_nodup
  have hkeys := (h.map Row.key).nodup_iff.mp hnodup
  rw [List.map_map, List.Nodup, List.pairwise_map] at hkeys
  exact hkeys.imp fun hne heq => hne (congrArg (fun id => RowKey.candidate (E.uuid.toStr id)) heq)

/-- What retries cannot change: `s` is a state that was reached, and `s'` a later one. -/
structure RetryStable (E : Externals) (workers : ι → Worker) (s s' : System ι) : Prop where
  /-- A parse that was committed stays the one that was committed. -/
  fixed : ∀ key i first, s.Commits E key i first → s'.Commits E key i first
  /-- A logical parse was committed by one pass. -/
  unique : ∀ key i j first first', s'.Commits E key i first → s'.Commits E key j first' →
    i = j ∧ first = first'
  /-- Its candidates have different scopes. -/
  distinct : ∀ key i first, s'.Commits E key i first → ∀ version source,
    (first.candidates.map (admitScopeFor E version source)).Nodup
  /-- A pass over a scope submits the candidates of the parse that was committed. -/
  submitted : ∀ i scope action text, (s'.pass i).IsOver scope →
    (s'.pass i).Makes (.submitRequest action text) →
    ∃ source j first, parseInputScope E scope = .ok source ∧
      s'.Commits E (sourceKey E (workers i).parserVersion source) j first ∧ action = admitAction ∧
      text ∈ first.candidates.map (admitScopeFor E (workers i).parserVersion source)
  /-- A pass over a scope completes its claim only after all of them were accepted. -/
  completed : ∀ i scope claimId fencingToken, (s'.pass i).IsOver scope →
    (s'.pass i).Makes (.completeClaim claimId fencingToken) →
    ∃ source j first, parseInputScope E scope = .ok source ∧
      s'.Commits E (sourceKey E (workers i).parserVersion source) j first ∧
      ∀ text ∈ first.candidates.map (admitScopeFor E (workers i).parserVersion source),
        (s'.pass i).Accepted text

/-- The invariant says what retries cannot change in a state. -/
theorem RetryInv.stable (hE : E.Lawful) (h : RetryInv E workers s) : RetryStable E workers s s := by
  obtain ⟨store, hrepresents⟩ := h.represents
  refine ⟨fun _ _ _ => id, h.unique, ?_, ?_, ?_⟩
  · rintro key i first ⟨version', source', he, -, -⟩ version source
    have hids := (h.parsed i version' source' first he).2.2.pairwise_candidateId hrepresents.valid
    rw [List.Nodup, List.pairwise_map]
    exact hids.imp fun hne heq => hne (candidateId_eq_of_admitScopeFor_eq hE heq)
  · intro i scope action text hover hmakes
    obtain ⟨history, hhistory, claim, outcome, done, candidate, rest, hsplit, haction, rfl, hat⟩ :=
      h.gate hmakes
    obtain ⟨hscope, j, first, hcommits, hperm⟩ :=
      h.exists_commits_of_atSubmission hE hover hhistory hat
    have hmem : candidate ∈ first.candidates := hperm.mem_iff.mp (by simp [hsplit])
    exact ⟨_, j, first, hscope, hcommits, haction, List.mem_map_of_mem hmem⟩
  · intro i scope claimId fencingToken hover hmakes
    obtain ⟨history, hhistory, claim, -, -, hunknown | ⟨outcome, hat⟩⟩ := h.gate hmakes
    · obtain ⟨route, routes, claim', request, hopening, haction, -⟩ := h.opening hover
      obtain ⟨route', routes', request', hother, rfl⟩ := hunknown
      rw [request_eq_of_opening hopening hhistory] at haction
      exact absurd haction hother
    · obtain ⟨hscope, j, first, hcommits, hperm⟩ :=
        h.exists_commits_of_atSubmission hE hover hhistory hat
      refine ⟨_, j, first, hscope, hcommits, fun text htext => ?_⟩
      obtain ⟨candidate, hcandidate, rfl⟩ := List.mem_map.mp htext
      obtain ⟨route, routes, request, source, -, -, rfl⟩ := hat
      refine hhistory.subset (List.mem_append_right _ (List.mem_cons_of_mem _ ?_))
      exact List.mem_map_of_mem (hperm.mem_iff.mpr hcandidate)

/-! ## One step -/

variable [DecidableEq ι]

/-- A pass goes on with an answer. -/
theorem RetryInv.runs_answer (h : RetryInv E workers s) {i : ι} {c : PortCall}
    {next : c.Answer → Pass (Except ParserError WorkOutcome)}
    (hrest : (s.pass i).rest = .call c next) (rows : List Row) (a : c.Answer) (j : ι) :
    Runs (workOnce E (workers j).parserVersion (workers j).leaseSeconds)
      ((s.answer i rows ⟨c, a⟩ (next a)).pass j).trace
      ((s.answer i rows ⟨c, a⟩ (next a)).pass j).rest := by
  have hruns := h.runs j
  by_cases hj : j = i
  · subst hj
    rw [hrest] at hruns
    simpa [System.answer] using hruns.snoc a
  · simpa [System.answer, hj] using hruns

/-- The submissions after a step. -/
theorem RetryInv.answered_answer (h : RetryInv E workers s) {i : ι} {e : PassEvent}
    (he : SubmitAnswered e) (rows : List Row) (rest : Pass (Except ParserError WorkOutcome))
    (j : ι) :
    ∀ e' ∈ ((s.answer i rows e rest).pass j).trace, SubmitAnswered e' := by
  intro e' he'
  rcases System.mem_trace_answer.mp he' with he' | ⟨-, rfl⟩
  · exact h.answered j e' he'
  · exact he

/-- An answer of the kernel keeps the invariant. -/
theorem RetryInv.kernel (h : RetryInv E workers s) {i : ι} {c : PortCall}
    {next : c.Answer → Pass (Except ParserError WorkOutcome)}
    (hrest : (s.pass i).rest = .call c next)
    (hc : ∀ version source, c ≠ .parseOnce version source) (a : c.Answer)
    (ha : SubmitAnswered ⟨c, a⟩) : RetryInv E workers (s.answer i [] ⟨c, a⟩ (next a)) := by
  have htables : (s.answer i [] ⟨c, a⟩ (next a)).tables = s.tables := List.append_nil _
  have hparse : ∀ {j version source answer},
      ⟨.parseOnce version source, answer⟩ ∈ ((s.answer i [] ⟨c, a⟩ (next a)).pass j).trace ↔
        ⟨.parseOnce version source, answer⟩ ∈ (s.pass j).trace := by
    intro j version source answer
    rw [System.mem_trace_answer]
    refine or_iff_left fun hnew => hc version source ?_
    exact (congrArg Sigma.fst hnew.2).symm
  refine ⟨htables ▸ h.represents, h.runs_answer hrest [] a, h.answered_answer ha [] _, ?_, ?_, ?_⟩
  · intro j version source outcome he
    rw [htables]
    exact h.parsed j version source outcome (hparse.mp he)
  · intro key hrun
    rw [htables] at hrun
    simpa only [System.Commits, hparse] using h.committed key hrun
  · simpa only [System.Commits, hparse] using h.unique

/-- What is committed after an answer of the repository was committed before, or by this answer. -/
theorem System.commits_answer_iff {i j : ι} {version : Str} {source : SourceReference}
    {rows : List Row} {answer : ParseResult} {rest : Pass (Except ParserError WorkOutcome)}
    {key : RunKey} {first : ParseOutcome} :
    (s.answer i rows ⟨.parseOnce version source, answer⟩ rest).Commits E key j first ↔
      s.Commits E key j first ∨ j = i ∧ answer = .ok first ∧ sourceKey E version source = key ∧
        first.wasAlreadyProcessed = false := by
  constructor
  · rintro ⟨version', source', he, hsource, hfirst⟩
    rcases System.mem_trace_answer.mp he with he | ⟨hj, he⟩
    · exact Or.inl ⟨version', source', he, hsource, hfirst⟩
    · cases he
      exact Or.inr ⟨hj, rfl, hsource, hfirst⟩
  · rintro (⟨version', source', he, hsource, hfirst⟩ | ⟨rfl, rfl, hsource, hfirst⟩)
    · exact ⟨version', source', System.mem_trace_answer.mpr (Or.inl he), hsource, hfirst⟩
    · exact ⟨version, source, System.mem_trace_answer.mpr (Or.inr ⟨rfl, rfl⟩), hsource, hfirst⟩

/-- An answer of the repository keeps the invariant. -/
theorem RetryInv.parse (hE : E.Lawful) (h : RetryInv E workers s) {i : ι} {version : Str}
    {source : SourceReference} {next : ParseResult → Pass (Except ParserError WorkOutcome)}
    (hrest : (s.pass i).rest = .call (.parseOnce version source) next) {fresh : ℕ → Uuid}
    {moves : List (Move Row)} {rows : List Row} {answer : ParseResult}
    (hrun : runAlone schema s.tables [] (parseOnce E ⟨version, source, fresh⟩) moves =
      some (rows, answer)) :
    RetryInv E workers (s.answer i rows ⟨.parseOnce version source, answer⟩ (next answer)) := by
  obtain ⟨store, hrepresents⟩ := h.represents
  obtain ⟨store', hnext, -⟩ := hrepresents.next hE hrun
  have hanswered := hrepresents.answered_of_runAlone hE hrun
  have hkey : Call.key E ⟨version, source, fresh⟩ = sourceKey E version source := rfl
  have hforeign : ∀ key, HasRun s.tables key → ∀ row ∈ rows, isCandidateOf key row = false := by
    intro key hold
    rcases hanswered.rows_eq with rfl | ⟨rfl, hnew, -⟩
    · exact fun row hrow => absurd hrow List.not_mem_nil
    · exact isCandidateOf_of_mem_rows fun hsame => hnew (hsame ▸ hold)
  -- a parse that is committed now was not committed before
  have hnot : ∀ {key j first first'}, s.Commits E key j first → answer = .ok first' →
      sourceKey E version source = key → first'.wasAlreadyProcessed ≠ false := by
    rintro key j first first' ⟨version', source', he, rfl, -⟩ rfl hsame hnew
    refine (hanswered.stored hrepresents.valid).2.2.2 hnew ?_
    rw [hkey, hsame]
    exact (h.parsed j version' source' first he).2.1
  have hsubmit : SubmitAnswered ⟨.parseOnce version source, answer⟩ := trivial
  refine ⟨⟨store', hnext⟩, h.runs_answer hrest rows answer, h.answered_answer hsubmit rows _,
    ?_, ?_, ?_⟩
  · intro j version' source' outcome he
    rcases System.mem_trace_answer.mp he with he | ⟨-, he⟩
    · obtain ⟨hsource, hold, hs⟩ := h.parsed j version' source' outcome he
      exact ⟨hsource, hold.append rows, hs.append (hforeign _ hold)⟩
    · cases he
      obtain ⟨hsource, hstored, hs, -⟩ := hanswered.stored hrepresents.valid
      exact ⟨hsource, hstored, hs⟩
  · intro key hrun'
    rcases hanswered.rows_eq with rfl | ⟨rfl, -, hanswer⟩
    · obtain ⟨j, first, hcommitted⟩ := h.committed key (by rwa [← List.append_nil s.tables])
      exact ⟨j, first, System.commits_answer_iff.mpr (Or.inl hcommitted)⟩
    · rcases hasRun_append_rows.mp hrun' with hold | rfl
      · obtain ⟨j, first, hcommitted⟩ := h.committed key hold
        exact ⟨j, first, System.commits_answer_iff.mpr (Or.inl hcommitted)⟩
      · exact ⟨i, _, System.commits_answer_iff.mpr (Or.inr ⟨rfl, hanswer, rfl, rfl⟩)⟩
  · intro key j k first first' hj hk
    rcases System.commits_answer_iff.mp hj with hold | ⟨hji, hanswer, hsource, hfirst⟩
    · rcases System.commits_answer_iff.mp hk with hold' | ⟨-, hanswer', hsource', hfirst'⟩
      · exact h.unique key j k first first' hold hold'
      · exact absurd hfirst' (hnot hold hanswer' hsource')
    · rcases System.commits_answer_iff.mp hk with hold' | ⟨hki, hanswer', -, -⟩
      · exact absurd hfirst (hnot hold' hanswer hsource)
      · exact ⟨hji.trans hki.symm, Except.ok.inj (hanswer.symm.trans hanswer')⟩

/-- Every step keeps the invariant. -/
theorem RetryInv.step (hE : E.Lawful) (h : RetryInv E workers s) (hstep : System.Step E s s') :
    RetryInv E workers s' := by
  cases hstep with
  | kernel i hrest hc answer hanswer => exact h.kernel hrest hc answer hanswer
  | parse i hrest fresh hrun => exact h.parse hE hrest hrun

/-- The invariant holds in every state that is reached. -/
theorem RetryInv.of_steps (hE : E.Lawful) (h : RetryInv E workers s)
    (hsteps : System.Steps E s s') : RetryInv E workers s' := by
  induction hsteps with
  | refl => exact h
  | tail _ hstep ih => exact ih.step hE hstep

/-! ## All runs -/

/-- What a pass has committed stays in its trace. -/
theorem System.Commits.of_step {key : RunKey} {i : ι} {first : ParseOutcome}
    (h : s.Commits E key i first) (hstep : System.Step E s s') : s'.Commits E key i first := by
  obtain ⟨version, source, he, hrest⟩ := h
  cases hstep with
  | kernel => exact ⟨version, source, System.mem_trace_answer.mpr (Or.inl he), hrest⟩
  | parse => exact ⟨version, source, System.mem_trace_answer.mpr (Or.inl he), hrest⟩

/-- In every run of any number of passes, a retry submits what was submitted before, and nothing is
left to submit when a claim is completed. -/
theorem retry_stable (hE : E.Lawful) (hs : System.Steps E (System.start E workers) s)
    (hs' : System.Steps E s s') : RetryStable E workers s s' := by
  have hinv : RetryInv E workers s' := (RetryInv.start.of_steps hE hs).of_steps hE hs'
  refine { hinv.stable hE with fixed := fun key i first hcommits => ?_ }
  induction hs' with
  | refl => exact hcommits
  | tail hs'' hstep ih =>
    exact (ih ((RetryInv.start.of_steps hE hs).of_steps hE hs'')).of_step hstep

/-! ## A crash between the commit and the submission -/

/-- A pass makes calls of the kernel. -/
theorem System.Steps.of_runs {i : ι} {rest rest' : Pass (Except ParserError WorkOutcome)}
    {events : List PassEvent} (hrest : (s.pass i).rest = rest) (h : Runs rest events rest')
    (hevents : ∀ e ∈ events,
      (∀ version source, e.1 ≠ .parseOnce version source) ∧ SubmitAnswered e) :
    ∃ s', System.Steps E s s' ∧ s'.tables = s.tables ∧
      s'.pass i = ⟨(s.pass i).trace ++ events, rest'⟩ ∧ ∀ j, j ≠ i → s'.pass j = s.pass j := by
  induction h generalizing s with
  | refl p => exact ⟨s, .refl, rfl, by rw [List.append_nil, ← hrest], fun _ _ => rfl⟩
  | @step c next a events _ _ ih =>
    obtain ⟨hc, ha⟩ := hevents _ List.mem_cons_self
    have hstep : System.Step E s (s.answer i [] ⟨c, a⟩ (next a)) := .kernel i hrest hc a ha
    obtain ⟨s', hsteps, htables, hpass, hothers⟩ := @ih (s.answer i [] ⟨c, a⟩ (next a))
      (by simp [System.answer]) fun e he => hevents e (List.mem_cons_of_mem _ he)
    refine ⟨s', .head hstep hsteps, by rw [htables, System.answer, List.append_nil], ?_, ?_⟩
    · rw [hpass]
      simp [System.answer]
    · intro j hj
      rw [hothers j hj]
      simp [System.answer, hj]

/-- A pass makes a call of the repository. -/
theorem System.Steps.of_runAlone {i : ι} {version : Str} {source : SourceReference}
    {next : ParseResult → Pass (Except ParserError WorkOutcome)}
    (hrest : (s.pass i).rest = .call (.parseOnce version source) next) {fresh : ℕ → Uuid}
    {moves : List (Move Row)} {rows : List Row} {answer : ParseResult}
    (hrun : runAlone schema s.tables [] (parseOnce E ⟨version, source, fresh⟩) moves =
      some (rows, answer)) :
    ∃ s', System.Steps E s s' ∧ s'.tables = s.tables ++ rows ∧
      s'.pass i = ⟨(s.pass i).trace ++ [⟨.parseOnce version source, answer⟩], next answer⟩ ∧
      ∀ j, j ≠ i → s'.pass j = s.pass j :=
  ⟨_, .single (.parse i hrest fresh hrun), rfl, Function.update_self _ _ _,
    fun _ hj => Function.update_of_ne hj _ _⟩

/-- Two workers of one build. -/
def retryWorkers (_ : Fin 2) : Worker := ⟨cargoParserVersion, 60⟩

/-- A parse of `longLocation`. -/
def retryCall : Call := ⟨cargoParserVersion, longLocation, fun _ => 7⟩

/-- The parse of `longLocation` by a pass that crashes behind it, and the parse by the next pass. -/
theorem runAlone_longLocation :
    runAlone schema [] [] (parseOnce .reference retryCall)
        [.go [], .go [], .go [], .go [], .go []] =
        some (retryCall.rows .reference,
          .ok ⟨longLocation, retryCall.candidates .reference, false⟩) ∧
      runAlone schema ([] ++ retryCall.rows .reference) [] (parseOnce .reference retryCall)
        [.go [retryCall.runRow .reference], .go [retryCall.runRow .reference],
          .go ((retryCall.candidates .reference).map
            (candidateRow .reference (retryCall.key .reference))), .go []] =
        some ([], .ok ⟨longLocation, retryCall.candidates .reference, true⟩) := by
  decide +kernel

/-- A pass crashes after its parse was committed; the next one submits the stored candidate and
completes its claim. -/
theorem retry_stable_crash : ∃ s : System (Fin 2),
    System.Steps .reference (System.start .reference retryWorkers) s ∧
    (s.pass 0).trace.length = 4 ∧
    (s.pass 1).rest = .ret (.ok (.completed "r".toList (.parsed 1 true))) ∧
    RetryStable .reference retryWorkers s s := by
  have hcandidates : retryCall.candidates .reference = [parseBlock .ascii 7 "x".toList] := by
    decide +kernel
  -- a pass up to its parse, and behind it
  obtain ⟨next, hdispatch, hsubmission⟩ : ∃ next,
      (dispatch .reference cargoParserVersion exampleRequest.action exampleRequest.scope).bind
        (concludePass exampleRoute.routeId exampleClaim) =
          .call (.parseOnce cargoParserVersion longLocation) next ∧
      Runs (next (.ok ⟨longLocation, retryCall.candidates .reference, true⟩))
        [accepted .reference cargoParserVersion longLocation (parseBlock .ascii 7 "x".toList),
          ⟨.completeClaim "c".toList 3, .ok (.completed exampleClaim)⟩]
        (.ret (.ok (.completed "r".toList (.parsed 1 true)))) := by
    rw [show exampleRequest.action = parseAction from rfl, dispatch, if_pos rfl, hcandidates,
      show parseInputScope .reference exampleRequest.scope = .ok longLocation from
        parseInputScope_longLocation.2]
    exact ⟨_, rfl, .step _ (.step _ (.refl _))⟩
  have hopening : Runs (workOnce .reference cargoParserVersion 60)
      (opening 60 exampleRoute [] exampleClaim exampleRequest)
      (.call (.parseOnce cargoParserVersion longLocation) next) :=
    hdispatch ▸ .step _ (.step _ (.step _ (.refl _)))
  have hevents : ∀ e ∈ opening 60 exampleRoute [] exampleClaim exampleRequest,
      (∀ version source, e.1 ≠ .parseOnce version source) ∧ SubmitAnswered e := by
    simp [opening, SubmitAnswered]
  obtain ⟨s₁, hsteps₁, htables₁, hpass₁, hothers₁⟩ := @System.Steps.of_runs _ .reference
    (System.start .reference retryWorkers) _ 0 _ _ _ rfl hopening hevents
  obtain ⟨s₂, hsteps₂, htables₂, hpass₂, hothers₂⟩ := System.Steps.of_runAlone
    (congrArg PassState.rest hpass₁) (by rw [htables₁]; exact runAlone_longLocation.1)
  have hrest : (s₂.pass 1).rest = workOnce .reference cargoParserVersion 60 := by
    rw [hothers₂ 1 (by decide), hothers₁ 1 (by decide)]
    rfl
  obtain ⟨s₃, hsteps₃, htables₃, hpass₃, hothers₃⟩ :=
    @System.Steps.of_runs _ .reference s₂ _ 1 _ _ _ hrest hopening hevents
  obtain ⟨s₄, hsteps₄, -, hpass₄, hothers₄⟩ := System.Steps.of_runAlone
    (congrArg PassState.rest hpass₃)
    (by rw [htables₃, htables₂, htables₁]; exact runAlone_longLocation.2)
  obtain ⟨s₅, hsteps₅, -, hpass₅, hothers₅⟩ := System.Steps.of_runs
    (congrArg PassState.rest hpass₄) hsubmission (by simp [accepted, SubmitAnswered])
  have hsteps := (((hsteps₁.trans hsteps₂).trans hsteps₃).trans hsteps₄).trans hsteps₅
  refine ⟨s₅, hsteps, ?_, congrArg PassState.rest hpass₅,
    retry_stable Externals.reference_lawful hsteps .refl⟩
  rw [hothers₅ 0 (by decide), hothers₄ 0 (by decide), hothers₃ 0 (by decide), hpass₂, hpass₁]
  rfl

end Pf2eParser
