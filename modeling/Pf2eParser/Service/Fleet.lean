import Pf2eParser.ReadCommitted.Connections
import Pf2eParser.Retry
import Pf2eParser.Service.Guarantees

/-!
# A fleet of processes

Any number of processes of the service, of any builds, over one database.  The calls of the
processes interleave in any order, and so do the statements of their transactions, which run on
connections under read committed.  A process that is killed makes no further call.  A process that
loses its connection goes on with an error, and what is left of the transaction is up to the
database: it may be rolled back, or its commit may still come through.  The kernel, the network and
the clock answer as they like.

Whatever happens, what was stored for a logical parse never changes, every submission of any process
is one of the candidates that are stored for the input scope of its route, and a process completes a
claim only after the kernel has accepted all of them from it (`fleet_stable`).
-/

namespace Pf2eParser

open Text ReadCommitted Interaction

/-! ## The tables -/

/-- Everything that is stored for a run stays stored. -/
def Keeps (E : Externals) (tables tables' : List Row) : Prop :=
  ∀ key, HasRun tables key → HasRun tables' key ∧
    ∀ candidates, Stored E tables key candidates → Stored E tables' key candidates

/-- Every run is stored with its candidates. -/
def AllStored (E : Externals) (tables : List Row) : Prop :=
  ∀ key, HasRun tables key → ∃ candidates, Stored E tables key candidates

section Tables

variable {E : Externals} {tables tables' tables'' : List Row}

theorem Keeps.refl (tables : List Row) : Keeps E tables tables := fun _ h => ⟨h, fun _ => id⟩

theorem Keeps.trans (h : Keeps E tables tables') (h' : Keeps E tables' tables'') :
    Keeps E tables tables'' := by
  intro key hrun
  obtain ⟨hrun', hstored⟩ := h key hrun
  obtain ⟨hrun'', hstored'⟩ := h' key hrun'
  exact ⟨hrun'', fun candidates hs => hstored' candidates (hstored candidates hs)⟩

/-- The rows of a new run leave the other runs as they are. -/
theorem Keeps.append_rows {call : Call} (hnew : ¬ HasRun tables (call.key E)) :
    Keeps E tables (tables ++ call.rows E) := by
  intro key hrun
  have hkey : call.key E ≠ key := fun hkey => hnew (hkey ▸ hrun)
  exact ⟨hrun.append _, fun _ hs => hs.append (isCandidateOf_of_mem_rows hkey)⟩

/-- The rows of a new run store its candidates. -/
theorem AllStored.append_rows {call : Call} (h : AllStored E tables)
    (hvalid : schema.Valid tables) (hnew : ¬ HasRun tables (call.key E)) :
    AllStored E (tables ++ call.rows E) := by
  intro key hrun
  rcases hasRun_append_rows.mp hrun with hold | rfl
  · obtain ⟨candidates, hs⟩ := h key hold
    exact ⟨candidates, (Keeps.append_rows hnew key hold).2 candidates hs⟩
  · exact ⟨_, (stored_append_rows hvalid hnew).2⟩

variable {κ : Type} {calls : κ → Call} {initial : List Row} {s s' : State κ Row ParseResult}

/-- A connection can begin the transaction of a new call. -/
theorem Inv.beginTx [DecidableEq κ] (h : Inv E calls initial s) (hstored : AllStored E s.committed)
    (k : κ) (call : Call) :
    Inv E (Function.update calls k call) s.committed (s.beginTx k (parseOnce E call)) where
  consistent := h.consistent.beginTx k _
  sessionAt j := by
    by_cases hj : j = k
    · subst hj
      rw [State.session_beginTx_self, Function.update_self]
      exact .start
    · rw [State.session_beginTx_of_ne _ hj, Function.update_of_ne hj]
      exact h.sessionAt j
  stored _ := hstored _

/-- A statement commits nothing, or all rows of a new run. -/
theorem Inv.committed_next [Fintype κ] [DecidableEq κ] (hE : E.Lawful) (h : Inv E calls initial s)
    {k : κ} {move : Move Row} (hn : s.next schema k move = some s') :
    s'.committed = s.committed ∨ s'.committed = s.committed ++ (calls k).rows E ∧
      ¬ HasRun s.committed ((calls k).key E) := by
  obtain ⟨writes, tx, rows, session, hs, hadv, hcommitted, -, -⟩ := State.next_cases hn
  have hfree : ∀ row ∈ writes, ∀ row' ∈ s.committed, row'.key ≠ row.key := by
    intro row hrow
    exact h.consistent.pending_disjoint k row (by rw [hs]; exact hrow)
  have hstep : Advanced E (calls k) s.committed move rows session :=
    SessionAt.advance hE h.consistent.valid (hs ▸ h.sessionAt k) (h.stored k) hfree hadv
  rw [hcommitted]
  rcases hstep.rows_eq with rfl | ⟨rfl, hnew⟩
  · exact Or.inl (List.append_nil _)
  · exact Or.inr ⟨rfl, hnew⟩

end Tables

/-! ## The system -/

/-- How a process is built, and how many rounds it makes. -/
structure Replica where
  parserVersion : Str
  rounds : ℕ

/-- A process: its calls so far with their answers, what is left of it, and the connection that
executes its call of the repository. -/
structure ProcessState (κ : Type) where
  trace : List ServiceEvent
  rest : Service (Except ParserError (Option InstanceLease))
  connection : Option κ

/-- The database, the call that every connection executes or has executed last, and the processes.
-/
structure Fleet (ι κ : Type) where
  database : State κ Row ParseResult
  call : κ → Call
  process : ι → ProcessState κ

/-- The call is one of the repository. -/
def ServiceCall.isParse : ServiceCall → Bool
  | parseOnce _ _ => true
  | _ => false

/-- A call without a text; what a new connection has executed. -/
def blankCall : Call := ⟨[], ⟨0, 0, .replicate 32 0, [], []⟩, fun _ => 0⟩

namespace Fleet

variable {ι κ : Type} (E : Externals) (J : KernelJson) (replicas : ι → Replica)

/-- Empty tables, new connections, and processes that have not begun. -/
def start : Fleet ι κ where
  database := ⟨[], fun _ => .ended [] (.error .emptySourceText)⟩
  call _ := blankCall
  process i := ⟨[], main E J (replicas i).parserVersion (replicas i).rounds, none⟩

variable [DecidableEq ι]

/-- The process `i` gets an answer. -/
def answer (s : Fleet ι κ) (i : ι) (e : ServiceEvent)
    (rest : Service (Except ParserError (Option InstanceLease))) : Fleet ι κ where
  database := s.database
  call := s.call
  process := Function.update s.process i ⟨(s.process i).trace ++ [e], rest, none⟩

variable [DecidableEq κ]

/-- The connection `k` begins a call of the process `i`. -/
def begin (s : Fleet ι κ) (i : ι) (k : κ) (call : Call) : Fleet ι κ where
  database := s.database.beginTx k (parseOnce E call)
  call := Function.update s.call k call
  process := Function.update s.process i ⟨(s.process i).trace, (s.process i).rest, some k⟩

variable [Fintype κ]

/-- One step of the fleet. -/
inductive Step : Fleet ι κ → Fleet ι κ → Prop
  /-- A call that is none of the repository is answered. -/
  | call {s : Fleet ι κ} (i : ι) {c : ServiceCall}
      {next : c.Answer → Service (Except ParserError (Option InstanceLease))}
      (hrest : (s.process i).rest = .call c next)
      (hc : c.isParse = false) (a : c.Answer) :
      Step s (s.answer i ⟨c, a⟩ (next a))
  /-- A free connection begins a call of the repository, with UUIDs that it draws. -/
  | begin {s : Fleet ι κ} (i : ι) (k : κ) {version : Str} {source : SourceReference}
      {next : ParseResult → Service (Except ParserError (Option InstanceLease))}
      (hrest : (s.process i).rest = .call (.parseOnce version source) next)
      (hnone : (s.process i).connection = none)
      (hended : ∃ result, (s.database.session k).result = some result)
      (hfree : ∀ j, (s.process j).connection ≠ some k) (fresh : ℕ → Uuid) :
      Step s (s.begin E i k ⟨version, source, fresh⟩)
  /-- A connection executes a statement, or the statement fails. -/
  | statement {s : Fleet ι κ} (k : κ) (move : Move Row) {database : State κ Row ParseResult}
      (hn : s.database.next schema k move = some database) : Step s { s with database }
  /-- A call of the repository has ended, and the process gets its result. -/
  | ended {s : Fleet ι κ} (i : ι) {k : κ} {version : Str} {source : SourceReference}
      {next : ParseResult → Service (Except ParserError (Option InstanceLease))}
      (hrest : (s.process i).rest = .call (.parseOnce version source) next)
      (hconnection : (s.process i).connection = some k) {result : ParseResult}
      (hresult : (s.database.session k).result = some result) :
      Step s (s.answer i ⟨.parseOnce version source, result⟩ (next result))
  /-- There is no connection, or it is lost. -/
  | lost {s : Fleet ι κ} (i : ι) {version : Str} {source : SourceReference}
      {next : ParseResult → Service (Except ParserError (Option InstanceLease))}
      (hrest : (s.process i).rest = .call (.parseOnce version source) next) :
      Step s (s.answer i ⟨.parseOnce version source, repositoryError⟩ (next repositoryError))

/-- Any number of steps. -/
abbrev Steps : Fleet ι κ → Fleet ι κ → Prop := Relation.ReflTransGen (Step E)

variable {E : Externals} {J : KernelJson} {replicas : ι → Replica} {s s' : Fleet ι κ}

omit [DecidableEq κ] [Fintype κ] in
/-- An event of a process after an answer is an event before it, or the answer. -/
theorem mem_trace_answer {i j : ι} {e e' : ServiceEvent}
    {rest : Service (Except ParserError (Option InstanceLease))} :
    e' ∈ ((s.answer i e rest).process j).trace ↔ e' ∈ (s.process j).trace ∨ j = i ∧ e' = e := by
  by_cases hj : j = i
  · subst hj
    simp [answer]
  · simp [answer, hj]

omit [DecidableEq κ] [Fintype κ] in
/-- A process that has been answered waits for no connection; the others are as they were. -/
theorem process_answer_of_connection {i j : ι} {k : κ} {e : ServiceEvent}
    {rest : Service (Except ParserError (Option InstanceLease))}
    (h : ((s.answer i e rest).process j).connection = some k) :
    (s.answer i e rest).process j = s.process j := by
  by_cases hj : j = i
  · subst hj
    simp [answer] at h
  · simp [answer, hj]

end Fleet

/-! ## The invariant -/

/-- What holds in every state of a fleet. -/
structure FleetInv {ι κ : Type} (E : Externals) (J : KernelJson) (replicas : ι → Replica)
    (s : Fleet ι κ) : Prop where
  /-- Every connection is at one of the points of its call. -/
  database : ∃ initial, Inv E s.call initial s.database
  /-- Every run is stored with its candidates. -/
  stored : AllStored E s.database.committed
  /-- Every process is a run of the program. -/
  runs : ∀ i, Runs (main E J (replicas i).parserVersion (replicas i).rounds) (s.process i).trace
    (s.process i).rest
  /-- A connection executes the call that its process is waiting for. -/
  waiting : ∀ i k version source next, (s.process i).rest = .call (.parseOnce version source) next →
    (s.process i).connection = some k →
      (s.call k).parserVersion = version ∧ (s.call k).source = source
  /-- A parse was answered with what is stored. -/
  parsed : ∀ i version source outcome,
    ⟨.parseOnce version source, .ok outcome⟩ ∈ (s.process i).trace → outcome.source = source ∧
      HasRun s.database.committed (sourceKey E version source) ∧
      Stored E s.database.committed (sourceKey E version source) outcome.candidates

namespace FleetInv

variable {ι κ : Type} {E : Externals} {J : KernelJson} {replicas : ι → Replica} {s s' : Fleet ι κ}

/-- Before any process begins. -/
theorem start : FleetInv E J replicas (Fleet.start E J replicas : Fleet ι κ) where
  database := by
    have hconsistent : Consistent schema [] (Fleet.start E J replicas : Fleet ι κ).database :=
      ⟨.nil, fun _ => List.nodup_nil, fun _ _ _ _ hrow => absurd hrow List.not_mem_nil,
        fun _ _ hrow => absurd hrow List.not_mem_nil, fun row => by simp [Fleet.start],
        fun _ _ hrow => absurd hrow List.not_mem_nil⟩
    have hblank : ¬ (trim blankCall.source.sourceText).isEmpty = false := by decide
    exact ⟨[], hconsistent, fun _ => .blank hblank, fun _ hrun => absurd hrun not_hasRun_nil⟩
  stored _ hrun := absurd hrun not_hasRun_nil
  runs _ := .refl _
  waiting _ _ _ _ _ _ hconnection := by cases hconnection
  parsed _ _ _ _ he := absurd he List.not_mem_nil

variable [DecidableEq ι]

/-- An answer keeps the invariant if a parse is answered with what is stored. -/
theorem answer (h : FleetInv E J replicas s) {i : ι} {c : ServiceCall}
    {next : c.Answer → Service (Except ParserError (Option InstanceLease))}
    (hrest : (s.process i).rest = .call c next) (a : c.Answer)
    (hparsed : ∀ version source outcome,
      (⟨.parseOnce version source, .ok outcome⟩ : ServiceEvent) = ⟨c, a⟩ → outcome.source = source ∧
        HasRun s.database.committed (sourceKey E version source) ∧
        Stored E s.database.committed (sourceKey E version source) outcome.candidates) :
    FleetInv E J replicas (s.answer i ⟨c, a⟩ (next a)) where
  database := h.database
  stored := h.stored
  runs j := by
    have hruns := h.runs j
    by_cases hj : j = i
    · subst hj
      rw [hrest] at hruns
      simpa [Fleet.answer] using hruns.snoc a
    · simpa [Fleet.answer, hj] using hruns
  waiting j k version source next' hrest' hconnection := by
    rw [Fleet.process_answer_of_connection hconnection] at hrest' hconnection
    exact h.waiting j k version source next' hrest' hconnection
  parsed j version source outcome he := by
    rcases Fleet.mem_trace_answer.mp he with he | ⟨-, he⟩
    · exact h.parsed j version source outcome he
    · exact hparsed version source outcome he

/-- The result of a call is what is stored. -/
theorem ended (h : FleetInv E J replicas s) {i : ι} {k : κ} {version : Str}
    {source : SourceReference}
    {next : ParseResult → Service (Except ParserError (Option InstanceLease))}
    (hrest : (s.process i).rest = .call (.parseOnce version source) next)
    (hconnection : (s.process i).connection = some k) {result : ParseResult}
    (hresult : (s.database.session k).result = some result) :
    FleetInv E J replicas (s.answer i ⟨.parseOnce version source, result⟩ (next result)) := by
  refine h.answer hrest result ?_
  intro version' source' outcome he
  cases he
  obtain ⟨initial, hinv⟩ := h.database
  obtain ⟨hversion, hsource⟩ := h.waiting i k _ _ _ hrest hconnection
  have hsucceeded := (hinv.sessionAt k).succeeded hresult
  have hkey : (s.call k).key E = sourceKey E version source := by
    rw [← hversion, ← hsource]
    rfl
  refine ⟨hsucceeded.source_eq.trans hsource, ?_, ?_⟩
  · rw [← hkey]
    exact hsucceeded.hasRun
  · rw [← hkey]
    exact hsucceeded.stored

variable [DecidableEq κ]

/-- The beginning of a call keeps the invariant. -/
theorem begin (h : FleetInv E J replicas s) {i : ι} {k : κ} {version : Str}
    {source : SourceReference}
    {next : ParseResult → Service (Except ParserError (Option InstanceLease))}
    (hrest : (s.process i).rest = .call (.parseOnce version source) next)
    (hfree : ∀ j, (s.process j).connection ≠ some k) (fresh : ℕ → Uuid) :
    FleetInv E J replicas (s.begin E i k ⟨version, source, fresh⟩) := by
  have hsame : ∀ j, ((s.begin E i k ⟨version, source, fresh⟩).process j).trace =
        (s.process j).trace ∧
      ((s.begin E i k ⟨version, source, fresh⟩).process j).rest = (s.process j).rest := by
    intro j
    by_cases hj : j = i
    · subst hj
      simp [Fleet.begin]
    · simp [Fleet.begin, hj]
  obtain ⟨initial, hinv⟩ := h.database
  refine ⟨⟨_, hinv.beginTx h.stored k _⟩, h.stored, fun j => ?_, ?_, ?_⟩
  · rw [(hsame j).1, (hsame j).2]
    exact h.runs j
  · intro j k' version' source' next' hrest' hconnection
    rw [(hsame j).2] at hrest'
    by_cases hj : j = i
    · subst hj
      obtain rfl : k = k' := by simpa [Fleet.begin] using hconnection
      rw [hrest] at hrest'
      injection hrest' with hc
      injection hc with hversion hsource
      simp [Fleet.begin, hversion, hsource]
    · have hconnection' : (s.process j).connection = some k' := by
        simpa [Fleet.begin, hj] using hconnection
      have hk : k' ≠ k := by
        rintro rfl
        exact hfree j hconnection'
      simpa [Fleet.begin, hk] using h.waiting j k' version' source' next' hrest' hconnection'
  · intro j version' source' outcome he
    rw [(hsame j).1] at he
    exact h.parsed j version' source' outcome he

variable [Fintype κ]

omit [DecidableEq ι] in
/-- A statement keeps the invariant, and it changes nothing that is stored. -/
theorem statement (hE : E.Lawful) (h : FleetInv E J replicas s) {k : κ} {move : Move Row}
    {database : State κ Row ParseResult} (hn : s.database.next schema k move = some database) :
    FleetInv E J replicas { s with database } ∧
      Keeps E s.database.committed database.committed := by
  obtain ⟨initial, hinv⟩ := h.database
  have hstep : AllStored E database.committed ∧
      Keeps E s.database.committed database.committed := by
    rcases hinv.committed_next hE hn with hsame | ⟨hrows, hnew⟩
    · rw [hsame]
      exact ⟨h.stored, .refl _⟩
    · rw [hrows]
      exact ⟨h.stored.append_rows hinv.consistent.valid hnew, .append_rows hnew⟩
  obtain ⟨hstored, hkeeps⟩ := hstep
  refine ⟨⟨⟨initial, hinv.next hE hn⟩, hstored, h.runs, h.waiting, ?_⟩, hkeeps⟩
  intro i version source outcome he
  obtain ⟨hsource, hrun, hs⟩ := h.parsed i version source outcome he
  obtain ⟨hrun', hkept⟩ := hkeeps _ hrun
  exact ⟨hsource, hrun', hkept _ hs⟩

/-- Every step keeps the invariant, and it changes nothing that is stored. -/
theorem step (hE : E.Lawful) (h : FleetInv E J replicas s) (hstep : Fleet.Step E s s') :
    FleetInv E J replicas s' ∧ Keeps E s.database.committed s'.database.committed := by
  cases hstep with
  | call i hrest hc a =>
    refine ⟨h.answer hrest a fun version source outcome he => ?_, .refl _⟩
    cases he
    cases hc
  | begin i k hrest hnone hended hfree fresh => exact ⟨h.begin hrest hfree fresh, .refl _⟩
  | statement k move hn => exact h.statement hE hn
  | ended i hrest hconnection hresult => exact ⟨h.ended hrest hconnection hresult, .refl _⟩
  | lost i hrest =>
    refine ⟨h.answer hrest repositoryError fun version source outcome he => ?_, .refl _⟩
    cases he

/-- Along every run the invariant holds, and nothing that is stored changes. -/
theorem of_steps (hE : E.Lawful) (h : FleetInv E J replicas s) (hsteps : Fleet.Steps E s s') :
    FleetInv E J replicas s' ∧ Keeps E s.database.committed s'.database.committed := by
  induction hsteps with
  | refl => exact ⟨h, .refl _⟩
  | tail _ hstep ih =>
    obtain ⟨hinv, hkeeps⟩ := ih.1.step hE hstep
    exact ⟨hinv, ih.2.trans hkeeps⟩

end FleetInv

/-! ## Submissions and completions -/

/-- Behind the history, the process has sent the request, or it is about to send it. -/
def ProcessState.Sends {κ : Type} (p : ProcessState κ) (history : List ServiceEvent)
    (signed : SignedRequest) : Prop :=
  (∃ answer after, p.trace = history ++ ⟨.send signed, answer⟩ :: after) ∨
    p.trace = history ∧ p.rest.pending = some (.send signed)

/-- The exchanges of the history have opened a route to the request, and what came after them is all
that was exchanged since then. -/
def Serves (J : KernelJson) (history : List ServiceEvent) (claim : WorkClaim)
    (request : RoutedRequest) (performed : List ServiceEvent) : Prop :=
  ∃ leaseSeconds earlier opened, conversation history = earlier ++ (opened ++ performed) ∧
    RouteOpened J leaseSeconds claim request opened

/-- The candidates that are stored for an input scope. -/
def StoredFor (E : Externals) (parserVersion : Str) (tables : List Row) (scope : Str)
    (source : SourceReference) (candidates : List Candidate) : Prop :=
  parseInputScope E scope = .ok source ∧ HasRun tables (sourceKey E parserVersion source) ∧
    Stored E tables (sourceKey E parserVersion source) candidates

/-- What no interleaving of a fleet can change: `s` is a state that was reached, and `s'` a later
one. -/
structure FleetStable {ι κ : Type} (E : Externals) (J : KernelJson) (replicas : ι → Replica)
    (s s' : Fleet ι κ) : Prop where
  /-- What is stored for a logical parse stays the same. -/
  keeps : Keeps E s.database.committed s'.database.committed
  /-- Every logical parse that is recorded has its candidates, and they have different scopes. -/
  distinct : ∀ key, HasRun s'.database.committed key → ∃ candidates,
    Stored E s'.database.committed key candidates ∧
      ∀ version source, (candidates.map (admitScopeFor E version source)).Nodup
  /-- A process submits candidates that are stored for the input scope of its route. -/
  submitted : ∀ i history signed action text, (s'.process i).Sends history signed →
    signed.IsFor J (.submitRequest action text) →
    ∃ claim request performed source candidates, action = admitAction ∧
      Serves J history claim request performed ∧
      StoredFor E (replicas i).parserVersion s'.database.committed request.scope source candidates ∧
      text ∈ candidates.map (admitScopeFor E (replicas i).parserVersion source)
  /-- A process completes the claim on a route to a parse only after it has submitted all candidates
  that are stored for the input scope, and the kernel has accepted them. -/
  completed : ∀ i history signed claimId fencingToken, (s'.process i).Sends history signed →
    signed.IsFor J (.completeClaim claimId fencingToken) →
    ∃ claim request performed, claimId = claim.claimId ∧ fencingToken = claim.fencingToken ∧
      Serves J history claim request performed ∧
      (request.action = parseAction → ∃ source candidates,
        StoredFor E (replicas i).parserVersion s'.database.committed request.scope source
          candidates ∧
        ∀ candidate ∈ candidates,
          ∃ e ∈ performed, Admitted E J (replicas i).parserVersion source candidate e)

namespace FleetInv

variable {ι κ : Type} {E : Externals} {J : KernelJson} {replicas : ι → Replica} {s s' : Fleet ι κ}

/-- A request of a process has passed the gate. -/
theorem gate (h : FleetInv E J replicas s) {i : ι} {history : List ServiceEvent}
    {signed : SignedRequest} (hsends : (s.process i).Sends history signed) :
    processGate E J (replicas i).parserVersion history (.send signed) ∧
      history <+: (s.process i).trace := by
  have hruns := h.runs i
  obtain ⟨answer, after, htrace⟩ | ⟨rfl, hpending⟩ := hsends
  · rw [htrace] at hruns ⊢
    exact ⟨hruns.gate (main_meets _) fun _ _ => trivial, List.prefix_append _ _⟩
  · exact ⟨main_gate hruns hpending, List.prefix_rfl⟩

/-- What a process has performed of a request begins with the candidates that are stored for the
request. -/
theorem storedFor (h : FleetInv E J replicas s) {i : ι} {history earlier opened performed : _}
    (hhistory : history <+: (s.process i).trace)
    (hconversation : conversation history = earlier ++ (opened ++ performed))
    {request : RoutedRequest} {outcome : ParseOutcome} {done : List Candidate}
    (hperformed : PerformedUpTo E J (replicas i).parserVersion request outcome done performed) :
    StoredFor E (replicas i).parserVersion s.database.committed request.scope outcome.source
      outcome.candidates := by
  obtain ⟨source, submissions, -, hscope, rfl, -⟩ := hperformed
  have hmem : (⟨.parseOnce (replicas i).parserVersion source, .ok outcome⟩ : ServiceEvent) ∈
      conversation history := by
    rw [hconversation]
    simp
  obtain ⟨rfl, hrun, hs⟩ :=
    h.parsed i _ source outcome (hhistory.subset (List.mem_of_mem_filter hmem))
  exact ⟨hscope, hrun, hs⟩

/-- Every candidate that was accepted was accepted in some exchange. -/
theorem exists_admitted {parserVersion : Str} {source : SourceReference}
    {candidates : List Candidate} {submissions : List ServiceEvent}
    (h : List.Forall₂ (Admitted E J parserVersion source) candidates submissions)
    {candidate : Candidate} (hcandidate : candidate ∈ candidates) :
    ∃ e ∈ submissions, Admitted E J parserVersion source candidate e := by
  obtain ⟨n, hn, rfl⟩ := List.getElem_of_mem hcandidate
  have hn' := h.length_eq ▸ hn
  exact ⟨submissions[n], List.getElem_mem hn', h.get hn hn'⟩

/-- The invariant says what is stable. -/
theorem stable (hE : E.Lawful) (hW : J.writer.Lawful) (h : FleetInv E J replicas s')
    (hkeeps : Keeps E s.database.committed s'.database.committed) :
    FleetStable E J replicas s s' := by
  obtain ⟨initial, hinv⟩ := h.database
  refine ⟨hkeeps, ?_, ?_, ?_⟩
  · intro key hrun
    obtain ⟨candidates, hs⟩ := h.stored key hrun
    refine ⟨candidates, hs, fun version source => ?_⟩
    rw [List.Nodup, List.pairwise_map]
    exact (hs.pairwise_candidateId hinv.consistent.valid).imp fun hne heq =>
      hne (candidateId_eq_of_admitScopeFor_eq hE heq)
  · intro i history signed action text hsends hfor
    obtain ⟨hgate, hhistory⟩ := h.gate hsends
    obtain ⟨config, claim, request, earlier, opened, performed, outcome, done, candidate, remaining,
      -, haction, rfl, hcandidates, hconversation, hopened, hperformed⟩ :=
      submission_of_gate hW hgate hfor
    refine ⟨claim, request, performed, outcome.source, outcome.candidates, haction,
      ⟨_, earlier, opened, hconversation, hopened⟩,
      h.storedFor hhistory hconversation hperformed, ?_⟩
    exact List.mem_map_of_mem (by simp [hcandidates])
  · intro i history signed claimId fencingToken hsends hfor
    obtain ⟨hgate, hhistory⟩ := h.gate hsends
    obtain ⟨config, claim, request, earlier, opened, performed, -, hid, htoken, hconversation,
      hopened, hdone⟩ := completion_of_gate hW hgate hfor
    refine ⟨claim, request, performed, hid, htoken, ⟨_, earlier, opened, hconversation, hopened⟩,
      fun haction => ?_⟩
    obtain ⟨hother, -⟩ | ⟨outcome, hperformed⟩ := hdone
    · exact absurd haction hother
    · refine ⟨outcome.source, outcome.candidates,
        h.storedFor hhistory hconversation hperformed, fun candidate hcandidate => ?_⟩
      obtain ⟨source, submissions, -, -, rfl, hadmitted⟩ := hperformed
      obtain ⟨e, he, hadmit⟩ := exists_admitted hadmitted hcandidate
      exact ⟨e, List.mem_cons_of_mem _ he, hadmit⟩

end FleetInv

/-- In every interleaving of any number of processes over one database, whatever crashes, what was
stored for a logical parse never changes, all submissions are candidates that are stored for the
input scope of the route of their process, and a claim on a route to a parse is completed only after
the kernel has accepted all of these candidates. -/
theorem fleet_stable {ι κ : Type} [DecidableEq ι] [Fintype κ] [DecidableEq κ] {E : Externals}
    {J : KernelJson} {replicas : ι → Replica} {s s' : Fleet ι κ} (hE : E.Lawful)
    (hW : J.writer.Lawful) (hs : Fleet.Steps E (Fleet.start E J replicas) s)
    (hs' : Fleet.Steps E s s') :
    FleetStable E J replicas s s' := by
  obtain ⟨hinv, -⟩ := FleetInv.start.of_steps hE hs
  obtain ⟨hinv', hkeeps⟩ := hinv.of_steps hE hs'
  exact hinv'.stable hE hW hkeeps

/-! ## A process that is killed behind its commit -/

namespace Fleet

variable {ι κ : Type} [DecidableEq ι] [Fintype κ] [DecidableEq κ] {E : Externals}
  {s : Fleet ι κ}

/-- A process makes calls that are none of the repository. -/
theorem Steps.of_runs {i : ι} {rest rest' : Service (Except ParserError (Option InstanceLease))}
    {events : List ServiceEvent} (hrest : (s.process i).rest = rest)
    (hnone : (s.process i).connection = none) (h : Runs rest events rest')
    (hevents : ∀ e ∈ events, e.1.isParse = false) :
    ∃ s', Steps E s s' ∧ s'.database = s.database ∧
      s'.process i = ⟨(s.process i).trace ++ events, rest', none⟩ ∧
      ∀ j, j ≠ i → s'.process j = s.process j := by
  induction h generalizing s with
  | refl p =>
    refine ⟨s, .refl, rfl, ?_, fun _ _ => rfl⟩
    rw [List.append_nil, ← hrest, ← hnone]
  | @step c next a events _ _ ih =>
    have hstep : Step E s (s.answer i ⟨c, a⟩ (next a)) :=
      .call i hrest (hevents _ List.mem_cons_self) a
    obtain ⟨s', hsteps, hdatabase, hprocess, hothers⟩ := @ih (s.answer i ⟨c, a⟩ (next a))
      (by simp [answer]) (by simp [answer])
      fun e he => hevents e (List.mem_cons_of_mem _ he)
    refine ⟨s', .head hstep hsteps, hdatabase, ?_, fun j hj => ?_⟩
    · rw [hprocess]
      simp [answer]
    · rw [hothers j hj]
      simp [answer, hj]

/-- A connection executes statements. -/
theorem Steps.of_execute {k : κ} {moves : List (Move Row)} {database : State κ Row ParseResult}
    (h : s.database.execute schema (moves.map (Prod.mk k)) = some database) :
    Steps E s { s with database } := by
  induction moves generalizing s with
  | nil =>
    obtain rfl := Option.some.inj h
    exact .refl
  | cons move moves ih =>
    obtain ⟨middle, hnext, hrest⟩ := Option.bind_eq_some_iff.mp h
    exact .head (.statement k move hnext) (@ih { s with database := middle } hrest)

/-- A call of the repository is executed from its beginning to its end, while no other connection
has uncommitted rows. -/
theorem Steps.of_runAlone {i : ι} {k : κ} {version : Str} {source : SourceReference}
    {next : ParseResult → Service (Except ParserError (Option InstanceLease))} {fresh : ℕ → Uuid}
    {moves : List (Move Row)} {tables rows : List Row} {result : ParseResult}
    (hrest : (s.process i).rest = .call (.parseOnce version source) next)
    (hnone : (s.process i).connection = none)
    (hended : ∀ k, ∃ result, (s.database.session k).result = some result)
    (hfree : ∀ j, (s.process j).connection ≠ some k) (htables : s.database.committed = tables)
    (hrun : runAlone schema tables [] (parseOnce E ⟨version, source, fresh⟩) moves =
      some (rows, result)) :
    ∃ s', Steps E s s' ∧ s'.database.committed = tables ++ rows ∧
      (s'.database.session k).result = some result ∧
      (∀ k, ∃ result, (s'.database.session k).result = some result) ∧
      s'.process i = ⟨(s.process i).trace, (s.process i).rest, some k⟩ ∧
      ∀ j, j ≠ i → s'.process j = s.process j := by
  have hothers : ∀ k', k' ≠ k →
      (s.begin E i k ⟨version, source, fresh⟩).database.session k' = s.database.session k' :=
    fun k' hk' => State.session_beginTx_of_ne _ hk'
  have hpending : ∀ k', k' ≠ k →
      ((s.begin E i k ⟨version, source, fresh⟩).database.session k').pending = [] := by
    intro k' hk'
    obtain ⟨result, hresult⟩ := hended k'
    rw [hothers k' hk', Session.pending_of_result hresult]
  obtain ⟨database, hexecute, hcommitted, hresult, hsame⟩ :=
    State.execute_of_evaluates (s := (s.begin E i k ⟨version, source, fresh⟩).database) htables
      (State.session_beginTx_self _) hpending (runAlone_eq_some_iff.mp hrun)
  refine ⟨_, .head (.begin i k hrest hnone (hended k) hfree fresh) (Steps.of_execute hexecute),
    hcommitted, hresult, fun k' => ?_, Function.update_self _ _ _,
    fun j hj => Function.update_of_ne hj _ _⟩
  by_cases hk' : k' = k
  · exact ⟨result, hk' ▸ hresult⟩
  · obtain ⟨result', hresult'⟩ := hended k'
    exact ⟨result', by rw [hsame k' hk', hothers k' hk', hresult']⟩

end Fleet

/-- Two processes of one build. -/
def exampleReplicas (_ : Fin 2) : Replica := ⟨cargoParserVersion, 1⟩

/-- The stored candidate. -/
def replayAnswer : ParseResult := .ok ⟨longLocation, retryCall.candidates .reference, true⟩

/-- A first round behind a process that has stored the candidate. -/
def replayOracle : ∀ c : ServiceCall, c.Answer
  | .parseOnce _ _ => replayAnswer
  | c => exampleOracle c

/-- The round, cut behind some calls. -/
def replayRun (calls : ℕ) :
    List ServiceEvent × Service (Except ParserError (Option InstanceLease)) :=
  (main .reference exampleJson cargoParserVersion 1).follow replayOracle calls

/-- The round parses once, and then it gets to its completion. -/
theorem exists_replayRun : ∃ opened next closed rest,
    Runs (main .reference exampleJson cargoParserVersion 1) opened
      (.call (.parseOnce cargoParserVersion longLocation) next) ∧ opened.length = 53 ∧
    (∀ e ∈ opened, e.1.isParse = false) ∧ Runs (next replayAnswer) closed rest ∧
    (∀ e ∈ closed, e.1.isParse = false) ∧ rest.pending =
      some (.send (exampleSigned (.completeClaim "c".toList 3))) := by
  have hspec : ((replayRun 53).2.pending =
        some (.parseOnce cargoParserVersion longLocation) ∧
      (replayRun 53).1.length = 53 ∧ ∀ e ∈ (replayRun 53).1, e.1.isParse = false) ∧
      (∀ e ∈ (replayRun 65).1.drop 54, e.1.isParse = false) ∧
        (replayRun 65).2.pending =
          some (.send (exampleSigned (.completeClaim "c".toList 3))) := by
    decide +kernel
  obtain ⟨⟨hpending, hlength, hopened⟩, hbehind, hclosed⟩ := hspec
  obtain ⟨next, hnext⟩ := Prog.exists_next_of_pending hpending
  have hround : replayRun 65 = ((replayRun 53).1 ++
      ⟨.parseOnce cargoParserVersion longLocation, replayAnswer⟩ ::
        ((next replayAnswer).follow replayOracle 11).1,
      ((next replayAnswer).follow replayOracle 11).2) := by
    have hadd := Prog.follow_add replayOracle 53 12
      (main .reference exampleJson cargoParserVersion 1)
    rw [show (Prog.follow replayOracle 53 _).2 = Prog.call _ next from hnext] at hadd
    exact hadd
  rw [hround, List.drop_append, hlength, List.drop_eq_nil_of_le (by rw [hlength]; decide),
    List.nil_append] at hbehind
  rw [hround] at hclosed
  exact ⟨_, next, _, _, hnext ▸ runs_follow replayOracle 53 _, hlength, hopened,
    runs_follow replayOracle 11 _, hbehind, hclosed⟩

/-- A process is killed before it gets the answer to its parse; another one submits the stored
candidate, and it is about to complete its claim. -/
theorem fleet_stable_killed : ∃ s : Fleet (Fin 2) (Fin 2),
    Fleet.Steps .reference (Fleet.start .reference exampleJson exampleReplicas) s ∧
    (s.process 0).trace.length = 53 ∧
    (s.process 1).rest.pending =
      some (.send (exampleSigned (.completeClaim "c".toList 3))) ∧
    FleetStable .reference exampleJson exampleReplicas
      (Fleet.start .reference exampleJson exampleReplicas) s := by
  obtain ⟨opened, next, closed, rest, hopening, hlength, hopened, hclosing, hbehind, hclosed⟩ :=
    exists_replayRun
  -- the first process up to its parse, and the parse
  obtain ⟨s₁, hsteps₁, hdatabase₁, hprocess₁, hothers₁⟩ := @Fleet.Steps.of_runs (Fin 2) (Fin 2) _ _
    _ .reference (Fleet.start .reference exampleJson exampleReplicas) 0 _ _ _ rfl rfl hopening
    hopened
  have hfree₁ : ∀ k j, (s₁.process j).connection ≠ some k := by
    intro k j
    by_cases hj : j = 0
    · rw [hj, hprocess₁]
      exact (Option.some_ne_none k).symm
    · rw [hothers₁ j hj]
      exact (Option.some_ne_none k).symm
  obtain ⟨s₂, hsteps₂, htables₂, -, hended₂, hprocess₂, hothers₂⟩ :=
    Fleet.Steps.of_runAlone (k := 0) (congrArg ProcessState.rest hprocess₁)
      (congrArg ProcessState.connection hprocess₁) (fun k => ⟨_, by rw [hdatabase₁]; rfl⟩)
      (hfree₁ 0) (by rw [hdatabase₁]; rfl) runAlone_longLocation.1
  -- the second process
  have hprocess : s₂.process 1 =
      ⟨[], main .reference exampleJson cargoParserVersion 1, none⟩ := by
    rw [hothers₂ 1 (by decide), hothers₁ 1 (by decide)]
    rfl
  obtain ⟨s₃, hsteps₃, hdatabase₃, hprocess₃, hothers₃⟩ := @Fleet.Steps.of_runs (Fin 2) (Fin 2) _ _
    _ .reference s₂ 1 _ _ _ (congrArg ProcessState.rest hprocess)
    (congrArg ProcessState.connection hprocess) hopening hopened
  have hfree₃ : ∀ j, (s₃.process j).connection ≠ some 1 := by
    intro j
    by_cases hj : j = 1
    · rw [hj, hprocess₃]
      exact (Option.some_ne_none 1).symm
    · obtain rfl : j = 0 := by omega
      rw [hothers₃ 0 (by decide), hprocess₂]
      simp
  obtain ⟨s₄, hsteps₄, -, hresult₄, -, hprocess₄, hothers₄⟩ :=
    Fleet.Steps.of_runAlone (k := 1) (congrArg ProcessState.rest hprocess₃)
      (congrArg ProcessState.connection hprocess₃) (fun k => by rw [hdatabase₃]; exact hended₂ k)
      hfree₃ (by rw [hdatabase₃]; exact htables₂) runAlone_longLocation.2
  have hstep₅ := Fleet.Step.ended (E := .reference) (s := s₄) 1
    ((congrArg ProcessState.rest hprocess₄).trans (congrArg ProcessState.rest hprocess₃))
    (congrArg ProcessState.connection hprocess₄) hresult₄
  obtain ⟨s₆, hsteps₆, -, hprocess₆, hothers₆⟩ := @Fleet.Steps.of_runs (Fin 2) (Fin 2) _ _
    _ .reference (s₄.answer 1 ⟨.parseOnce cargoParserVersion longLocation, replayAnswer⟩
      (next replayAnswer)) 1 _ _ _ (by simp [Fleet.answer]) (by simp [Fleet.answer]) hclosing
      hbehind
  have hsteps := ((((hsteps₁.trans hsteps₂).trans hsteps₃).trans hsteps₄).tail hstep₅).trans hsteps₆
  refine ⟨s₆, hsteps, ?_, ?_,
    fleet_stable Externals.reference_lawful JsonWriter.reference_lawful .refl hsteps⟩
  · have hkilled : s₆.process 0 = s₂.process 0 := by
      rw [hothers₆ 0 (by decide), ← hothers₃ 0 (by decide), ← hothers₄ 0 (by decide)]
      simp [Fleet.answer]
    rw [hkilled, hprocess₂, hprocess₁]
    exact hlength
  · rw [hprocess₆]
    exact hclosed

end Pf2eParser
