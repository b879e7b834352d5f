import Mathlib.Logic.Relation
import Pf2eParser.Service.Probe

/-!
# A pod

A process together with any number of threads that answer connections.  Once the process has read
the address of the health endpoint, its calls and those of the threads interleave in any order.
They share the heartbeat: a thread loads it without any synchronization, so that it may see a value
that has been overwritten, but none that was never stored.

Every answer of every thread is what `evaluate` says of values that the thread has really got
(`probe_answers`), and a readiness probe that succeeds has an answer of the database behind it and a
work pass of the process (`ready_probe_behind_pass`).
-/

namespace Pf2eParser

open Text Interaction

/-- A thread that answers a connection: its calls so far with their answers, and what is left. -/
structure ProbeState where
  trace : List ProbeEvent
  rest : Probe (Except Str Unit)

/-- The process and the threads. -/
structure Pod (ι : Type) where
  trace : List ServiceEvent
  rest : Service (Except ParserError (Option InstanceLease))
  probe : ι → ProbeState

/-- The process has got to its health endpoint. -/
def Serving (trace : List ServiceEvent) : Prop :=
  ∃ e ∈ trace, e.1 = .envVar "HEALTH_ADDRESS".toList

/-- The heartbeat that a thread gets. -/
def loadedBy : ProbeEvent → Option Int64
  | ⟨.loadHeartbeat, lastSuccess⟩ => some lastSuccess
  | _ => none

/-- The heartbeat had the value at some time. -/
def Loads (trace : List ServiceEvent) (lastSuccess : Int64) : Prop :=
  ∃ seen, seen <+: trace ∧ lastSuccess = (heartbeatOf seen).lastSuccess

/-- The thread was asked for the path. -/
def ProbeState.AskedFor (s : ProbeState) (path : Str) : Prop :=
  ∃ received, s.trace.head? = some ⟨.readStream, .ok received⟩ ∧
    requestPath (fromUtf8Lossy received.1) = path

/-- The thread has written the bytes, or is about to write them. -/
def ProbeState.Writes (s : ProbeState) (bytes : List UInt8) : Prop :=
  s.rest.pending = some (.writeAll bytes) ∨ ∃ answer, ⟨.writeAll bytes, answer⟩ ∈ s.trace

namespace Pod

variable {ι : Type} (E : Externals) (J : KernelJson) (parserVersion : Str) (rounds : ℕ)

/-- Nothing has happened yet. -/
def start : Pod ι where
  trace := []
  rest := main E J parserVersion rounds
  probe _ := ⟨[], handleConnection {}⟩

variable [DecidableEq ι]

/-- The process gets an answer. -/
def answer (s : Pod ι) (e : ServiceEvent)
    (rest : Service (Except ParserError (Option InstanceLease))) : Pod ι :=
  { s with trace := s.trace ++ [e], rest }

/-- The thread `i` gets an answer. -/
def answerProbe (s : Pod ι) (i : ι) (e : ProbeEvent) (rest : Probe (Except Str Unit)) : Pod ι :=
  { s with probe := Function.update s.probe i ⟨(s.probe i).trace ++ [e], rest⟩ }

/-- One step of the pod. -/
inductive Step : Pod ι → Pod ι → Prop
  | process {s : Pod ι} {c : ServiceCall}
      {next : c.Answer → Service (Except ParserError (Option InstanceLease))}
      (hrest : s.rest = .call c next) (a : c.Answer) : Step s (s.answer ⟨c, a⟩ (next a))
  | probe {s : Pod ι} (i : ι) {c : ProbeCall} {next : c.Answer → Probe (Except Str Unit)}
      (hserving : Serving s.trace) (hrest : (s.probe i).rest = .call c next) (a : c.Answer)
      (hloads : ∀ lastSuccess ∈ loadedBy ⟨c, a⟩, Loads s.trace lastSuccess) :
      Step s (s.answerProbe i ⟨c, a⟩ (next a))

/-- Any number of steps. -/
abbrev Steps : Pod ι → Pod ι → Prop := Relation.ReflTransGen Step

end Pod

/-- What holds in every pod that can be reached. -/
structure PodInv {ι : Type} (E : Externals) (J : KernelJson) (parserVersion : Str) (rounds : ℕ)
    (s : Pod ι) : Prop where
  process : Runs (main E J parserVersion rounds) s.trace s.rest
  probe : ∀ i, Runs (handleConnection {}) (s.probe i).trace (s.probe i).rest
  serving : ∀ i, (s.probe i).trace ≠ [] → Serving s.trace
  loads : ∀ i, ∀ e ∈ (s.probe i).trace, ∀ lastSuccess ∈ loadedBy e, Loads s.trace lastSuccess

variable {ι : Type} [DecidableEq ι] {E : Externals} {J : KernelJson} {parserVersion : Str}
  {rounds : ℕ} {s s' : Pod ι} {i : ι} {bytes : List UInt8}

theorem Serving.append {trace : List ServiceEvent} (h : Serving trace)
    (events : List ServiceEvent) : Serving (trace ++ events) := by
  obtain ⟨e, he, hhealth⟩ := h
  exact ⟨e, List.mem_append_left _ he, hhealth⟩

/-- A process that has got to its health endpoint has started. -/
theorem Serving.started {trace : List ServiceEvent}
    {rest : Service (Except ParserError (Option InstanceLease))}
    (hrun : Runs (main E J parserVersion rounds) trace rest) (h : Serving trace) :
    ∃ config, Started E J config trace := by
  obtain ⟨⟨c, answer⟩, he, rfl⟩ := h
  obtain ⟨before, after, rfl⟩ := List.append_of_mem he
  obtain ⟨config, hstarted⟩ := main_gate_of_mem hrun rfl
  exact ⟨config, hstarted.append _⟩

/-- What was stored stays stored. -/
theorem Loads.append {trace : List ServiceEvent} {lastSuccess : Int64}
    (h : Loads trace lastSuccess) (events : List ServiceEvent) :
    Loads (trace ++ events) lastSuccess := by
  obtain ⟨seen, hseen, hlast⟩ := h
  exact ⟨seen, hseen.trans (List.prefix_append _ _), hlast⟩

omit [DecidableEq ι] in
theorem PodInv.start :
    PodInv E J parserVersion rounds (Pod.start E J parserVersion rounds : Pod ι) where
  process := .refl _
  probe _ := .refl _
  serving _ htrace := absurd rfl htrace
  loads _ _ he := absurd he List.not_mem_nil

/-- A step keeps the invariant. -/
theorem PodInv.step (h : PodInv E J parserVersion rounds s) (hs : Pod.Step s s') :
    PodInv E J parserVersion rounds s' := by
  cases hs with
  | process hrest a =>
    have hrun := h.process
    rw [hrest] at hrun
    refine ⟨hrun.snoc a, h.probe, fun i htrace => ?_, fun i e he last hl => ?_⟩
    · exact (h.serving i htrace).append _
    · exact (h.loads i e he last hl).append _
  | @probe i c next hserving hrest a hloads =>
    have hrun := h.probe i
    rw [hrest] at hrun
    refine ⟨h.process, fun j => ?_, fun _ _ => hserving, fun j e he last hl => ?_⟩
    · by_cases hj : j = i
      · subst hj
        simpa [Pod.answerProbe] using hrun.snoc a
      · simpa [Pod.answerProbe, hj] using h.probe j
    · by_cases hj : j = i
      · subst hj
        simp only [Pod.answerProbe, Function.update_self, List.mem_append,
          List.mem_singleton] at he
        rcases he with he | rfl
        · exact h.loads j e he last hl
        · exact hloads last hl
      · simp only [Pod.answerProbe, Function.update_of_ne hj] at he
        exact h.loads j e he last hl

/-- Any number of steps keep the invariant. -/
theorem PodInv.of_steps (h : PodInv E J parserVersion rounds s) (hs : Pod.Steps s s') :
    PodInv E J parserVersion rounds s' := by
  induction hs with
  | refl => exact h
  | tail _ hstep ih => exact ih.step hstep

/-! ## Runs of a pod -/

/-- The process runs. -/
theorem Pod.Steps.of_runs {trace : List ServiceEvent}
    {p q : Service (Except ParserError (Option InstanceLease))} (hrest : s.rest = p)
    (hrun : Runs p trace q) :
    Pod.Steps s { s with trace := s.trace ++ trace, rest := q } := by
  induction hrun generalizing s with
  | refl p =>
    subst hrest
    rw [List.append_nil]
  | @step c next a trace q _ ih =>
    refine .head (.process hrest a) ?_
    have hlater := @ih (s.answer ⟨c, a⟩ (next a)) rfl
    simpa [Pod.answer] using hlater

/-- A thread runs. -/
theorem Pod.Steps.of_probe {trace : List ProbeEvent} {p q : Probe (Except Str Unit)}
    (hserving : Serving s.trace) (hrest : (s.probe i).rest = p) (hrun : Runs p trace q)
    (hloads : ∀ e ∈ trace, ∀ lastSuccess ∈ loadedBy e, Loads s.trace lastSuccess) :
    Pod.Steps s { s with
      probe := Function.update s.probe i ⟨(s.probe i).trace ++ trace, q⟩ } := by
  induction hrun generalizing s with
  | refl p =>
    subst hrest
    rw [List.append_nil, Function.update_eq_self]
  | @step c next a trace q _ ih =>
    refine .head (.probe i hserving hrest a (hloads _ List.mem_cons_self)) ?_
    have hlater := @ih (s.answerProbe i ⟨c, a⟩ (next a)) hserving
      (by simp [Pod.answerProbe]) fun e he => hloads e (List.mem_cons_of_mem _ he)
    simpa [Pod.answerProbe] using hlater

/-- The process runs, and then a single thread does. -/
theorem Pod.steps_of_runs {trace : List ServiceEvent} {calls : List ProbeEvent}
    {rest : Service (Except ParserError (Option InstanceLease))}
    {thread : Probe (Except Str Unit)} (hrun : Runs (main E J parserVersion rounds) trace rest)
    (hserving : Serving trace) (hprobe : Runs (handleConnection {}) calls thread)
    (hloads : ∀ e ∈ calls, ∀ lastSuccess ∈ loadedBy e, Loads trace lastSuccess) :
    Pod.Steps (Pod.start E J parserVersion rounds : Pod Unit)
      ⟨trace, rest, fun _ => ⟨calls, thread⟩⟩ := by
  have hprocess := Pod.Steps.of_runs (s := (Pod.start E J parserVersion rounds : Pod Unit)) rfl hrun
  have hthread := Pod.Steps.of_probe (s := (⟨trace, rest,
    fun _ => ⟨[], handleConnection {}⟩⟩ : Pod Unit)) (i := ()) hserving rfl hprobe hloads
  have hupdate : Function.update (fun _ : Unit => (⟨[], handleConnection {}⟩ : ProbeState)) ()
      ⟨[] ++ calls, thread⟩ = fun _ => ⟨calls, thread⟩ := by
    funext i
    simp
  rw [hupdate] at hthread
  exact hprocess.trans hthread

/-- A readiness probe half a minute after the first round. -/
def probeOracle : ∀ c : ProbeCall, c.Answer
  | .readStream => .ok ⟨"GET /health/ready HTTP/1.1\r\n\r\n".toList |> toUtf8,
      by decide⟩
  | .service .clock => some 1030
  | .service c => exampleOracle c
  | .loadHeartbeat => 1000
  | .writeAll _ | .flush => .ok ()

/-- The probe, up to the answer. -/
def exampleProbe : List ProbeEvent × Probe (Except Str Unit) :=
  (handleConnection {}).follow probeOracle 5

/-- What the probe answers. -/
def exampleAnswer : List UInt8 :=
  toUtf8 (responseText (evaluate readyPath ⟨1000⟩ true {} 1030))

/-- The probe of the process behind its first round. -/
def examplePod : Pod Unit :=
  ⟨(exampleRun 69).1, (exampleRun 69).2, fun _ => ⟨exampleProbe.1, exampleProbe.2⟩⟩

theorem steps_examplePod :
    Pod.Steps (Pod.start .reference exampleJson cargoParserVersion 1) examplePod := by
  have hround : (∃ e ∈ (exampleRun 69).1, e.1 = .envVar "HEALTH_ADDRESS".toList) ∧
      (heartbeatOf (exampleRun 69).1).lastSuccess = 1000 ∧
      exampleProbe.1.filterMap loadedBy = [1000] := by decide +kernel
  obtain ⟨hserving, hheartbeat, hloaded⟩ := hround
  have hloads : ∀ e ∈ exampleProbe.1, ∀ lastSuccess ∈ loadedBy e,
      Loads (exampleRun 69).1 lastSuccess := by
    intro e he lastSuccess hl
    have hmem : lastSuccess ∈ exampleProbe.1.filterMap loadedBy :=
      List.mem_filterMap.mpr ⟨e, he, hl⟩
    rw [hloaded, List.mem_singleton] at hmem
    exact ⟨_, List.prefix_rfl, hmem.trans hheartbeat.symm⟩
  exact Pod.steps_of_runs (runs_exampleRun 69) hserving
    (runs_follow probeOracle 5 (handleConnection {})) hloads

/-- What the example probe has done. -/
theorem examplePod_spec : (examplePod.probe ()).Writes exampleAnswer ∧
    (examplePod.probe ()).AskedFor readyPath ∧
    readResponse exampleAnswer = some (statusOk, "ok\n".toList) := by
  have hprobe : exampleProbe.2.pending = some (.writeAll exampleAnswer) ∧
      requestPath (fromUtf8Lossy (toUtf8 "GET /health/ready HTTP/1.1\r\n\r\n".toList)) =
        readyPath ∧
      readResponse exampleAnswer = some (statusOk, "ok\n".toList) := by decide +kernel
  obtain ⟨hpending, hpath, hread⟩ := hprobe
  exact ⟨Or.inl hpending, ⟨_, rfl, hpath⟩, hread⟩

/-! ## What a pod answers -/

omit [DecidableEq ι] in
/-- What a thread writes is an answer, and so far it has done what it takes to give it. -/
theorem PodInv.answers (h : PodInv E J parserVersion rounds s)
    (hwrites : (s.probe i).Writes bytes) :
    ∃ history, history <+: (s.probe i).trace ∧ Answers {} history bytes := by
  have hrun := h.probe i
  obtain hpending | ⟨answer, hmem⟩ := hwrites
  · exact ⟨_, List.prefix_rfl,
      hrun.pending_gate (handleConnection_meets {}) (fun _ _ => trivial) hpending bytes rfl⟩
  · obtain ⟨before, after, htrace⟩ := List.append_of_mem hmem
    rw [htrace] at hrun ⊢
    exact ⟨before, List.prefix_append _ _,
      hrun.gate (handleConnection_meets {}) (fun _ _ => trivial) bytes rfl⟩

omit [DecidableEq ι] in
/-- What `Answers` says of a thread, with the heartbeat that it has loaded. -/
theorem PodInv.evaluated (h : PodInv E J parserVersion rounds s)
    (hwrites : (s.probe i).Writes bytes) :
    ∃ path checks ok sinceEpoch seen after, (s.probe i).AskedFor path ∧
      (s.probe i).trace.tail = checks ++ ⟨.service .clock, sinceEpoch⟩ ::
        ⟨.loadHeartbeat, (heartbeatOf seen).lastSuccess⟩ :: after ∧
      Runs (databaseOk path) checks (.ret ok) ∧ seen <+: s.trace ∧
      readResponse bytes =
        some (evaluate path (heartbeatOf seen) ok {} (nowSeconds sinceEpoch)) := by
  obtain ⟨history, ⟨after, hhistory⟩, received, checks, ok, sinceEpoch, lastSuccess, rfl, hchecks,
    rfl⟩ := h.answers hwrites
  rw [List.cons_append, List.append_assoc] at hhistory
  have hload : (⟨.loadHeartbeat, lastSuccess⟩ : ProbeEvent) ∈ (s.probe i).trace := by
    rw [← hhistory]
    simp
  obtain ⟨seen, hseen, rfl⟩ := h.loads i _ hload lastSuccess rfl
  refine ⟨_, checks, ok, sinceEpoch, seen, after, ⟨received, ?_, rfl⟩, ?_, hchecks, hseen, ?_⟩
  · rw [← hhistory, List.head?_cons]
  · rw [← hhistory]
    rfl
  · apply readResponse_responseText
    apply return_notMem_evaluate

/-- Every answer of the health endpoint, in any interleaving, comes from a process that has started,
and it is read by its client as what `evaluate` says of the path that was asked for, of a heartbeat
that the process really had at some time, of the clock, and of the database: the thread has
consulted the database only for readiness, and has found it reachable exactly if it has answered
`SELECT 1` on a pooled connection. -/
theorem probe_answers (hsteps : Pod.Steps (Pod.start E J parserVersion rounds) s)
    (hwrites : (s.probe i).Writes bytes) :
    (∃ config, Started E J config s.trace) ∧
      ∃ path checks ok sinceEpoch seen after, (s.probe i).AskedFor path ∧
      (s.probe i).trace.tail = checks ++ ⟨.service .clock, sinceEpoch⟩ ::
        ⟨.loadHeartbeat, (heartbeatOf seen).lastSuccess⟩ :: after ∧
      (path ≠ readyPath → checks = [] ∧ ok = true) ∧
      (path = readyPath → (ok = true ↔ checks = [⟨.service .getConnection, .ok ()⟩,
        ⟨.service (.simpleQuery "SELECT 1".toList), .ok ()⟩])) ∧
      seen <+: s.trace ∧
      readResponse bytes =
        some (evaluate path (heartbeatOf seen) ok {} (nowSeconds sinceEpoch)) := by
  have hinv : PodInv E J parserVersion rounds s := PodInv.start.of_steps hsteps
  obtain ⟨path, checks, ok, sinceEpoch, seen, after, hasked, htail, hchecks, hseen, hread⟩ :=
    hinv.evaluated hwrites
  have htrace : (s.probe i).trace ≠ [] := by
    rintro hnil
    simp [hnil] at htail
  refine ⟨(hinv.serving i htrace).started hinv.process, path, checks, ok, sinceEpoch, seen, after,
    hasked, htail, checks_eq_nil hchecks, ?_, hseen, hread⟩
  rintro rfl
  exact ok_iff_checks hchecks

/-- The answer of the example probe. -/
theorem probe_answers_examplePod :
    (∃ config, Started .reference exampleJson config examplePod.trace) ∧
      ∃ path checks ok sinceEpoch seen after, (examplePod.probe ()).AskedFor path ∧
      (examplePod.probe ()).trace.tail = checks ++ ⟨.service .clock, sinceEpoch⟩ ::
        ⟨.loadHeartbeat, (heartbeatOf seen).lastSuccess⟩ :: after ∧
      (path ≠ readyPath → checks = [] ∧ ok = true) ∧
      (path = readyPath → (ok = true ↔ checks = [⟨.service .getConnection, .ok ()⟩,
        ⟨.service (.simpleQuery "SELECT 1".toList), .ok ()⟩])) ∧
      seen <+: examplePod.trace ∧
      readResponse exampleAnswer =
        some (evaluate path (heartbeatOf seen) ok {} (nowSeconds sinceEpoch)) :=
  probe_answers steps_examplePod examplePod_spec.1

/-- When a client that has asked for readiness reads a success, in any interleaving, then in this
thread the database has answered `SELECT 1`, and at most `ready_stale_seconds` before the time that
the thread has seen the process has recorded a work pass that returned `Ok`: the exchanges before
the record are those of the pass, and in the first of them the kernel has answered with the list of
routes. -/
theorem ready_probe_behind_pass {body : Str}
    (hsteps : Pod.Steps (Pod.start E J parserVersion rounds) s)
    (hwrites : (s.probe i).Writes bytes) (hasked : (s.probe i).AskedFor readyPath)
    (hread : readResponse bytes = some (statusOk, body)) :
    ⟨.service (.simpleQuery "SELECT 1".toList), .ok ()⟩ ∈ (s.probe i).trace ∧
      ∃ now, ⟨.service .clock, now⟩ ∈ (s.probe i).trace ∧
      ∃ config before sinceEpoch after pass outcome,
        s.trace = before ++ ⟨.clock, sinceEpoch⟩ ::
          ⟨.recordSuccess (nowSeconds sinceEpoch), ()⟩ :: after ∧
        (nowSeconds now).toInt ≤ (nowSeconds sinceEpoch).toInt + 30 ∧
        Started E J config s.trace ∧
        Runs (workOnce E parserVersion config.leaseSeconds) pass (.ret (.ok outcome)) ∧
        EndsWithPass J pass before ∧
        ∃ earlier later listing routes, ∃ listed : SignedRequest,
          conversation before = earlier ++ ⟨.send listed, .ok ⟨200, listing⟩⟩ :: later ∧
          listed.IsFor J .eligibleRoutes ∧
          J.eligibleRoutes listing = .ok routes := by
  have hinv : PodInv E J parserVersion rounds s := PodInv.start.of_steps hsteps
  obtain ⟨path, checks, ok, now, seen, later, ⟨received, hhead, hpath⟩, htail, hchecks,
    ⟨unseen, hseen⟩, hanswer⟩ := hinv.evaluated hwrites
  obtain ⟨received', hhead', hpath'⟩ := hasked
  obtain rfl : received' = received := by
    rw [hhead] at hhead'
    simpa using hhead'.symm
  rw [hpath'] at hpath
  subst hpath
  have hready : (evaluate readyPath (heartbeatOf seen) ok {} (nowSeconds now)).1 = statusOk := by
    rw [hanswer] at hread
    exact congrArg Prod.fst (Option.some.inj hread)
  obtain ⟨middle, hrun, -⟩ := (hseen ▸ hinv.process).split
  obtain ⟨hok, config, before, sinceEpoch, after, pass, outcome, htrace, -, hrecent, hstarted,
    hruns, hpass, hlisted⟩ := ready_behind_pass hrun hready
  rw [ok_iff_checks hchecks] at hok
  subst hok
  have hmem : ∀ e ∈ (s.probe i).trace.tail, e ∈ (s.probe i).trace := fun _ =>
    List.mem_of_mem_tail
  rw [htail] at hmem
  refine ⟨hmem _ (by simp), now, hmem _ (by simp), config, before, sinceEpoch, after ++ unseen,
    pass, outcome, ?_, hrecent, ?_, hruns, hpass, hlisted⟩
  · rw [← hseen, htrace]
    simp
  · rw [← hseen]
    exact hstarted.append unseen

/-- The readiness behind a first round. -/
theorem ready_probe_behind_pass_examplePod :
    ⟨.service (.simpleQuery "SELECT 1".toList), .ok ()⟩ ∈ (examplePod.probe ()).trace ∧
      ∃ now, ⟨.service .clock, now⟩ ∈ (examplePod.probe ()).trace ∧
      ∃ config before sinceEpoch after pass outcome,
        examplePod.trace = before ++ ⟨.clock, sinceEpoch⟩ ::
          ⟨.recordSuccess (nowSeconds sinceEpoch), ()⟩ :: after ∧
        (nowSeconds now).toInt ≤ (nowSeconds sinceEpoch).toInt + 30 ∧
        Started .reference exampleJson config examplePod.trace ∧
        Runs (workOnce .reference cargoParserVersion config.leaseSeconds) pass
          (.ret (.ok outcome)) ∧
        EndsWithPass exampleJson pass before ∧
        ∃ earlier later listing routes, ∃ listed : SignedRequest,
          conversation before = earlier ++ ⟨.send listed, .ok ⟨200, listing⟩⟩ :: later ∧
          listed.IsFor exampleJson .eligibleRoutes ∧
          exampleJson.eligibleRoutes listing = .ok routes :=
  ready_probe_behind_pass steps_examplePod examplePod_spec.1 examplePod_spec.2.1
    examplePod_spec.2.2

end Pf2eParser
