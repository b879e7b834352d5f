import Pf2eParser.Completion

/-!
# The health probes

`health.rs`, and the loop `run` of `lib.rs` that keeps its heartbeat.  The loop records the time of
every pass that returns `Ok`; the probes compare it with the clock.  What a probe sees is the last
recorded time (`lastSuccess_heartbeatAfter`), and zero is taken for "no success yet".

Liveness is meant to look at the kernel only.  But a pass also fails when the candidate repository
does, or when a routed request has a malformed scope, and then it records nothing.
`live_iff_unimpeded` says what liveness comes to as long as the kernel answers every call:
`/health/live` reports the age of the last pass that met neither of the two.
-/

namespace Pf2eParser

open Text Interaction

/-! ## The heartbeat and the probes -/

/-- `i64::saturating_sub`. -/
def saturatingSub (a b : Int64) : Int64 := .ofIntClamp (a.toInt - b.toInt)

/-- When the work loop last completed a pass; zero means "not yet". -/
structure Heartbeat where
  lastSuccess : Int64 := 0
  deriving DecidableEq

/-- A pass was completed. -/
def Heartbeat.recordSuccess (_heartbeat : Heartbeat) (instant : Int64) : Heartbeat := ⟨instant⟩

/-- How long ago the last success is. -/
def Heartbeat.age (heartbeat : Heartbeat) (now : Int64) : Option Int64 :=
  if heartbeat.lastSuccess = 0 then none else some (saturatingSub now heartbeat.lastSuccess)

/-- How old the last success may be, with the default values. -/
structure Thresholds where
  readyStaleSeconds : Int64 := 30
  liveStaleSeconds : Int64 := 150

/-- The status line of a probe that succeeds. -/
def statusOk : Str := "200 OK".toList

/-- The status line of a probe that fails. -/
def statusUnavailable : Str := "503 Service Unavailable".toList

/-- The path of the liveness probe. -/
def livePath : Str := "/health/live".toList

/-- The path of the readiness probe. -/
def readyPath : Str := "/health/ready".toList

/-- The status and the body of the answer to a probe. -/
def evaluate (path : Str) (heartbeat : Heartbeat) (databaseOk : Bool) (thresholds : Thresholds)
    (now : Int64) : Str × Str :=
  if path = livePath then
    match heartbeat.age now with
    | none => (statusOk, "starting\n".toList)
    | some age =>
      if age ≤ thresholds.liveStaleSeconds then (statusOk, "ok\n".toList)
      else (statusUnavailable, "no successful kernel pass for ".toList ++ displayInt64 age ++
        "s\n".toList)
  else if path = readyPath then
    if databaseOk then
      match heartbeat.age now with
      | none => (statusUnavailable, "no successful kernel pass yet\n".toList)
      | some age =>
        if age ≤ thresholds.readyStaleSeconds then (statusOk, "ok\n".toList)
        else (statusUnavailable, "last successful kernel pass ".toList ++ displayInt64 age ++
          "s ago\n".toList)
    else (statusUnavailable, "database unavailable\n".toList)
  else ("404 Not Found".toList, "not found\n".toList)

/-- The seconds since the epoch, or zero on a clock that is set before it. -/
def nowSeconds (sinceEpoch : Option UInt64) : Int64 := (sinceEpoch.map UInt64.toInt64).getD 0

/-! ## The work loop -/

/-- One round of the loop: the calls of the pass, its result, and the clock behind it. -/
structure LoopPass (E : Externals) (parserVersion : Str) (leaseSeconds : Int64) where
  trace : List PassEvent
  result : Except ParserError WorkOutcome
  clock : Option UInt64
  /-- The pass is a run of `work_once`. -/
  runs : Runs (workOnce E parserVersion leaseSeconds) trace (.ret result)

variable {E : Externals} {parserVersion : Str} {leaseSeconds : Int64}

/-- The time that is recorded if the pass succeeds. -/
def LoopPass.instant (pass : LoopPass E parserVersion leaseSeconds) : Int64 := nowSeconds pass.clock

/-- The pass returned `Ok`. -/
def LoopPass.Succeeded (pass : LoopPass E parserVersion leaseSeconds) : Prop :=
  ∃ outcome, pass.result = .ok outcome

/-- What a pass does with the heartbeat. -/
def Heartbeat.afterPass (heartbeat : Heartbeat) (pass : LoopPass E parserVersion leaseSeconds) :
    Heartbeat :=
  match pass.result with
  | .ok _ => heartbeat.recordSuccess pass.instant
  | .error _ => heartbeat

/-- The heartbeat after the passes that the loop has made. -/
def heartbeatAfter (passes : List (LoopPass E parserVersion leaseSeconds)) : Heartbeat :=
  passes.foldl Heartbeat.afterPass {}

/-- The last pass that has the property ended at the given instant. -/
def LastInstant (P : LoopPass E parserVersion leaseSeconds → Prop)
    (passes : List (LoopPass E parserVersion leaseSeconds)) (instant : Int64) : Prop :=
  ∃ before pass after, passes = before ++ pass :: after ∧ P pass ∧ (∀ later ∈ after, ¬ P later) ∧
    pass.instant = instant

variable {passes : List (LoopPass E parserVersion leaseSeconds)}
  {P Q : LoopPass E parserVersion leaseSeconds → Prop}

/-- There is a last pass with the property, if there is one at all. -/
theorem exists_lastInstant (h : ∃ pass ∈ passes, P pass) :
    ∃ instant, LastInstant P passes instant := by
  induction passes with
  | nil => simp at h
  | cons pass passes ih =>
    by_cases hlater : ∃ later ∈ passes, P later
    · obtain ⟨instant, before, last, after, rfl, hlast⟩ := ih hlater
      exact ⟨instant, pass :: before, last, after, rfl, hlast⟩
    · have hpass : P pass := by
        obtain ⟨pass', hmem, hP⟩ := h
        rcases List.mem_cons.mp hmem with rfl | hmem
        · exact hP
        · exact absurd ⟨pass', hmem, hP⟩ hlater
      exact ⟨pass.instant, [], pass, passes, rfl, hpass, fun later hmem hP => hlater
        ⟨later, hmem, hP⟩, rfl⟩

/-- The last pass with one property is the last one with another that the same passes have. -/
theorem LastInstant.congr {instant : Int64} (h : LastInstant P passes instant)
    (hPQ : ∀ pass ∈ passes, P pass ↔ Q pass) :
    LastInstant Q passes instant := by
  obtain ⟨before, pass, after, rfl, hpass, hafter, hinstant⟩ := h
  refine ⟨before, pass, after, rfl, (hPQ pass (by simp)).mp hpass, fun later hl hQ => ?_, hinstant⟩
  exact hafter later hl ((hPQ later (by simp [hl])).mpr hQ)

/-- Passes without a success leave the heartbeat alone. -/
theorem foldl_afterPass_of_not_succeeded (heartbeat : Heartbeat)
    (h : ∀ pass ∈ passes, ¬ pass.Succeeded) :
    passes.foldl Heartbeat.afterPass heartbeat = heartbeat := by
  induction passes with
  | nil => rfl
  | cons pass passes ih =>
    have hpass : heartbeat.afterPass pass = heartbeat := by
      unfold Heartbeat.afterPass
      cases hresult : pass.result with
      | ok outcome => exact absurd ⟨outcome, hresult⟩ (h pass (by simp))
      | error => rfl
    rw [List.foldl_cons, hpass, ih fun later hl => h later (by simp [hl])]

/-- The heartbeat has the time of the last success. -/
theorem lastSuccess_heartbeatAfter {instant : Int64}
    (h : LastInstant LoopPass.Succeeded passes instant) :
    (heartbeatAfter passes).lastSuccess = instant := by
  obtain ⟨before, pass, after, rfl, ⟨outcome, hresult⟩, hafter, rfl⟩ := h
  rw [heartbeatAfter, List.foldl_append, List.foldl_cons, foldl_afterPass_of_not_succeeded _ hafter,
    Heartbeat.afterPass, hresult, Heartbeat.recordSuccess]

/-- Without a success the heartbeat has no time. -/
theorem lastSuccess_heartbeatAfter_eq_zero (h : ∀ pass ∈ passes, ¬ pass.Succeeded) :
    (heartbeatAfter passes).lastSuccess = 0 := by
  rw [heartbeatAfter, foldl_afterPass_of_not_succeeded _ h]

/-- Saturation does not matter to a comparison with a bound below the maximum. -/
theorem saturatingSub_le_iff {a b c : Int64} (hc : c.toInt < Int64.maxValue.toInt) :
    saturatingSub a b ≤ c ↔ a.toInt ≤ b.toInt + c.toInt := by
  have hmin := Int64.minValue_le_toInt c
  rw [saturatingSub, Int64.ofIntClamp, Int64.le_iff_toInt_le]
  split
  case isTrue hlow =>
    split
    case isTrue hhigh =>
      rw [Int64.toInt_ofIntLE]
      omega
    case isFalse => omega
  case isFalse => omega

/-- When liveness succeeds. -/
theorem evaluate_live_iff (heartbeat : Heartbeat) (databaseOk : Bool) (now : Int64) :
    (evaluate livePath heartbeat databaseOk {} now).1 = statusOk ↔
      heartbeat.lastSuccess = 0 ∨ now.toInt ≤ heartbeat.lastSuccess.toInt + 150 := by
  have hne : statusUnavailable ≠ statusOk := by decide
  have hbound : (({} : Thresholds).liveStaleSeconds).toInt = 150 := by decide
  have hsub := @saturatingSub_le_iff now heartbeat.lastSuccess ({} : Thresholds).liveStaleSeconds
    (by decide)
  rw [hbound] at hsub
  rw [evaluate, if_pos rfl, Heartbeat.age]
  by_cases hzero : heartbeat.lastSuccess = 0
  · simp [hzero]
  · simp only [hzero, if_false, false_or, ← hsub]
    split
    case isTrue h => simp [h]
    case isFalse h => simp [h, hne]

/-- Liveness succeeds or says that the service is unavailable. -/
theorem evaluate_live_eq_unavailable_iff (heartbeat : Heartbeat) (databaseOk : Bool)
    (now : Int64) :
    (evaluate livePath heartbeat databaseOk {} now).1 = statusUnavailable ↔
      heartbeat.lastSuccess ≠ 0 ∧ heartbeat.lastSuccess.toInt + 150 < now.toInt := by
  have hne : statusOk ≠ statusUnavailable := by decide
  have hor : (evaluate livePath heartbeat databaseOk {} now).1 = statusOk ∨
      (evaluate livePath heartbeat databaseOk {} now).1 = statusUnavailable := by
    rw [evaluate, if_pos rfl]
    split
    · exact Or.inl rfl
    split
    · exact Or.inl rfl
    · exact Or.inr rfl
  have hiff := evaluate_live_iff heartbeat databaseOk now
  rcases hor with hok | hunavailable
  · rw [hok] at hiff ⊢
    simp only [true_iff] at hiff
    simp only [hne, false_iff, not_and, not_lt]
    intro hzero
    exact hiff.resolve_left hzero
  · rw [hunavailable] at hiff ⊢
    simp only [hne.symm, false_iff, not_or, not_le] at hiff
    exact iff_of_true rfl hiff

/-! ## Liveness and the collaborators -/

/-- The kernel answers the call; the candidate repository may answer what it likes. -/
def KernelAnswers : PassEvent → Prop
  | ⟨.eligibleRoutes, answer⟩ => ∃ routes, answer = .ok routes
  | ⟨.proposeClaim _ _, answer⟩ => ∃ outcome, answer = .ok outcome
  | ⟨.routedRequest _, answer⟩ => ∃ outcome, answer = .ok outcome
  | ⟨.completeClaim _ _, answer⟩ => ∃ outcome, answer = .ok outcome
  | ⟨.submitRequest _ _, answer⟩ => answer = .ok ()
  | ⟨.parseOnce _ _, _⟩ => True

/-- The repository fails, or the request behind the route has a malformed scope. -/
def Impedes (E : Externals) : PassEvent → Prop
  | ⟨.parseOnce _ _, answer⟩ => ∃ error, answer = .error error
  | ⟨.routedRequest _, answer⟩ => ∃ request, answer = .ok (.found request) ∧
      request.action = parseAction ∧ ∃ error, parseInputScope E request.scope = .error error
  | _ => False

/-- Something in the pass impedes it. -/
def LoopPass.Impeded (pass : LoopPass E parserVersion leaseSeconds) : Prop :=
  ∃ e ∈ pass.trace, Impedes E e

/-- A pass whose kernel calls are answered may call what it likes. -/
def answeredContract : Contract PortCall.Answer where
  assumes := KernelAnswers
  gate _ _ := True

/-- Nothing in the history impedes a pass. -/
def Unimpeded (E : Externals) (history : List PassEvent) : Prop := ∀ e ∈ history, ¬ Impedes E e

/-- A pass fails exactly when something in its history impedes it. -/
def FailsIfImpeded {ρ : Type} (E : Externals) (history : List PassEvent)
    (result : Except ParserError ρ) : Prop :=
  (∃ error, result = .error error) ↔ ¬ Unimpeded E history

/-- One more event that does not impede the pass. -/
theorem Unimpeded.snoc {history : List PassEvent} (h : Unimpeded E history) {e : PassEvent}
    (he : ¬ Impedes E e) : Unimpeded E (history ++ [e]) := by
  intro e' he'
  rcases List.mem_append.mp he' with he' | he'
  · exact h e' he'
  · exact List.mem_singleton.mp he' ▸ he

/-- An unimpeded pass may return `Ok`. -/
theorem Unimpeded.failsIfImpeded_ok {ρ : Type} {history : List PassEvent} (h : Unimpeded E history)
    (r : ρ) : FailsIfImpeded E history (.ok r) :=
  iff_of_false (by simp) (not_not_intro h)

/-- A pass that has just been impeded may fail. -/
theorem failsIfImpeded_error {ρ : Type} {e : PassEvent} (he : Impedes E e)
    (history : List PassEvent) (error : ParserError) :
    FailsIfImpeded (ρ := ρ) E (history ++ [e]) (.error error) :=
  iff_of_true ⟨error, rfl⟩ fun h => h e (by simp) he

/-- The submissions of a pass that nothing has impeded. -/
theorem submitCandidates_unimpeded {source : SourceReference} (candidates : List Candidate)
    {history : List PassEvent} (h : Unimpeded E history) :
    (submitCandidates E parserVersion source candidates).Meets answeredContract
      (fun history result => result = .ok () ∧ Unimpeded E history) history := by
  induction candidates generalizing history with
  | nil => exact ⟨rfl, h⟩
  | cons candidate candidates ih =>
    refine ⟨trivial, fun answer hanswer => ?_⟩
    obtain rfl : answer = .ok () := hanswer
    exact ih (h.snoc id)

/-- The completion of a claim by a pass that nothing has impeded. -/
theorem completePerformed_failsIfImpeded (routeId : Str) (claim : WorkClaim)
    (outcome : DispatchOutcome) {history : List PassEvent} (h : Unimpeded E history) :
    (completePerformed routeId claim outcome).Meets answeredContract (FailsIfImpeded E)
      history := by
  refine ⟨trivial, fun answer hanswer => ?_⟩
  obtain ⟨completion, rfl⟩ := hanswer
  have hclean := h.snoc (e := ⟨.completeClaim claim.claimId claim.fencingToken, .ok completion⟩) id
  cases completion <;> exact hclean.failsIfImpeded_ok _

/-- The dispatch of a request, and what the pass makes of its result. -/
theorem dispatch_failsIfImpeded (routeId : Str) (claim : WorkClaim) (request : RoutedRequest)
    {history : List PassEvent} (h : Unimpeded E history) :
    ((dispatch E parserVersion request.action request.scope).bind
        (concludePass routeId claim)).Meets answeredContract (FailsIfImpeded E)
      (history ++ [⟨.routedRequest routeId, .ok (.found request)⟩]) := by
  unfold dispatch
  split
  case isFalse haction =>
    have hclean := h.snoc (e := ⟨.routedRequest routeId, .ok (.found request)⟩) (by
      rintro ⟨request', heq, haction', -⟩
      obtain rfl := RoutedRequestOutcome.found.inj (Except.ok.inj heq)
      exact haction haction')
    refine ⟨trivial, fun answer hanswer => ?_⟩
    obtain ⟨completion, rfl⟩ := hanswer
    exact (hclean.snoc id).failsIfImpeded_ok _
  case isTrue haction =>
    cases hscope : parseInputScope E request.scope with
    | error error =>
      obtain ⟨reason, rfl⟩ := malformedOnly_parseInputScope _ _ hscope
      have himpedes : Impedes E ⟨.routedRequest routeId, .ok (.found request)⟩ :=
        ⟨request, rfl, haction, _, hscope⟩
      exact failsIfImpeded_error himpedes _ _
    | ok source =>
      have hclean := h.snoc (e := ⟨.routedRequest routeId, .ok (.found request)⟩) (by
        rintro ⟨request', heq, -, error, herror⟩
        obtain rfl := RoutedRequestOutcome.found.inj (Except.ok.inj heq)
        rw [hscope] at herror
        simp at herror)
      refine ⟨trivial, fun answer _ => ?_⟩
      cases answer with
      | error error =>
        have himpedes : Impedes E ⟨.parseOnce parserVersion source, .error error⟩ := ⟨error, rfl⟩
        exact failsIfImpeded_error himpedes _ _
      | ok outcome =>
        have hparsed := hclean.snoc (e := ⟨.parseOnce parserVersion source, .ok outcome⟩) (by
          rintro ⟨error, heq⟩
          simp at heq)
        change Prog.Meets _ _ (Prog.bind (Prog.bind _ _) _) _
        rw [Prog.bind_assoc]
        refine (submitCandidates_unimpeded outcome.candidates hparsed).bind ?_
        rintro history' result ⟨rfl, hdone⟩
        exact completePerformed_failsIfImpeded routeId claim _ hdone

/-- A pass whose kernel calls are answered fails exactly when it is impeded. -/
theorem workOnce_failsIfImpeded :
    (workOnce E parserVersion leaseSeconds).Meets answeredContract (FailsIfImpeded E) [] := by
  have hstart : Unimpeded E [] := by simp [Unimpeded]
  refine ⟨trivial, fun answer hanswer => ?_⟩
  obtain ⟨routes, rfl⟩ := hanswer
  have hroutes := hstart.snoc (e := ⟨.eligibleRoutes, .ok routes⟩) id
  cases routes with
  | nil => exact hroutes.failsIfImpeded_ok _
  | cons route routes =>
    refine ⟨trivial, fun answer hanswer => ?_⟩
    obtain ⟨outcome, rfl⟩ := hanswer
    have hclaim := hroutes.snoc
      (e := ⟨.proposeClaim route.routeId leaseSeconds, .ok outcome⟩) id
    cases outcome with
    | alreadyClaimed => exact hclaim.failsIfImpeded_ok _
    | routeNotFound => exact hclaim.failsIfImpeded_ok _
    | claimed claim =>
      refine ⟨trivial, fun answer hanswer => ?_⟩
      obtain ⟨found, rfl⟩ := hanswer
      cases found with
      | found request => exact dispatch_failsIfImpeded route.routeId claim request hclaim
      | notFound =>
        refine Unimpeded.failsIfImpeded_ok (hclaim.snoc ?_) _
        rintro ⟨request, heq, -⟩
        simp at heq

/-- If the kernel answers every call of a pass, it succeeds unless it is impeded. -/
theorem LoopPass.succeeded_iff (pass : LoopPass E parserVersion leaseSeconds)
    (hkernel : ∀ e ∈ pass.trace, KernelAnswers e) : pass.Succeeded ↔ ¬ pass.Impeded := by
  have hfails : (∃ error, pass.result = .error error) ↔ ¬ Unimpeded E pass.trace :=
    pass.runs.meets workOnce_failsIfImpeded hkernel
  have himpeded : ¬ Unimpeded E pass.trace ↔ pass.Impeded := by
    simp [Unimpeded, LoopPass.Impeded]
  rw [← himpeded, ← hfails, LoopPass.Succeeded]
  cases pass.result <;> simp

/-- As long as the kernel answers every call, `/health/live` answers 200 at an instant exactly when
the last unimpeded pass ended at most `live_stale_seconds` before, or at a time that is recorded as
zero. -/
theorem live_iff_unimpeded (hkernel : ∀ pass ∈ passes, ∀ e ∈ pass.trace, KernelAnswers e)
    (hsuccess : ∃ pass ∈ passes, pass.Succeeded) (databaseOk : Bool) (now : Int64) :
    (evaluate livePath (heartbeatAfter passes) databaseOk {} now).1 = statusOk ↔
      ∃ instant, LastInstant (fun pass => ¬ pass.Impeded) passes instant ∧
        (instant = 0 ∨ now.toInt ≤ instant.toInt + 150) := by
  have hiff : ∀ pass ∈ passes, pass.Succeeded ↔ ¬ pass.Impeded := fun pass hpass =>
    pass.succeeded_iff (hkernel pass hpass)
  obtain ⟨instant, hlast⟩ := exists_lastInstant hsuccess
  rw [evaluate_live_iff, lastSuccess_heartbeatAfter hlast]
  constructor
  · exact fun h => ⟨instant, hlast.congr hiff, h⟩
  · rintro ⟨instant', hlast', h⟩
    have hsame := hlast'.congr fun pass hpass => (hiff pass hpass).symm
    rwa [← lastSuccess_heartbeatAfter hlast, lastSuccess_heartbeatAfter hsame]

/-- A pass that finds nothing to do. -/
def idlePass (clock : Option UInt64) : LoopPass .reference cargoParserVersion 60 where
  trace := [⟨.eligibleRoutes, .ok []⟩]
  result := .ok .nothingEligible
  clock := clock
  runs := .step _ (.refl _)

/-- A pass that finds its database unreachable. -/
def outagePass (clock : Option UInt64) : LoopPass .reference cargoParserVersion 60 where
  trace := opening 60 exampleRoute [] exampleClaim exampleRequest ++
    [⟨.parseOnce cargoParserVersion longLocation, .error .repository⟩]
  result := .error (.candidate .repository)
  clock := clock
  runs := by
    refine .step _ (.step _ (.step _ ?_))
    dsimp only
    rw [show exampleRequest.action = parseAction from rfl, dispatch, if_pos rfl,
      show parseInputScope .reference exampleRequest.scope = .ok longLocation from
        parseInputScope_longLocation.2]
    exact .step _ (.refl _)

/-- One good pass, and then the database is unreachable for two passes. -/
def outageRun : List (LoopPass .reference cargoParserVersion 60) :=
  [idlePass (some 1000), outagePass (some 1100), outagePass (some 1200)]

/-- The passes of a run are at most `live_stale_seconds` apart, up to the given instant. -/
def Spaced (passes : List (LoopPass E parserVersion leaseSeconds)) (now : Int64) : Prop :=
  (passes.map LoopPass.instant ++ [now]).IsChain fun a b =>
    a.toInt ≤ b.toInt ∧ b.toInt ≤ a.toInt + 150

/-- The kernel answers every call of the outage. -/
theorem kernelAnswers_outageRun : ∀ pass ∈ outageRun, ∀ e ∈ pass.trace, KernelAnswers e := by
  simp [outageRun, idlePass, outagePass, opening, KernelAnswers]

/-- The outage makes liveness fail although the kernel answers every call. -/
theorem live_fails_in_outage :
    ¬ ∀ (passes : List (LoopPass .reference cargoParserVersion 60)) (databaseOk : Bool)
      (now : Int64), (∀ pass ∈ passes, ∀ e ∈ pass.trace, KernelAnswers e) → Spaced passes now →
      (∃ pass ∈ passes, pass.Succeeded) →
        (evaluate livePath (heartbeatAfter passes) databaseOk {} now).1 = statusOk := by
  intro h
  have hlive := h outageRun false 1200 kernelAnswers_outageRun
    (by simp [Spaced, outageRun, idlePass, outagePass, LoopPass.instant, nowSeconds])
    ⟨idlePass (some 1000), by simp [outageRun], .nothingEligible, rfl⟩
  exact absurd hlive (by decide +kernel)

/-- In the outage, the last unimpeded pass is too old. -/
theorem live_iff_unimpeded_outage :
    ¬ ∃ instant, LastInstant (fun pass => ¬ pass.Impeded) outageRun instant ∧
      (instant = 0 ∨ (1200 : Int64).toInt ≤ instant.toInt + 150) := by
  rw [← live_iff_unimpeded kernelAnswers_outageRun
    ⟨idlePass (some 1000), by simp [outageRun], .nothingEligible, rfl⟩ false 1200]
  decide +kernel

/-! ## Stuck loops -/

/-- A heartbeat without a time counts as starting. -/
theorem evaluate_live_starting {heartbeat : Heartbeat} (h : heartbeat.lastSuccess = 0)
    (databaseOk : Bool) (now : Int64) :
    evaluate livePath heartbeat databaseOk {} now = (statusOk, "starting\n".toList) := by
  rw [evaluate, if_pos rfl, Heartbeat.age, if_pos h]

/-- The heartbeat has a time exactly when the last success was not recorded as zero. -/
theorem lastSuccess_heartbeatAfter_ne_zero_iff :
    (heartbeatAfter passes).lastSuccess ≠ 0 ↔
      ∃ instant, LastInstant LoopPass.Succeeded passes instant ∧ instant ≠ 0 := by
  constructor
  · intro hne
    have hsuccess : ∃ pass ∈ passes, pass.Succeeded := by
      by_contra hnone
      exact hne (lastSuccess_heartbeatAfter_eq_zero (by simpa using hnone))
    obtain ⟨instant, hlast⟩ := exists_lastInstant hsuccess
    exact ⟨instant, hlast, lastSuccess_heartbeatAfter hlast ▸ hne⟩
  · rintro ⟨instant, hlast, hne⟩
    rwa [lastSuccess_heartbeatAfter hlast]

/-- If no pass has succeeded within `live_stale_seconds`, `/health/live` answers 503 exactly when
some pass has succeeded before, the last one at a time that is not recorded as zero; otherwise the
process counts as starting. -/
theorem live_reports_stuck (now : Int64)
    (hstale : ∀ pass ∈ passes, pass.Succeeded → pass.instant.toInt + 150 < now.toInt)
    (databaseOk : Bool) :
    ((evaluate livePath (heartbeatAfter passes) databaseOk {} now).1 = statusUnavailable ↔
      ∃ instant, LastInstant LoopPass.Succeeded passes instant ∧ instant ≠ 0) ∧
    ((¬ ∃ instant, LastInstant LoopPass.Succeeded passes instant ∧ instant ≠ 0) →
      evaluate livePath (heartbeatAfter passes) databaseOk {} now =
        (statusOk, "starting\n".toList)) := by
  rw [← lastSuccess_heartbeatAfter_ne_zero_iff, evaluate_live_eq_unavailable_iff]
  refine ⟨and_iff_left_of_imp fun hne => ?_, fun hzero =>
    evaluate_live_starting (not_not.mp hzero) databaseOk now⟩
  obtain ⟨instant, hlast, -⟩ := lastSuccess_heartbeatAfter_ne_zero_iff.mp hne
  rw [lastSuccess_heartbeatAfter hlast]
  obtain ⟨before, pass, after, rfl, hpass, -, rfl⟩ := hlast
  exact hstale pass (by simp) hpass

/-- A pass whose first kernel call is rejected. -/
def rejectedPass (clock : Option UInt64) : LoopPass .reference cargoParserVersion 60 where
  trace := [⟨.eligibleRoutes, .error (.unexpectedStatus 401)⟩]
  result := .error (.unexpectedStatus 401)
  clock := clock
  runs := .step _ (.refl _)

/-- A loop whose kernel calls are rejected from the start is never reported. -/
theorem live_misses_rejected_start :
    ¬ ∀ (start : Int64) (passes : List (LoopPass .reference cargoParserVersion 60))
      (databaseOk : Bool) (now : Int64),
      (∀ pass ∈ passes, start.toInt ≤ pass.instant.toInt ∧ pass.instant.toInt ≤ now.toInt) →
      start.toInt + 150 < now.toInt →
      (∀ pass ∈ passes, pass.Succeeded → pass.instant.toInt + 150 < now.toInt) →
        (evaluate livePath (heartbeatAfter passes) databaseOk {} now).1 = statusUnavailable := by
  intro h
  have hlive := h 1000 [rejectedPass (some 1000), rejectedPass (some 1400)] true 1500
    (by simp [rejectedPass, LoopPass.instant, nowSeconds]) (by decide)
    (by simp [rejectedPass, LoopPass.Succeeded])
  exact absurd hlive (by decide +kernel)

/-- A loop that gets stuck after a success is reported, and one without a success is starting. -/
theorem live_reports_stuck_examples :
    (evaluate livePath (heartbeatAfter [idlePass (some 1000), rejectedPass (some 1100)]) true {}
        1200).1 = statusUnavailable ∧
      evaluate livePath (heartbeatAfter [rejectedPass (some 1000)]) true {} 1500 =
        (statusOk, "starting\n".toList) := by
  constructor
  · refine (live_reports_stuck 1200 ?_ true).1.mpr ⟨1000, ⟨[], idlePass (some 1000),
      [rejectedPass (some 1100)], rfl, ⟨_, rfl⟩, ?_, rfl⟩, by decide⟩
    · simp [idlePass, rejectedPass, LoopPass.Succeeded, LoopPass.instant, nowSeconds]
    · simp [rejectedPass, LoopPass.Succeeded]
  · refine (live_reports_stuck 1500 ?_ true).2 ?_
    · simp [rejectedPass, LoopPass.Succeeded]
    · rw [← lastSuccess_heartbeatAfter_ne_zero_iff]
      decide +kernel

end Pf2eParser
