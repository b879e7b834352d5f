import Pf2eParser.AdmitScope
import Pf2eParser.WorkLoop

/-!
# When a claim is completed

A work pass completes its claim only when there is nothing left to do for the route.  The precise
statement is a contract in the sense of `Interaction.Contract`: it says behind which history a pass
may make which call, and these histories are written out event by event.  The one assumption is that
the kernel port never answers a submission with `UnknownAction`; `KernelClient.submitRequest` does
not.

`workOnce_meets` checks the program against the contract, the loop over the candidates in
`submitCandidates_meets`.  The main result is `workOnce_completionGated`.
-/

namespace Pf2eParser

open Text Interaction

variable (E : Externals) (parserVersion : Str) (leaseSeconds : Int64)

/-! ## Histories of a pass -/

/-- A pass has claimed a route and read the request behind it. -/
def opening (route : EligibleRoute) (routes : List EligibleRoute) (claim : WorkClaim)
    (request : RoutedRequest) : List PassEvent :=
  [⟨.eligibleRoutes, .ok (route :: routes)⟩,
    ⟨.proposeClaim route.routeId leaseSeconds, .ok (.claimed claim)⟩,
    ⟨.routedRequest route.routeId, .ok (.found request)⟩]

/-- The accepted submission of a candidate. -/
def accepted (source : SourceReference) (candidate : Candidate) : PassEvent :=
  ⟨.submitRequest admitAction (admitScopeFor E parserVersion source candidate), .ok ()⟩

/-- The source of a request was parsed, and the candidates in `done` were accepted one by one. -/
def performing (source : SourceReference) (outcome : ParseOutcome) (done : List Candidate) :
    List PassEvent :=
  ⟨.parseOnce parserVersion source, .ok outcome⟩ ::
    done.map (accepted E parserVersion outcome.source)

/-- The pass has found a request of another action, and has done nothing else. -/
def AtUnknownAction (claim : WorkClaim) (history : List PassEvent) : Prop :=
  ∃ route routes request, request.action ≠ parseAction ∧
    history = opening leaseSeconds route routes claim request

/-- The pass has read a parse request and its scope, the repository has answered with `outcome`, and
the candidates in `done` were accepted. -/
def AtSubmission (claim : WorkClaim) (outcome : ParseOutcome) (done : List Candidate)
    (history : List PassEvent) : Prop :=
  ∃ route routes request source, request.action = parseAction ∧
    parseInputScope E request.scope = .ok source ∧
    history = opening leaseSeconds route routes claim request ++
      performing E parserVersion source outcome done

/-- Every candidate of the parsed source was submitted once, in order, and accepted. -/
def AtPerformed (claim : WorkClaim) (history : List PassEvent) : Prop :=
  ∃ outcome : ParseOutcome,
    AtSubmission E parserVersion leaseSeconds claim outcome outcome.candidates history

/-- The calls that a pass may make behind a history. -/
def passGate (history : List PassEvent) : PortCall → Prop
  | .eligibleRoutes => history = []
  | .proposeClaim routeId lease => ∃ route routes, route.routeId = routeId ∧ lease = leaseSeconds ∧
      history = [⟨.eligibleRoutes, .ok (route :: routes)⟩]
  | .routedRequest routeId => ∃ route routes claim, route.routeId = routeId ∧
      history = [⟨.eligibleRoutes, .ok (route :: routes)⟩,
        ⟨.proposeClaim route.routeId leaseSeconds, .ok (.claimed claim)⟩]
  | .parseOnce version source => ∃ route routes claim request, version = parserVersion ∧
      request.action = parseAction ∧ parseInputScope E request.scope = .ok source ∧
      history = opening leaseSeconds route routes claim request
  | .submitRequest action scope => ∃ claim outcome done candidate rest,
      outcome.candidates = done ++ candidate :: rest ∧ action = admitAction ∧
      scope = admitScopeFor E parserVersion outcome.source candidate ∧
      AtSubmission E parserVersion leaseSeconds claim outcome done history
  | .completeClaim claimId fencingToken => ∃ claim, claimId = claim.claimId ∧
      fencingToken = claim.fencingToken ∧ (AtUnknownAction leaseSeconds claim history ∨
        AtPerformed E parserVersion leaseSeconds claim history)

/-- A submission is not answered with `UnknownAction`. -/
def SubmitAnswered : PassEvent → Prop
  | ⟨.submitRequest _ _, answer⟩ => ∀ name, answer ≠ .error (.unknownAction name)
  | _ => True

/-- The contract of a work pass. -/
def passContract : Contract PortCall.Answer where
  assumes := SubmitAnswered
  gate := passGate E parserVersion leaseSeconds

/-- The history ends with the completion of a performed request. -/
def EndsCompleted (history : List PassEvent) : Prop :=
  ∃ claim completed before, history =
      before ++ [⟨.completeClaim claim.claimId claim.fencingToken, .ok (.completed completed)⟩] ∧
    AtPerformed E parserVersion leaseSeconds claim before

/-- The event lets a pass go on. -/
def Continues : PassEvent → Prop
  | ⟨.eligibleRoutes, answer⟩ => ∃ route routes, answer = .ok (route :: routes)
  | ⟨.proposeClaim _ _, answer⟩ => ∃ claim, answer = .ok (.claimed claim)
  | ⟨.routedRequest _, answer⟩ => ∃ request, answer = .ok (.found request)
  | ⟨.parseOnce _ _, answer⟩ => ∃ outcome, answer = .ok outcome
  | ⟨.submitRequest _ _, answer⟩ => answer = .ok ()
  | ⟨.completeClaim _ _, _⟩ => False

variable {E parserVersion leaseSeconds}

/-! ## The program keeps the contract -/

/-- A history that ends with anything but a completion does not end with a completion. -/
theorem not_endsCompleted {history : List PassEvent} {e : PassEvent}
    (he : ∀ claimId fencingToken, e.1 ≠ .completeClaim claimId fencingToken) :
    ¬ EndsCompleted E parserVersion leaseSeconds (history ++ [e]) := by
  rintro ⟨claim, completed, before, h, -⟩
  obtain ⟨-, h⟩ := List.append_inj' h rfl
  exact he _ _ (congrArg Sigma.fst (List.cons.inj h).1)

/-- One more accepted submission. -/
theorem AtSubmission.snoc {claim : WorkClaim} {outcome : ParseOutcome} {done : List Candidate}
    {history : List PassEvent}
    (h : AtSubmission E parserVersion leaseSeconds claim outcome done history)
    (candidate : Candidate) :
    AtSubmission E parserVersion leaseSeconds claim outcome (done ++ [candidate])
      (history ++ [accepted E parserVersion outcome.source candidate]) := by
  obtain ⟨route, routes, request, source, haction, hscope, rfl⟩ := h
  exact ⟨route, routes, request, source, haction, hscope, by simp [performing]⟩

/-- What the submission loop leaves behind. -/
def SubmitPost (E : Externals) (parserVersion : Str) (leaseSeconds : Int64) (claim : WorkClaim)
    (outcome : ParseOutcome) (history : List PassEvent) : Except ParserError Unit → Prop
  | .ok () => AtSubmission E parserVersion leaseSeconds claim outcome outcome.candidates history
  | .error error => (∀ name, error ≠ .unknownAction name) ∧
      ¬ EndsCompleted E parserVersion leaseSeconds history

/-- The submission loop keeps the contract. -/
theorem submitCandidates_meets {claim : WorkClaim} {outcome : ParseOutcome}
    {done rest : List Candidate} {history : List PassEvent}
    (hsplit : outcome.candidates = done ++ rest)
    (h : AtSubmission E parserVersion leaseSeconds claim outcome done history) :
    (submitCandidates E parserVersion outcome.source rest).Meets
      (passContract E parserVersion leaseSeconds)
      (SubmitPost E parserVersion leaseSeconds claim outcome) history := by
  induction rest generalizing done history with
  | nil =>
    rw [List.append_nil] at hsplit
    subst hsplit
    exact h
  | cons candidate rest ih =>
    refine ⟨⟨claim, outcome, done, candidate, rest, hsplit, rfl, rfl, h⟩, fun answer hanswer => ?_⟩
    cases answer with
    | error error =>
      refine ⟨fun name hname => hanswer name (by rw [hname]), not_endsCompleted ?_⟩
      simp
    | ok u => exact ih (by simpa using hsplit) (h.snoc candidate)

/-- What a dispatched request leaves behind. -/
def DispatchPost (E : Externals) (parserVersion : Str) (leaseSeconds : Int64) (claim : WorkClaim)
    (history : List PassEvent) : Except ParserError DispatchOutcome → Prop
  | .ok _ => AtPerformed E parserVersion leaseSeconds claim history
  | .error (.unknownAction _) => AtUnknownAction leaseSeconds claim history
  | .error _ => ¬ EndsCompleted E parserVersion leaseSeconds history

/-- A failure other than an unknown action leaves no completion behind. -/
theorem dispatchPost_error {claim : WorkClaim} {history : List PassEvent} {error : ParserError}
    (hname : ∀ name, error ≠ .unknownAction name)
    (h : ¬ EndsCompleted E parserVersion leaseSeconds history) :
    DispatchPost E parserVersion leaseSeconds claim history (.error error) := by
  cases error with
  | unknownAction name => exact absurd rfl (hname name)
  | _ => exact h

/-- Dispatching a request keeps the contract. -/
theorem dispatch_meets (route : EligibleRoute) (routes : List EligibleRoute) (claim : WorkClaim)
    (request : RoutedRequest) :
    (dispatch E parserVersion request.action request.scope).Meets
      (passContract E parserVersion leaseSeconds) (DispatchPost E parserVersion leaseSeconds claim)
      (opening leaseSeconds route routes claim request) := by
  unfold dispatch
  split
  case isFalse haction => exact ⟨route, routes, request, haction, rfl⟩
  case isTrue haction =>
    cases hscope : parseInputScope E request.scope with
    | error error =>
      obtain ⟨reason, rfl⟩ := malformedOnly_parseInputScope _ _ hscope
      exact @not_endsCompleted _ _ _ [_, _] _ (by simp)
    | ok source =>
      refine ⟨⟨route, routes, claim, request, rfl, haction, hscope, rfl⟩, fun answer _ => ?_⟩
      cases answer with
      | error error => exact not_endsCompleted (by simp)
      | ok outcome =>
        have hsub : AtSubmission E parserVersion leaseSeconds claim outcome []
            (opening leaseSeconds route routes claim request ++
              [⟨.parseOnce parserVersion source, .ok outcome⟩]) :=
          ⟨route, routes, request, source, haction, hscope, rfl⟩
        refine (submitCandidates_meets rfl hsub).bind fun h r hr => ?_
        cases r with
        | error error => exact dispatchPost_error hr.1 hr.2
        | ok u => exact ⟨outcome, hr⟩

/-- What a pass leaves behind: it reports a completion exactly when it ends with one. -/
def PassPost (E : Externals) (parserVersion : Str) (leaseSeconds : Int64)
    (history : List PassEvent) (result : Except ParserError WorkOutcome) : Prop :=
  (∃ routeId outcome, result = .ok (.completed routeId outcome)) ↔
    EndsCompleted E parserVersion leaseSeconds history

/-- A result that is not a completion is right behind a history that does not end with one. -/
theorem passPost_of_not {history : List PassEvent} {result : Except ParserError WorkOutcome}
    (hresult : ∀ routeId outcome, result ≠ .ok (.completed routeId outcome))
    (h : ¬ EndsCompleted E parserVersion leaseSeconds history) :
    PassPost E parserVersion leaseSeconds history result :=
  iff_of_false (fun ⟨routeId, outcome, hr⟩ => hresult routeId outcome hr) h

/-- A history that ends with the completion of an unknown action does not end with the completion of
a performed request. -/
theorem AtUnknownAction.not_endsCompleted {claim : WorkClaim} {history : List PassEvent}
    (h : AtUnknownAction leaseSeconds claim history) (e : PassEvent) :
    ¬ EndsCompleted E parserVersion leaseSeconds (history ++ [e]) := by
  rintro ⟨claim', completed, before, heq, outcome, route, routes, request, source, -, -, hbefore⟩
  obtain ⟨route', routes', request', -, rfl⟩ := h
  obtain ⟨hlen, -⟩ := List.append_inj' heq rfl
  rw [hbefore] at hlen
  have hlen := congrArg List.length hlen
  simp [opening, performing] at hlen

/-- What a pass does with the result of a dispatched request keeps the contract. -/
theorem concludePass_meets {routeId : Str} {claim : WorkClaim} {history : List PassEvent}
    {result : Except ParserError DispatchOutcome}
    (h : DispatchPost E parserVersion leaseSeconds claim history result) :
    (concludePass routeId claim result).Meets (passContract E parserVersion leaseSeconds)
      (PassPost E parserVersion leaseSeconds) history := by
  cases result with
  | ok outcome =>
    refine ⟨⟨claim, rfl, rfl, Or.inr h⟩, fun answer _ => ?_⟩
    cases answer with
    | error error =>
      refine passPost_of_not (by simp) ?_
      rintro ⟨_, _, _, heq, -⟩
      simp at heq
    | ok answer =>
      cases answer with
      | completed completed =>
        exact iff_of_true ⟨_, _, rfl⟩ ⟨claim, completed, history, rfl, h⟩
      | _ =>
        refine passPost_of_not (by simp) ?_
        rintro ⟨_, _, _, heq, -⟩
        simp at heq
  | error error =>
    cases error with
    | unknownAction name =>
      refine ⟨⟨claim, rfl, rfl, Or.inl h⟩, fun answer _ => ?_⟩
      cases answer with
      | error error => exact passPost_of_not (by simp) (AtUnknownAction.not_endsCompleted h _)
      | ok answer => exact passPost_of_not (by simp) (AtUnknownAction.not_endsCompleted h _)
    | _ => exact passPost_of_not (by simp) h

/-- A work pass keeps its contract. -/
theorem workOnce_meets :
    (workOnce E parserVersion leaseSeconds).Meets (passContract E parserVersion leaseSeconds)
      (PassPost E parserVersion leaseSeconds) [] := by
  refine ⟨rfl, fun answer _ => ?_⟩
  rcases answer with error | _ | ⟨route, routes⟩
  · exact passPost_of_not (by simp) (@not_endsCompleted _ _ _ [] _ (by simp))
  · exact passPost_of_not (by simp) (@not_endsCompleted _ _ _ [] _ (by simp))
  refine ⟨⟨route, routes, rfl, rfl, rfl⟩, fun answer _ => ?_⟩
  rcases answer with error | claim | _ | _
  · exact passPost_of_not (by simp) (not_endsCompleted (by simp))
  case ok.claimed =>
    refine ⟨⟨route, routes, claim, rfl, rfl⟩, fun answer _ => ?_⟩
    rcases answer with error | request | _
    · exact passPost_of_not (by simp) (not_endsCompleted (by simp))
    · exact (dispatch_meets route routes claim request).bind fun h r hr => concludePass_meets hr
    · exact passPost_of_not (by simp) (not_endsCompleted (by simp))
  · exact passPost_of_not (by simp) (not_endsCompleted (by simp))
  · exact passPost_of_not (by simp) (not_endsCompleted (by simp))

/-! ## All runs -/

/-- A pass makes a call only as long as everything has gone well. -/
theorem continues_of_passGate {history : List PassEvent} {c : PortCall}
    (h : passGate E parserVersion leaseSeconds history c) : ∀ e ∈ history, Continues e := by
  have hopening : ∀ route routes claim request,
      ∀ e ∈ opening leaseSeconds route routes claim request, Continues e := by
    intro route routes claim request
    simp [opening, Continues]
  have hsubmission : ∀ claim outcome done,
      AtSubmission E parserVersion leaseSeconds claim outcome done history →
        ∀ e ∈ history, Continues e := by
    rintro claim outcome done ⟨route, routes, request, source, -, -, rfl⟩ e he
    rcases List.mem_append.mp he with he | he
    · exact hopening _ _ _ _ e he
    · rcases List.mem_cons.mp he with rfl | he
      · exact ⟨outcome, rfl⟩
      · obtain ⟨candidate, -, rfl⟩ := List.mem_map.mp he
        rfl
  cases c with
  | eligibleRoutes => simp [show history = [] from h]
  | proposeClaim routeId lease =>
    obtain ⟨route, routes, -, -, rfl⟩ := h
    simp [Continues]
  | routedRequest routeId =>
    obtain ⟨route, routes, claim, -, rfl⟩ := h
    simp [Continues]
  | parseOnce version source =>
    obtain ⟨route, routes, claim, request, -, -, -, rfl⟩ := h
    exact hopening _ _ _ _
  | submitRequest action scope =>
    obtain ⟨claim, outcome, done, candidate, rest, -, -, -, h⟩ := h
    exact hsubmission _ _ _ h
  | completeClaim claimId fencingToken =>
    obtain ⟨claim, -, -, ⟨route, routes, request, -, rfl⟩ | ⟨outcome, h⟩⟩ := h
    · exact hopening _ _ _ _
    · exact hsubmission _ _ _ h

/-- The event is a call of `complete_claim`. -/
def isCompletion : PassEvent → Bool
  | ⟨.completeClaim _ _, _⟩ => true
  | _ => false

/-- A pass does not go on after a completion. -/
theorem isCompletion_eq_false_of_continues {e : PassEvent} (h : Continues e) :
    isCompletion e = false := by
  obtain ⟨c, answer⟩ := e
  cases c with
  | completeClaim claimId fencingToken => exact absurd h id
  | _ => rfl

/-- The completions of a pass are gated: what holds of the events `trace` of a pass that has got to
`rest`. -/
structure CompletionGated (E : Externals) (parserVersion : Str) (leaseSeconds : Int64)
    (trace : List PassEvent) (rest : Pass (Except ParserError WorkOutcome)) : Prop where
  /-- There is at most one completion. -/
  atMostOnce : trace.countP isCompletion ≤ 1
  /-- A completion names the claim that the pass obtained; the action was another one and nothing
  else was called, or every candidate was submitted once, in order, and accepted. -/
  completion : ∀ before claimId fencingToken answer after,
    trace = before ++ ⟨.completeClaim claimId fencingToken, answer⟩ :: after →
      ∃ claim, claimId = claim.claimId ∧ fencingToken = claim.fencingToken ∧
        (AtUnknownAction leaseSeconds claim before ∨
          AtPerformed E parserVersion leaseSeconds claim before)
  /-- A submission is the one of the next candidate, and all candidates before it were accepted. -/
  submission : ∀ before action scope answer after,
    trace = before ++ ⟨.submitRequest action scope, answer⟩ :: after →
      ∃ claim outcome done candidate remaining,
        outcome.candidates = done ++ candidate :: remaining ∧ action = admitAction ∧
        scope = admitScopeFor E parserVersion outcome.source candidate ∧
        AtSubmission E parserVersion leaseSeconds claim outcome done before
  /-- Nothing follows an error, a missing route or request, a lost claim or a completion. -/
  stops : ∀ before e after, trace = before ++ e :: after → after ≠ [] → Continues e
  /-- A call that has not been answered yet is gated in the same way. -/
  pending : ∀ c next, rest = .call c next → passGate E parserVersion leaseSeconds trace c
  /-- A completion is reported exactly when a completion of a performed request was answered with
  `Completed`. -/
  reported : ∀ result, rest = .ret result →
    ((∃ routeId outcome, result = .ok (.completed routeId outcome)) ↔
      EndsCompleted E parserVersion leaseSeconds trace)

/-- Every run of a work pass, finished or interrupted, completes its claim only when all the work is
done, whatever the kernel and the repository answer. -/
theorem workOnce_completionGated {trace : List PassEvent}
    {rest : Pass (Except ParserError WorkOutcome)}
    (hrun : Runs (workOnce E parserVersion leaseSeconds) trace rest)
    (hsubmit : ∀ e ∈ trace, SubmitAnswered e) :
    CompletionGated E parserVersion leaseSeconds trace rest := by
  have hgate : ∀ before e after, trace = before ++ e :: after →
      passGate E parserVersion leaseSeconds before e.1 := by
    rintro before e after rfl
    exact hrun.gate workOnce_meets fun e he => hsubmit e (by simp [he])
  have hrest := hrun.meets workOnce_meets hsubmit
  rw [List.nil_append] at hrest
  have hstops : ∀ before e after, trace = before ++ e :: after → after ≠ [] → Continues e := by
    intro before e after htrace hafter
    obtain ⟨e', after, rfl⟩ := List.exists_cons_of_ne_nil hafter
    exact continues_of_passGate (hgate (before ++ [e]) e' after (by simp [htrace])) e (by simp)
  refine ⟨?_, fun before claimId fencingToken answer after h => hgate before _ after h,
    fun before action scope answer after h => hgate before _ after h, hstops, ?_, ?_⟩
  · rcases List.eq_nil_or_concat trace with rfl | ⟨front, last, rfl⟩
    · simp
    have hfront : front.countP isCompletion = 0 := by
      refine List.countP_eq_zero.mpr fun e he => ?_
      obtain ⟨before, after, rfl⟩ := List.append_of_mem he
      have hcont : Continues e := hstops before e (after ++ [last]) (by simp) (by simp)
      simp [isCompletion_eq_false_of_continues hcont]
    rw [List.concat_eq_append, List.countP_append, hfront, Nat.zero_add]
    exact List.countP_le_length
  · rintro c next rfl
    exact hrest.1
  · rintro result rfl
    exact hrest

/-- A route to the request of `longLocation`. -/
def exampleRoute : EligibleRoute := ⟨"r".toList, "q".toList, "s".toList, "pf2e".toList, 0⟩

/-- The claim on `exampleRoute`. -/
def exampleClaim : WorkClaim :=
  ⟨"c".toList, "r".toList, "pf2e".toList, "w".toList, 3, "active".toList, 0, 60⟩

/-- The request to parse `longLocation`. -/
def exampleRequest : RoutedRequest :=
  ⟨"q".toList, "librarian".toList, parseAction, (longLocation.scopeParts .reference).text,
    "a".toList, "p".toList, 0⟩

/-- The first parse of `longLocation`. -/
def exampleOutcome : ParseOutcome := ⟨longLocation, [parseBlock .ascii 7 "x".toList], false⟩

/-- A pass that submits one candidate and completes its claim is gated. -/
theorem completionGated_example :
    CompletionGated .reference cargoParserVersion 60
      (opening 60 exampleRoute [] exampleClaim exampleRequest ++
        performing .reference cargoParserVersion longLocation exampleOutcome
          exampleOutcome.candidates ++
        [⟨.completeClaim "c".toList 3, .ok (.completed exampleClaim)⟩])
      (.ret (.ok (.completed "r".toList (.parsed 1 false)))) := by
  refine workOnce_completionGated ?_ ?_
  · refine .step _ (.step _ (.step _ ?_))
    dsimp only
    rw [show exampleRequest.action = parseAction from rfl, dispatch, if_pos rfl,
      show parseInputScope .reference exampleRequest.scope = .ok longLocation from
        parseInputScope_longLocation.2]
    exact .step _ (.step _ (.step _ (.refl _)))
  · simp [opening, performing, exampleOutcome, accepted, SubmitAnswered]

end Pf2eParser
