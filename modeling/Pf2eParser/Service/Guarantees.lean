import Pf2eParser.Service.Start

/-!
# What the process guarantees

The contract of the process, read as guarantees about the messages on the wire.  They hold behind
every history that the process can get to, from its start and through any number of rounds, whatever
the kernel, the database, the clock and the network answer.
-/

namespace Pf2eParser

open Text Interaction

variable (E : Externals) (J : KernelJson) (parserVersion : Str)

/-! ## Completions and submissions -/

/-- The exchanges that open a route: the kernel has listed it first, has granted the claim on it,
and has told the request behind it. -/
def RouteOpened (leaseSeconds : Int64) (claim : WorkClaim) (request : RoutedRequest)
    (events : List ServiceEvent) : Prop :=
  ∃ listed claimed told : SignedRequest, ∃ listedBody claimedBody toldBody route routes,
    events = [⟨.send listed, .ok ⟨200, listedBody⟩⟩, ⟨.send claimed, .ok ⟨201, claimedBody⟩⟩,
      ⟨.send told, .ok ⟨200, toldBody⟩⟩] ∧
    listed.IsFor J .eligibleRoutes ∧
    J.eligibleRoutes listedBody = .ok (route :: routes) ∧
    claimed.IsFor J (.proposeClaim route.routeId leaseSeconds) ∧
    J.workClaim claimedBody = .ok claim ∧
    told.IsFor J (.routedRequest route.routeId) ∧
    J.routedRequest toldBody = .ok request

/-- The exchange in which the kernel has accepted the submission of a candidate. -/
def Admitted (source : SourceReference) (candidate : Candidate) (e : ServiceEvent) : Prop :=
  ∃ signed : SignedRequest, ∃ body, e = ⟨.send signed, .ok ⟨201, body⟩⟩ ∧
    signed.IsFor J (.submitRequest admitAction (admitScopeFor E parserVersion source candidate))

/-- The exchanges that perform a request as far as the candidates in `done`: the repository has
answered the parse of its source, and the kernel has accepted these candidates one by one. -/
def PerformedUpTo (request : RoutedRequest) (outcome : ParseOutcome) (done : List Candidate)
    (events : List ServiceEvent) : Prop :=
  ∃ source submissions, request.action = parseAction ∧
    parseInputScope E request.scope = .ok source ∧
    events = ⟨.parseOnce parserVersion source, .ok outcome⟩ :: submissions ∧
    List.Forall₂ (Admitted E J parserVersion outcome.source) done submissions

variable {E J parserVersion} {leaseSeconds : Int64} {claim : WorkClaim}
  {parts : List (List ServiceEvent)}

/-- What the opening of a pass stands for. -/
theorem routeOpened_of_spoken {route : EligibleRoute} {routes : List EligibleRoute}
    {request : RoutedRequest} {rest : List PassEvent}
    (h : List.Forall₂ (Spoken J) (opening leaseSeconds route routes claim request ++ rest) parts) :
    ∃ events restParts, RouteOpened J leaseSeconds claim request events ∧
      List.Forall₂ (Spoken J) rest restParts ∧ parts.flatten = events ++ restParts.flatten := by
  obtain ⟨listed, others, hlisted, hothers, rfl⟩ := List.forall₂_cons_left_iff.mp h
  obtain ⟨claimed, more, hclaimed, hmore, rfl⟩ := List.forall₂_cons_left_iff.mp hothers
  obtain ⟨told, later, htold, hrest, rfl⟩ := List.forall₂_cons_left_iff.mp hmore
  obtain ⟨listed, listedResponse, hlist, rfl, hroutes⟩ := Exchanged.ok hlisted
  obtain ⟨claimed, claimedResponse, hpropose, rfl, hclaim⟩ := Exchanged.ok hclaimed
  obtain ⟨told, toldResponse, hask, rfl, hrequest⟩ := Exchanged.ok htold
  obtain ⟨listedStatus, listedBody⟩ := listedResponse
  obtain ⟨claimedStatus, claimedBody⟩ := claimedResponse
  obtain ⟨toldStatus, toldBody⟩ := toldResponse
  obtain ⟨rfl, hroutes⟩ := readOnly_eq_ok_iff.mp hroutes
  obtain ⟨rfl, hclaim⟩ := parseClaimResponse_claimed hclaim
  obtain ⟨rfl, hrequest⟩ := parseRoutedRequestResponse_found hrequest
  exact ⟨_, later, ⟨listed, claimed, told, listedBody, claimedBody, toldBody, route, routes, rfl,
    hlist, hroutes, hpropose, hclaim, hask, hrequest⟩, hrest, rfl⟩

/-- What accepted submissions stand for. -/
theorem admitted_of_spoken {source : SourceReference} {done : List Candidate}
    (h : List.Forall₂ (Spoken J) (done.map (accepted E parserVersion source)) parts) :
    List.Forall₂ (Admitted E J parserVersion source) done parts.flatten := by
  induction done generalizing parts with
  | nil =>
    obtain rfl := List.forall₂_nil_left_iff.mp h
    exact .nil
  | cons candidate done ih =>
    obtain ⟨events, later, hevents, hlater, rfl⟩ := List.forall₂_cons_left_iff.mp h
    obtain ⟨signed, ⟨status, body⟩, hfor, rfl, hread⟩ := Exchanged.ok hevents
    obtain rfl := submitRequest_response_eq_ok hread
    exact .cons ⟨signed, body, rfl, hfor⟩ (ih hlater)

/-- What a pass stands for that has performed its request as far as some candidates. -/
theorem AtSubmission.spoken {outcome : ParseOutcome} {done : List Candidate}
    {pass : List PassEvent} {history : List ServiceEvent}
    (h : AtSubmission E parserVersion leaseSeconds claim outcome done pass)
    (hpass : EndsWithPass J pass history) :
    ∃ request earlier opened performed, conversation history = earlier ++ (opened ++ performed) ∧
      RouteOpened J leaseSeconds claim request opened ∧
      PerformedUpTo E J parserVersion request outcome done performed := by
  obtain ⟨route, routes, request, source, haction, hscope, rfl⟩ := h
  obtain ⟨earlier, parts, hparts, hhistory⟩ := hpass
  obtain ⟨opened, performing, hopened, hperforming, hflatten⟩ := routeOpened_of_spoken hparts
  obtain ⟨parsed, submissions, hparsed, hsubmissions, rfl⟩ :=
    List.forall₂_cons_left_iff.mp hperforming
  obtain rfl : parsed = [⟨.parseOnce parserVersion source, .ok outcome⟩] := hparsed
  exact ⟨request, earlier, opened, _, by rw [hhistory, hflatten]; rfl, hopened,
    source, submissions.flatten, haction, hscope, rfl, admitted_of_spoken hsubmissions⟩

/-- What a pass stands for that has found a request of another action. -/
theorem AtUnknownAction.spoken {pass : List PassEvent} {history : List ServiceEvent}
    (h : AtUnknownAction leaseSeconds claim pass) (hpass : EndsWithPass J pass history) :
    ∃ request earlier opened, conversation history = earlier ++ opened ∧
      RouteOpened J leaseSeconds claim request opened ∧ request.action ≠ parseAction := by
  obtain ⟨route, routes, request, haction, rfl⟩ := h
  obtain ⟨earlier, parts, hparts, hhistory⟩ := hpass
  rw [← List.append_nil (opening leaseSeconds route routes claim request)] at hparts
  obtain ⟨opened, rest, hopened, hrest, hflatten⟩ := routeOpened_of_spoken hparts
  obtain rfl := List.forall₂_nil_left_iff.mp hrest
  exact ⟨request, earlier, opened, by simpa [hflatten] using hhistory, hopened, haction⟩

variable {history : List ServiceEvent} {signed : SignedRequest}

/-- A request that passes the gate is one that may be sent. -/
theorem sendAllowed_of_gate (hW : J.writer.Lawful) {history : List ServiceEvent}
    {signed : SignedRequest} (hgate : processGate E J parserVersion history (.send signed))
    {request : KernelRequest} (hfor : signed.IsFor J request) :
    ∃ authority before, Signed authority signed.message before signed history ∧
      EnvIs "KERNEL_AUTHORITY" (some authority) before ∧
      SendAllowed E J parserVersion authority before request := by
  obtain ⟨authority, request', before, hfor', hsigned, hauthority, hallowed⟩ := hgate
  obtain rfl : request' = request := KernelRequest.message_inj hW hfor' hfor
  exact ⟨authority, before, hsigned, hauthority, hallowed⟩

/-- Preparations are no part of the conversation. -/
theorem Signed.conversation_eq {authority : Str} {message : Message}
    {before : List ServiceEvent} (h : Signed authority message before signed history) :
    conversation history = conversation before := by
  obtain ⟨requestId, sinceEpoch, nonce, -, rfl⟩ := h
  rw [conversation_append]
  exact List.append_nil _

/-- What was started is started when the message is signed. -/
theorem Signed.started {authority : Str} {message : Message} {config : Config}
    {before : List ServiceEvent} (h : Signed authority message before signed history)
    (hstarted : Started E J config before) : Started E J config history := by
  obtain ⟨requestId, sinceEpoch, nonce, -, rfl⟩ := h
  exact hstarted.append _

/-- What stands behind a completion that passes the gate. -/
theorem completion_of_gate (hW : J.writer.Lawful) {claimId : Str} {fencingToken : Int64}
    (hgate : processGate E J parserVersion history (.send signed))
    (hfor : signed.IsFor J (.completeClaim claimId fencingToken)) :
    ∃ config claim request earlier opened performed, Started E J config history ∧
      claimId = claim.claimId ∧ fencingToken = claim.fencingToken ∧
      conversation history = earlier ++ (opened ++ performed) ∧
      RouteOpened J config.leaseSeconds claim request opened ∧
      (request.action ≠ parseAction ∧ performed = [] ∨
        ∃ outcome,
          PerformedUpTo E J parserVersion request outcome outcome.candidates performed) := by
  obtain ⟨authority, before, hsigned, -, config, pass, hstarted, ⟨claim, hid, htoken, hpoint⟩,
    hpass⟩ := sendAllowed_of_gate hW hgate hfor
  rw [hsigned.conversation_eq]
  obtain hunknown | ⟨outcome, hperformed⟩ := hpoint
  · obtain ⟨request, earlier, opened, hconversation, hopened, haction⟩ := hunknown.spoken hpass
    exact ⟨config, claim, request, earlier, opened, [], hsigned.started hstarted, hid, htoken,
      by simpa using hconversation, hopened, Or.inl ⟨haction, rfl⟩⟩
  · obtain ⟨request, earlier, opened, performed, hconversation, hopened, hperformed⟩ :=
      hperformed.spoken hpass
    exact ⟨config, claim, request, earlier, opened, performed, hsigned.started hstarted, hid,
      htoken, hconversation, hopened, Or.inr ⟨outcome, hperformed⟩⟩

/-- What stands behind a submission that passes the gate. -/
theorem submission_of_gate (hW : J.writer.Lawful) {action scope : Str}
    (hgate : processGate E J parserVersion history (.send signed))
    (hfor : signed.IsFor J (.submitRequest action scope)) :
    ∃ config claim request earlier opened performed outcome done candidate remaining,
      Started E J config history ∧ action = admitAction ∧
      scope = admitScopeFor E parserVersion outcome.source candidate ∧
      outcome.candidates = done ++ candidate :: remaining ∧
      conversation history = earlier ++ (opened ++ performed) ∧
      RouteOpened J config.leaseSeconds claim request opened ∧
      PerformedUpTo E J parserVersion request outcome done performed := by
  obtain ⟨authority, before, hsigned, -, config, pass, hstarted, ⟨claim, outcome, done, candidate,
    remaining, hcandidates, haction, hscope, hpoint⟩, hpass⟩ := sendAllowed_of_gate hW hgate hfor
  obtain ⟨request, earlier, opened, performed, hconversation, hopened, hperformed⟩ :=
    hpoint.spoken hpass
  exact ⟨config, claim, request, earlier, opened, performed, outcome, done, candidate, remaining,
    hsigned.started hstarted, haction, hscope, hcandidates,
    hsigned.conversation_eq.trans hconversation, hopened, hperformed⟩

variable {rounds : ℕ} {trace : List ServiceEvent}
  {rest : Service (Except ParserError (Option InstanceLease))}

/-- When the process is about to complete a claim, then the claim was granted in the last exchanges,
and since then the process has done all the work of the route and nothing else: the request is not
one to parse, or the repository has answered its parse and the kernel has accepted every candidate,
each with the status 201 and in order. -/
theorem completion_earned (hW : J.writer.Lawful) {claimId : Str} {fencingToken : Int64}
    (hrun : Runs (main E J parserVersion rounds) trace rest)
    (hpending : rest.pending = some (.send signed))
    (hfor : signed.IsFor J (.completeClaim claimId fencingToken)) :
    ∃ config claim request earlier opened performed, Started E J config trace ∧
      claimId = claim.claimId ∧ fencingToken = claim.fencingToken ∧
      conversation trace = earlier ++ (opened ++ performed) ∧
      RouteOpened J config.leaseSeconds claim request opened ∧
      (request.action ≠ parseAction ∧ performed = [] ∨
        ∃ outcome, PerformedUpTo E J parserVersion request outcome outcome.candidates performed) :=
  completion_of_gate hW (main_gate hrun hpending) hfor

/-- The completion in a first round. -/
theorem completion_earned_exampleRun :
    ∃ config claim request earlier opened performed,
      Started .reference exampleJson config (exampleRun 65).1 ∧ "c".toList = claim.claimId ∧
      3 = claim.fencingToken ∧ conversation (exampleRun 65).1 = earlier ++ (opened ++ performed) ∧
      RouteOpened exampleJson config.leaseSeconds claim request opened ∧
      (request.action ≠ parseAction ∧ performed = [] ∨
        ∃ outcome, PerformedUpTo .reference exampleJson cargoParserVersion request outcome
          outcome.candidates performed) :=
  completion_earned JsonWriter.reference_lawful (runs_exampleRun 65)
    (show (exampleRun 65).2.pending =
        some (.send (exampleSigned (.completeClaim "c".toList 3))) by decide +kernel)
    (isFor_exampleSigned _)

/-- When the process is about to submit a request, then it submits the next candidate of the source
that it has parsed last, for a route that it has claimed, and every candidate before it was accepted
with the status 201. -/
theorem submission_earned (hW : J.writer.Lawful) {action scope : Str}
    (hrun : Runs (main E J parserVersion rounds) trace rest)
    (hpending : rest.pending = some (.send signed))
    (hfor : signed.IsFor J (.submitRequest action scope)) :
    ∃ config claim request earlier opened performed outcome done candidate remaining,
      Started E J config trace ∧ action = admitAction ∧
      scope = admitScopeFor E parserVersion outcome.source candidate ∧
      outcome.candidates = done ++ candidate :: remaining ∧
      conversation trace = earlier ++ (opened ++ performed) ∧
      RouteOpened J config.leaseSeconds claim request opened ∧
      PerformedUpTo E J parserVersion request outcome done performed :=
  submission_of_gate hW (main_gate hrun hpending) hfor

/-- A source with two candidates. -/
def twoCandidates : ParseOutcome :=
  ⟨longLocation, [parseBlock .ascii 7 "x".toList, parseBlock .ascii 8 "y".toList], false⟩

/-- A first round with this source. -/
def twoCandidatesOracle : ∀ c : ServiceCall, c.Answer
  | .parseOnce _ _ => .ok twoCandidates
  | c => exampleOracle c

/-- The round, cut behind some calls. -/
def twoCandidatesRun (calls : ℕ) :
    List ServiceEvent × Service (Except ParserError (Option InstanceLease)) :=
  (main .reference exampleJson cargoParserVersion 1).follow twoCandidatesOracle calls

/-- The submission of the second candidate. -/
theorem submission_earned_twoCandidates :
    ∃ config claim request earlier opened performed outcome done candidate remaining,
      Started .reference exampleJson config (twoCandidatesRun 65).1 ∧ admitAction = admitAction ∧
      admitScopeFor .reference cargoParserVersion longLocation (parseBlock .ascii 8 "y".toList) =
        admitScopeFor .reference cargoParserVersion outcome.source candidate ∧
      outcome.candidates = done ++ candidate :: remaining ∧
      conversation (twoCandidatesRun 65).1 = earlier ++ (opened ++ performed) ∧
      RouteOpened exampleJson config.leaseSeconds claim request opened ∧
      PerformedUpTo .reference exampleJson cargoParserVersion request outcome done performed :=
  submission_earned JsonWriter.reference_lawful (runs_follow twoCandidatesOracle 65 _)
    (show (twoCandidatesRun 65).2.pending = some (.send (exampleSigned
        (.submitRequest admitAction (admitScopeFor .reference cargoParserVersion longLocation
          (parseBlock .ascii 8 "y".toList))))) by decide +kernel)
    (isFor_exampleSigned _)

end Pf2eParser
