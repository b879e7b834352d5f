import Pf2eParser.Service.Guarantees

/-!
# Deliveries

The guarantees of the process say what it never does.  This module says what it does if nobody
fails: it starts, and every round delivers one route.  The kernel lists a route and grants the claim
on it, the request behind it is one to parse, the repository answers, the kernel accepts every
candidate, and the claim is completed.

What nobody failing means is said call by call (`Cooperates`), and for the kernel request by request
(`Served`).  Under this assumption every part of the process succeeds.  `routes_delivered` puts the
parts together for any environment, which may know all that has happened: the process recovers from
whatever has gone wrong in earlier rounds.
-/

namespace Pf2eParser

open Text Interaction Codec

variable (E : Externals) (J : KernelJson) (parserVersion : Str)

/-! ## Cooperation -/

/-- The kernel serves a request.  A renewal may fail. -/
def Served : KernelRequest → Response → Prop
  | .eligibleRoutes, response =>
    ∃ route routes, parseEligibleRoutes J response = .ok (route :: routes)
  | .proposeClaim _ _, response => ∃ claim, parseClaimResponse J response = .ok (.claimed claim)
  | .routedRequest _, response => ∃ request source,
      parseRoutedRequestResponse J response = .ok (.found request) ∧
        request.action = parseAction ∧ parseInputScope E request.scope = .ok source
  | .completeClaim _ _, response =>
    ∃ claim, parseCompleteResponse J response = .ok (.completed claim)
  | .submitRequest _ _, response => response.status = 201
  | .renewLease _, _ => True
  | .activeSubscriptions, response =>
    ∃ subscriptions, parseSubscriptionList J response = .ok subscriptions
  | .createSubscription _, response =>
    ∃ subscription, parseCreateSubscriptionResponse J response = .ok subscription

/-- A variable of the environment has the value that the start needs. -/
def Provides (name : Str) (value : Option Str) : Prop :=
  (name = "KERNEL_AUTHORITY".toList → ∃ authority, value = some authority) ∧
    (name = "PARSER_SERVICE_ID".toList →
      ∃ text serviceId, value = some text ∧ E.uuid.parse text = some serviceId) ∧
    (name = "ENROLLMENT_CHALLENGE".toList → ∀ injected, value = some injected →
      ∃ challenge, decodeChallenge E injected = .ok challenge) ∧
    (name = "PF2E_PARSER_DATABASE_URL".toList → ∃ url, value = some url ∧ trim url ≠ [])

/-- The call is answered without a failure. -/
def Cooperates : ServiceEvent → Prop
  | ⟨.envVar name, value⟩ => Provides E name value
  | ⟨.readFile _, answer⟩ => ∃ pem, answer = .ok pem
  | ⟨.readFileToString _, answer⟩ => ∃ text, answer = .ok text
  | ⟨.clock, _⟩ | ⟨.sleep _, _⟩ | ⟨.newUuid, _⟩ | ⟨.recordSuccess _, _⟩ => True
  | ⟨.newClient _, answer⟩ => answer = .ok ()
  | ⟨.requestEnrollmentChallenge _ _ _, answer⟩ => ∃ challenge, answer = .ok challenge
  | ⟨.signEnrollment _, answer⟩ => answer = .ok ()
  | ⟨.submitEnrollment _ _, answer⟩ => ∃ enrolled, answer = .ok enrolled
  | ⟨.newRequestParts _, answer⟩ => answer = .ok ()
  | ⟨.generateNonce, answer⟩ => ∃ nonce, answer = .ok nonce
  | ⟨.signRequest _, answer⟩ => answer = .ok ()
  | ⟨.send signed, answer⟩ => ∀ request : KernelRequest, signed.IsFor J request →
      ∃ response, answer = .ok response ∧ Served E J request response
  | ⟨.parsePostgresUrl _, answer⟩ => answer = .ok ()
  | ⟨.newPool _, answer⟩ => answer = .ok ()
  | ⟨.getConnection, answer⟩ => answer = .ok ()
  | ⟨.simpleQuery _, answer⟩ => answer = .ok ()
  | ⟨.batchExecuteInit, answer⟩ => answer = .ok ()
  | ⟨.parseOnce _ _, answer⟩ => ∃ outcome, answer = .ok outcome

/-- Any call is allowed, and none fails. -/
def cooperation : Contract ServiceCall.Answer := ⟨Cooperates E J, fun _ _ => True⟩

variable {E J parserVersion} {authority : Str} {h₀ : List ServiceEvent}

/-- A request is served, and its answer is read. -/
theorem ask_served {α : Type} (hwriter : J.writer.Serializes) (request : KernelRequest)
    (read : Response → Except ParserError α) :
    (ask J authority request read).Meets (cooperation E J) (fun h result =>
      ∃ signed : SignedRequest, ∃ response, signed.IsFor J request ∧
        Served E J request response ∧ result = read response ∧
        conversation h = conversation h₀ ++ [⟨.send signed, .ok response⟩]) h₀ := by
  obtain ⟨body, hbody⟩ := hwriter.body request
  unfold ask
  rw [hbody]
  refine ⟨trivial, fun requestId _ => ⟨trivial, fun sinceEpoch _ => ⟨trivial, ?_⟩⟩⟩
  rintro _ rfl
  refine ⟨trivial, ?_⟩
  rintro _ ⟨nonce, rfl⟩
  refine ⟨trivial, ?_⟩
  rintro _ rfl
  have hfor : SignedRequest.IsFor J ⟨⟨request.method, authority, request.pathAndQuery,
      applicationJson, body, requestId⟩, unixTime sinceEpoch,
      unixTime sinceEpoch + signatureValiditySeconds, nonce⟩ request := by
    unfold SignedRequest.IsFor KernelRequest.message
    rw [hbody]
    rfl
  refine ⟨trivial, fun answer hanswer => ?_⟩
  obtain ⟨response, rfl, hserved⟩ := hanswer request hfor
  exact ⟨_, response, hfor, hserved, rfl, by simp [conversation, ServiceCall.isExchange]⟩

/-- A request is served, and so is what is read of the answer. -/
theorem ask_succeeds {α : Type} (hwriter : J.writer.Serializes) (request : KernelRequest)
    {read : Response → Except ParserError α}
    (hread : ∀ response, Served E J request response → ∃ a, read response = .ok a) :
    (ask J authority request read).Meets (cooperation E J) Succeeds h₀ := by
  refine (ask_served hwriter request read).mono ?_
  rintro h result ⟨signed, response, -, hserved, rfl, -⟩
  exact hread response hserved

/-! ## The start

Every part of the start succeeds. -/

theorem requireServiceId_succeeds :
    (requireServiceId E).Meets (cooperation E J) Succeeds h₀ := by
  refine ⟨trivial, ?_⟩
  rintro value ⟨-, hserviceId, -⟩
  obtain ⟨text, serviceId, rfl, hparse⟩ := hserviceId rfl
  dsimp only [Prog.bind]
  rw [hparse]
  exact ⟨serviceId, rfl⟩

theorem newClient_succeeds (extraRootCertificate : Option (List UInt8)) :
    (newClient extraRootCertificate).Meets (cooperation E J) Succeeds h₀ := by
  refine ⟨trivial, ?_⟩
  rintro _ rfl
  exact ⟨(), rfl⟩

theorem buildClient_succeeds : buildClient.Meets (cooperation E J) Succeeds h₀ := by
  refine ⟨trivial, fun path _ => ?_⟩
  cases path with
  | none => exact newClient_succeeds none
  | some path =>
    refine ⟨trivial, ?_⟩
    rintro _ ⟨pem, rfl⟩
    exact newClient_succeeds (some pem)

theorem readWorkloadToken_succeeds :
    readWorkloadToken.Meets (cooperation E J) Succeeds h₀ := by
  refine ⟨trivial, fun path _ => ⟨trivial, ?_⟩⟩
  rintro _ ⟨text, rfl⟩
  exact ⟨trim text, rfl⟩

theorem obtainChallenge_succeeds (podUid workloadToken : Str) :
    (obtainChallenge E authority podUid workloadToken).Meets (cooperation E J) Succeeds h₀ := by
  refine ⟨trivial, ?_⟩
  rintro value ⟨-, -, hinjected, -⟩
  cases value with
  | some injected => exact hinjected rfl injected rfl
  | none =>
    refine ⟨trivial, ?_⟩
    rintro _ ⟨challenge, rfl⟩
    exact ⟨challenge, rfl⟩

theorem enroll_succeeds (submission : EnrollmentSubmission) :
    (KernelClient.enroll authority submission).Meets (cooperation E J) Succeeds h₀ := by
  refine ⟨trivial, ?_⟩
  rintro _ rfl
  refine ⟨trivial, ?_⟩
  rintro _ ⟨enrolled, rfl⟩
  exact ⟨enrolled, rfl⟩

theorem enrollAs_succeeds (endpoint podUid : Str) :
    (enrollAs E authority endpoint podUid).Meets (cooperation E J) Succeeds h₀ := by
  refine readWorkloadToken_succeeds.andThen_of_succeeds fun h workloadToken => ?_
  refine (obtainChallenge_succeeds podUid workloadToken).andThen_of_succeeds fun h challenge => ?_
  exact (enroll_succeeds _).andThen_of_succeeds fun h enrolled => ⟨_, rfl⟩

theorem enrollIfConfigured_succeeds :
    (enrollIfConfigured E authority).Meets (cooperation E J) Succeeds h₀ := by
  refine ⟨trivial, fun endpoint _ => ⟨trivial, fun podUid _ => ?_⟩⟩
  cases endpoint with
  | none => exact ⟨none, rfl⟩
  | some endpoint =>
    cases podUid with
    | none => exact ⟨none, rfl⟩
    | some podUid =>
      exact (enrollAs_succeeds endpoint podUid).andThen_of_succeeds fun h lease => ⟨_, rfl⟩

theorem ensureSubscription_succeeds (hwriter : J.writer.Serializes) (eventType : Str) :
    (KernelClient.ensureSubscription J authority eventType).Meets (cooperation E J) Succeeds
      h₀ := by
  have hactive : (KernelClient.activeSubscriptions J authority).Meets (cooperation E J) Succeeds
      h₀ := ask_succeeds hwriter .activeSubscriptions fun _ hserved => hserved
  refine hactive.andThen_of_succeeds fun h subscriptions => ?_
  split
  · exact ⟨(), rfl⟩
  · have hcreate : (KernelClient.createSubscription J authority eventType).Meets
        (cooperation E J) Succeeds h :=
      ask_succeeds hwriter (.createSubscription eventType) fun _ hserved => hserved
    exact hcreate.andThen_of_succeeds fun h _ => ⟨(), rfl⟩

theorem ensureSubscriptions_succeeds (hwriter : J.writer.Serializes) (events : List Str) :
    (ensureSubscriptions J authority events).Meets (cooperation E J) Succeeds h₀ := by
  induction events generalizing h₀ with
  | nil => exact ⟨(), rfl⟩
  | cons event events ih =>
    exact (ensureSubscription_succeeds hwriter event).andThen_of_succeeds fun h _ => ih

theorem connect_succeeds (url : Str) :
    (Database.connect url).Meets (cooperation E J) Succeeds h₀ := by
  refine ⟨trivial, ?_⟩
  rintro _ rfl
  refine ⟨trivial, ?_⟩
  rintro _ rfl
  have hcheck : ∀ h, Database.checkConnection.Meets (cooperation E J) Succeeds h := by
    refine fun h => ⟨trivial, ?_⟩
    rintro _ rfl
    refine ⟨trivial, ?_⟩
    rintro _ rfl
    exact ⟨(), rfl⟩
  refine (hcheck _).andThen_of_succeeds fun h _ => ⟨trivial, ?_⟩
  rintro _ rfl
  refine ⟨trivial, ?_⟩
  rintro _ rfl
  exact ⟨(), rfl⟩

theorem connectDatabase_succeeds :
    connectDatabase.Meets (cooperation E J) Succeeds h₀ := by
  have hconnect : Database.connectFromEnv.Meets (cooperation E J) Succeeds h₀ := by
    refine ⟨trivial, ?_⟩
    rintro value ⟨-, -, -, hurl⟩
    obtain ⟨url, rfl, hne⟩ := hurl rfl
    dsimp only
    rw [if_neg hne]
    exact connect_succeeds url
  refine hconnect.bind ?_
  rintro h _ ⟨_, rfl⟩
  exact ⟨(), rfl⟩

/-- If nobody fails, the process starts. -/
theorem fromEnv_succeeds (hwriter : J.writer.Serializes) :
    (Config.fromEnv E J).Meets (cooperation E J) Succeeds h₀ := by
  have hauthority : (requireVar "KERNEL_AUTHORITY").Meets (cooperation E J) Succeeds h₀ := by
    refine ⟨trivial, ?_⟩
    rintro value ⟨hauthority, -⟩
    obtain ⟨authority, rfl⟩ := hauthority rfl
    exact ⟨authority, rfl⟩
  refine hauthority.andThen_of_succeeds fun h authority => ?_
  refine requireServiceId_succeeds.andThen_of_succeeds fun h _ => ?_
  refine ⟨trivial, fun lease _ => ⟨trivial, fun interval _ => ?_⟩⟩
  have hconnect : ∀ h, (connectAll E J authority).Meets (cooperation E J) Succeeds h := by
    intro h
    refine buildClient_succeeds.andThen_of_succeeds fun h _ => ?_
    refine enrollIfConfigured_succeeds.andThen_of_succeeds fun h instanceLease => ?_
    refine (ensureSubscriptions_succeeds hwriter actions).andThen_of_succeeds fun h _ => ?_
    exact connectDatabase_succeeds.andThen_of_succeeds fun h _ => ⟨instanceLease, rfl⟩
  exact (hconnect _).andThen_of_succeeds fun h instanceLease => ⟨_, rfl⟩

/-! ## A work pass -/

variable (E) in
/-- The event of a work pass is a success, and there is work to do. -/
def GoesWell : PassEvent → Prop
  | ⟨.eligibleRoutes, answer⟩ => ∃ route routes, answer = .ok (route :: routes)
  | ⟨.proposeClaim _ _, answer⟩ => ∃ claim, answer = .ok (.claimed claim)
  | ⟨.routedRequest _, answer⟩ => ∃ request source, answer = .ok (.found request) ∧
      request.action = parseAction ∧ parseInputScope E request.scope = .ok source
  | ⟨.completeClaim _ _, answer⟩ => ∃ claim, answer = .ok (.completed claim)
  | ⟨.submitRequest _ _, answer⟩ => answer = .ok ()
  | ⟨.parseOnce _ _, answer⟩ => ∃ outcome, answer = .ok outcome

/-- All candidates are submitted. -/
theorem submitCandidates_goesWell (source : SourceReference) (candidates : List Candidate)
    {before : List PassEvent} :
    (submitCandidates E parserVersion source candidates).Meets ⟨GoesWell E, fun _ _ => True⟩
      (fun pass result => pass = before ++ candidates.map (accepted E parserVersion source) ∧
        result = .ok ()) before := by
  induction candidates generalizing before with
  | nil => exact ⟨(List.append_nil _).symm, rfl⟩
  | cons candidate rest ih =>
    refine ⟨trivial, ?_⟩
    rintro _ rfl
    refine ih.mono ?_
    rintro pass result ⟨rfl, hresult⟩
    exact ⟨by rw [List.map_cons, List.append_assoc]; rfl, hresult⟩

/-- A request to parse is performed. -/
theorem dispatch_goesWell {request : RoutedRequest} {source : SourceReference}
    {before : List PassEvent} (haction : request.action = parseAction)
    (hscope : parseInputScope E request.scope = .ok source) :
    (dispatch E parserVersion request.action request.scope).Meets ⟨GoesWell E, fun _ _ => True⟩
      (fun pass result => ∃ outcome : ParseOutcome,
        pass = before ++ performing E parserVersion source outcome outcome.candidates ∧
          ∃ dispatched, result = .ok dispatched) before := by
  rw [dispatch, if_pos haction, hscope]
  refine ⟨trivial, ?_⟩
  rintro _ ⟨outcome, rfl⟩
  refine (submitCandidates_goesWell outcome.source outcome.candidates).bind ?_
  rintro pass _ ⟨rfl, rfl⟩
  exact ⟨outcome, by rw [List.append_assoc]; rfl, _, rfl⟩

/-- The events of a work pass that delivers a route. -/
def DeliveringPass (E : Externals) (parserVersion : Str) (leaseSeconds : Int64)
    (pass : List PassEvent) : Prop :=
  ∃ route routes claim request source, ∃ outcome : ParseOutcome, ∃ completed : WorkClaim,
    request.action = parseAction ∧ parseInputScope E request.scope = .ok source ∧
      pass = opening leaseSeconds route routes claim request ++
        (performing E parserVersion source outcome outcome.candidates ++
          [⟨.completeClaim claim.claimId claim.fencingToken, .ok (.completed completed)⟩])

/-- A pass delivers a route. -/
theorem workOnce_goesWell (leaseSeconds : Int64) :
    (workOnce E parserVersion leaseSeconds).Meets ⟨GoesWell E, fun _ _ => True⟩
      (fun pass result => DeliveringPass E parserVersion leaseSeconds pass ∧
        ∃ outcome, result = .ok outcome) [] := by
  refine ⟨trivial, ?_⟩
  rintro _ ⟨route, routes, rfl⟩
  refine ⟨trivial, ?_⟩
  rintro _ ⟨claim, rfl⟩
  refine ⟨trivial, ?_⟩
  rintro _ ⟨request, source, rfl, haction, hscope⟩
  refine (dispatch_goesWell haction hscope).bind ?_
  rintro pass _ ⟨outcome, rfl, dispatched, rfl⟩
  refine ⟨trivial, ?_⟩
  rintro _ ⟨completed, rfl⟩
  exact ⟨⟨route, routes, claim, request, source, outcome, completed, haction, hscope,
    List.append_assoc _ _ _⟩, _, rfl⟩

/-- What is asked in a work pass goes well if it is served. -/
theorem ask_goesWell {α : Type} (hwriter : J.writer.Serializes) {request : KernelRequest}
    {read : Response → Except ParserError α} (event : Except ParserError α → PassEvent)
    (hspoken : ∀ answer events, Exchanged J request read answer events →
      Spoken J (event answer) events)
    (hserved : ∀ response, Served E J request response → GoesWell E (event (read response))) :
    (ask J authority request read).Meets (cooperation E J) (fun h answer =>
      GoesWell E (event answer) ∧ ∃ events, Spoken J (event answer) events ∧
        conversation h = conversation h₀ ++ events) h₀ := by
  refine (ask_served hwriter request read).mono ?_
  rintro h _ ⟨signed, response, hfor, hresponse, rfl, hconversation⟩
  exact ⟨hserved response hresponse, _, hspoken _ _ (.answered signed response hfor),
    hconversation⟩

/-- What the kernel port answers to a work pass goes well. -/
theorem kernelPort_goesWell (hwriter : J.writer.Serializes) (c : PortCall) :
    (kernelPort J authority c).Meets (cooperation E J) (fun h answer => GoesWell E ⟨c, answer⟩ ∧
      ∃ events, Spoken J ⟨c, answer⟩ events ∧ conversation h = conversation h₀ ++ events) h₀ := by
  cases c with
  | eligibleRoutes =>
    exact ask_goesWell hwriter (fun answer => ⟨.eligibleRoutes, answer⟩) (fun _ _ => id) fun _ => id
  | proposeClaim routeId leaseSeconds =>
    exact ask_goesWell hwriter (fun answer => ⟨.proposeClaim routeId leaseSeconds, answer⟩)
      (fun _ _ => id) fun _ => id
  | routedRequest routeId =>
    exact ask_goesWell hwriter (fun answer => ⟨.routedRequest routeId, answer⟩) (fun _ _ => id)
      fun _ => id
  | completeClaim claimId fencingToken =>
    exact ask_goesWell hwriter (fun answer => ⟨.completeClaim claimId fencingToken, answer⟩)
      (fun _ _ => id) fun _ => id
  | submitRequest action scope =>
    exact ask_goesWell hwriter (fun answer => ⟨.submitRequest action scope, answer⟩) (fun _ _ => id)
      fun _ hstatus => if_pos hstatus
  | parseOnce version source =>
    refine ⟨trivial, fun answer hanswer => ⟨hanswer, _, rfl, ?_⟩⟩
    simp [conversation, ServiceCall.isExchange]

/-! ## Deliveries -/

/-- The exchanges that deliver a route: they open it, they perform its request, and the kernel has
completed the claim. -/
def Delivery (E : Externals) (J : KernelJson) (parserVersion : Str) (leaseSeconds : Int64)
    (events : List ServiceEvent) : Prop :=
  ∃ claim request opened performed, ∃ outcome : ParseOutcome, ∃ signed : SignedRequest,
    ∃ body completed, events = opened ++ (performed ++ [⟨.send signed, .ok ⟨200, body⟩⟩]) ∧
      RouteOpened J leaseSeconds claim request opened ∧
      PerformedUpTo E J parserVersion request outcome outcome.candidates performed ∧
      signed.IsFor J (.completeClaim claim.claimId claim.fencingToken) ∧
      J.workClaim body = .ok completed

/-- What belongs to one list behind another falls into two parts. -/
theorem forall₂_append_cases {α β : Type} {R : α → β → Prop} {l₁ l₂ : List α} {parts : List β}
    (h : List.Forall₂ R (l₁ ++ l₂) parts) :
    ∃ parts₁ parts₂, parts = parts₁ ++ parts₂ ∧ List.Forall₂ R l₁ parts₁ ∧
      List.Forall₂ R l₂ parts₂ :=
  ⟨_, _, (List.take_append_drop l₁.length parts).symm,
    (List.forall₂_take_append _ _ _ h.flip).flip, (List.forall₂_drop_append _ _ _ h.flip).flip⟩

/-- What a pass stands for that delivers a route. -/
theorem DeliveringPass.spoken {leaseSeconds : Int64} {pass : List PassEvent}
    {parts : List (List ServiceEvent)} (h : DeliveringPass E parserVersion leaseSeconds pass)
    (hparts : List.Forall₂ (Spoken J) pass parts) :
    Delivery E J parserVersion leaseSeconds parts.flatten := by
  obtain ⟨route, routes, claim, request, source, outcome, completed, haction, hscope, rfl⟩ := h
  obtain ⟨opened, others, hopened, hothers, hflatten⟩ := routeOpened_of_spoken hparts
  obtain ⟨performing, completing, rfl, hperforming, hcompleting⟩ := forall₂_append_cases hothers
  obtain ⟨parsed, submissions, hparsed, hsubmissions, rfl⟩ :=
    List.forall₂_cons_left_iff.mp hperforming
  obtain rfl : parsed = [⟨.parseOnce parserVersion source, .ok outcome⟩] := hparsed
  obtain ⟨last, none, hlast, hnone, rfl⟩ := List.forall₂_cons_left_iff.mp hcompleting
  obtain rfl := List.forall₂_nil_left_iff.mp hnone
  obtain ⟨signed, ⟨status, body⟩, hfor, rfl, hread⟩ := Exchanged.ok hlast
  obtain ⟨rfl, hbody⟩ := parseCompleteResponse_completed hread
  refine ⟨claim, request, opened, _, outcome, signed, body, completed, ?_, hopened,
    ⟨source, submissions.flatten, haction, hscope, rfl, admitted_of_spoken hsubmissions⟩,
    hfor, hbody⟩
  rw [hflatten]
  simp

/-- The pass of a round makes a delivery. -/
theorem workPass_delivers (hwriter : J.writer.Serializes) (leaseSeconds : Int64) :
    ((workOnce E parserVersion leaseSeconds).interpret (kernelPort J authority)).Meets
      (cooperation E J) (fun h result => (∃ outcome, result = .ok outcome) ∧
        ∃ delivery, Delivery E J parserVersion leaseSeconds delivery ∧
          conversation h = conversation h₀ ++ delivery) h₀ := by
  refine ((workOnce_goesWell leaseSeconds).interpret (R := fun pass h => ∃ parts,
    List.Forall₂ (Spoken J) pass parts ∧ conversation h = conversation h₀ ++ parts.flatten)
    ⟨[], .nil, by simp⟩ ?_).mono ?_
  · rintro pass h c ⟨parts, hparts, hh⟩ -
    refine (kernelPort_goesWell hwriter c).mono ?_
    rintro h' answer ⟨hanswer, events, hevents, hh'⟩
    exact ⟨hanswer, parts ++ [events], List.rel_append hparts (.cons hevents .nil),
      by simp [hh', hh]⟩
  · rintro h result ⟨pass, ⟨parts, hparts, hh⟩, hpass, hresult⟩
    exact ⟨hresult, _, hpass.spoken hparts, hh⟩

variable (J) in
/-- The exchange of a renewal, if there is any. -/
def Renewed (events : List ServiceEvent) : Prop :=
  events = [] ∨ ∃ signed : SignedRequest, ∃ expectedRevision response,
    signed.IsFor J (.renewLease expectedRevision) ∧
      events = [⟨.send signed, .ok response⟩]

/-- The call of a round before its pass asks for nothing but a renewal. -/
theorem renewLeaseIfDue_renewed (hwriter : J.writer.Serializes) (lease : Option InstanceLease) :
    ((renewLeaseIfDue lease).interpret (leasePort J authority)).Meets (cooperation E J)
      (fun h _ => ∃ renewal, Renewed J renewal ∧ conversation h = conversation h₀ ++ renewal)
      h₀ := by
  cases lease with
  | none => exact ⟨[], Or.inl rfl, (List.append_nil _).symm⟩
  | some lease =>
    refine ⟨trivial, fun sinceEpoch _ => ?_⟩
    have hclock : conversation (h₀ ++ [⟨.clock, sinceEpoch⟩]) = conversation h₀ := by
      simp [conversation, ServiceCall.isExchange]
    dsimp only [Prog.bind]
    split
    · exact ⟨[], Or.inl rfl, by rw [hclock, List.append_nil]⟩
    · refine (ask_served hwriter (.renewLease lease.revision) (parseRenewalResponse J)).bind ?_
      rintro h answer ⟨signed, response, hfor, -, -, hh⟩
      have hrenewed : ∃ renewal, Renewed J renewal ∧
          conversation h = conversation h₀ ++ renewal :=
        ⟨_, Or.inr ⟨signed, lease.revision, response, hfor, rfl⟩, by rw [hh, hclock]⟩
      cases answer with
      | ok renewed => exact hrenewed
      | error error => exact hrenewed

/-- A round delivers a route: behind a renewal, if there is any, it makes a delivery and nothing
else, it records its success, and it pauses. -/
def Delivers (E : Externals) (J : KernelJson) (parserVersion : Str) (config : Config)
    (round : List ServiceEvent) : Prop :=
  ∃ before sinceEpoch renewal delivery, round = before ++ [⟨.clock, sinceEpoch⟩,
      ⟨.recordSuccess (nowSeconds sinceEpoch), ()⟩, ⟨.sleep config.pollInterval, ()⟩] ∧
    conversation before = renewal ++ delivery ∧ Renewed J renewal ∧
    Delivery E J parserVersion config.leaseSeconds delivery

/-- If nobody fails, a round delivers a route. -/
theorem runRound_delivers (hwriter : J.writer.Serializes) (config : Config)
    (lease : Option InstanceLease) :
    (runRound E J parserVersion config lease).Meets (cooperation E J)
      (fun h _ => Delivers E J parserVersion config h) [] := by
  refine (renewLeaseIfDue_renewed hwriter lease).bind ?_
  rintro h lease ⟨renewal, hrenewal, hh⟩
  refine (workPass_delivers hwriter config.leaseSeconds).bind ?_
  rintro before _ ⟨⟨outcome, rfl⟩, delivery, hdelivery, hbefore⟩
  refine ⟨trivial, fun sinceEpoch _ => ⟨trivial, fun _ _ => ⟨trivial, fun _ _ => ?_⟩⟩⟩
  refine ⟨before, sinceEpoch, renewal, delivery, by simp, ?_, hrenewal, hdelivery⟩
  rw [hbefore, hh]
  rfl

variable {env : List ServiceEvent → ∀ c : ServiceCall, c.Answer}

/-- What an environment answers to a program that it is running, it answers to one of its calls. -/
theorem cooperates_of_answeredBy {start later : List ServiceEvent} {ρ : Type} {p q : Service ρ}
    (hcooperates : ∀ h c next, Runs p h (.call c next) → Cooperates E J ⟨c, env h c⟩)
    (hruns : Runs p start q) (hanswered : AnsweredBy env [] (start ++ later)) :
    ∀ e ∈ start, Cooperates E J e := by
  intro e he
  obtain ⟨before, after, rfl⟩ := List.append_of_mem he
  rw [List.append_assoc] at hanswered
  obtain ⟨r, hbefore, hrest⟩ := hruns.split
  cases hrest with
  | @step c next a =>
    obtain rfl : a = env before c := hanswered.answer_eq
    exact hcooperates before c next hbefore

/-- If the environment does not fail while the process starts, and if the JSON writer can make every
body, then the process starts, and from then on every round in which nobody fails delivers a route,
whatever has happened in the rounds before it. -/
theorem routes_delivered (hwriter : J.writer.Serializes)
    (hcooperates : ∀ h c next, Runs (Config.fromEnv E J) h (.call c next) →
      Cooperates E J ⟨c, env h c⟩) (rounds : ℕ) :
    ∃ start config health lease trace, ∃ traces : List (List ServiceEvent),
      trace = start ++ ⟨.envVar "HEALTH_ADDRESS".toList, health⟩ :: traces.flatten ∧
      Runs (main E J parserVersion rounds) trace (.ret (.ok lease)) ∧ AnsweredBy env [] trace ∧
      Runs (Config.fromEnv E J) start (.ret (.ok config)) ∧ traces.length = rounds ∧
      ∀ t ∈ traces, (∀ e ∈ t, Cooperates E J e) → Delivers E J parserVersion config t := by
  obtain ⟨trace, result, hruns, hanswered⟩ :=
    (main E J parserVersion rounds).exists_finished env []
  obtain ⟨start, later, started, rfl, hstart, hlater⟩ := Runs.bind_ret hruns
  obtain ⟨config, rfl⟩ : Succeeds ([] ++ start) started :=
    hstart.meets (fromEnv_succeeds hwriter) (cooperates_of_answeredBy hcooperates hstart hanswered)
  cases hlater with
  | @step _ _ health later _ hlater =>
    obtain ⟨looped, ended, lease, rfl, hloop, hend⟩ := Runs.bind_ret hlater
    cases hend
    obtain ⟨traces, hlength, rfl, hiterates⟩ := Runs.iterates hloop
    refine ⟨start, config, health, lease, _, traces, by rw [List.append_nil], hruns, hanswered,
      hstart, hlength, fun t ht hround => ?_⟩
    obtain ⟨lease, lease', hruns⟩ := hiterates.runs_of_mem ht
    exact hruns.meets (runRound_delivers hwriter config lease) hround

/-- A subscription that was created. -/
def exampleSubscriptionBody : Str :=
  writeMembers [("id".toList, writeString "s".toList),
    ("service_id".toList, writeString "pf2e".toList),
    ("event_type".toList, writeString parseAction), ("created_at".toList, displayInt64 0),
    ("disabled_at".toList, "null".toList), ("active".toList, "true".toList)]

/-- The writer and the readers of the first round, with one for this body. -/
def willingJson : KernelJson :=
  { exampleJson with
    subscription := readsAs exampleSubscriptionBody
      ⟨"s".toList, "pf2e".toList, parseAction, 0, none, true⟩ }

/-- A kernel that always has a route and never refuses anything. -/
def willingResponse (message : Message) : Response :=
  match message.kind with
  | (some 'G', some 'o') =>
    if message.pathAndQuery = eligibleRoutesPath then ⟨200, asciiBytes exampleRoutesBody⟩
    else ⟨200, asciiBytes exampleRequestBody⟩
  | (some 'P', some 'o') => ⟨201, asciiBytes exampleClaimBody⟩
  | (some 'P', some 'l') => ⟨200, asciiBytes exampleClaimBody⟩
  | (some 'P', some 'e') => ⟨201, []⟩
  | (some 'P', some 'n') => ⟨200, asciiBytes exampleRenewalBody⟩
  | (some 'G', some 'u') => ⟨200, asciiBytes exampleSubscriptionsBody⟩
  | (some 'P', some 'u') => ⟨201, asciiBytes exampleSubscriptionBody⟩
  | _ => ⟨404, []⟩

/-- The environment of the first round with this kernel. -/
def willingOracle : ∀ c : ServiceCall, c.Answer
  | .readFile _ => .ok []
  | .send signed => .ok (willingResponse signed.message)
  | c => exampleOracle c

/-- A body is read by its reader. -/
theorem readsAs_self {α : Type} (text : Str) (a : α) : readsAs text a (asciiBytes text) = .ok a :=
  if_pos rfl

/-- This kernel serves every request. -/
theorem served_willingResponse {request : KernelRequest} {message : Message}
    (h : request.message .reference = .ok message) :
    Served .reference willingJson request (willingResponse message) := by
  have hscope : parseInputScope .reference exampleRequest.scope = .ok longLocation :=
    parseInputScope_longLocation.2
  have hpath := (KernelRequest.message_eq_ok_iff.mp h).2.1
  rw [willingResponse, KernelRequest.kind_message h, hpath]
  cases request with
  | routedRequest routeId =>
    have hne : (KernelRequest.routedRequest routeId).pathAndQuery ≠ eligibleRoutesPath :=
      (eligibleRoutesPath_ne routeId).symm
    simp only [KernelRequest.kind, if_neg hne]
    refine ⟨exampleRequest, longLocation, ?_, rfl, hscope⟩
    simp [parseRoutedRequestResponse, readBody, willingJson, exampleJson, readsAs_self,
      Except.map]
  | eligibleRoutes =>
    refine ⟨exampleRoute, [], ?_⟩
    simp [KernelRequest.kind, KernelRequest.pathAndQuery, parseEligibleRoutes, readOnly, readBody,
      willingJson, exampleJson, readsAs_self]
  | submitRequest action scope => rfl
  | renewLease expectedRevision => trivial
  | _ =>
    simp [Served, KernelRequest.kind, parseClaimResponse, parseCompleteResponse,
      parseSubscriptionList, parseCreateSubscriptionResponse, readOnly, readBody, willingJson,
      exampleJson, readsAs_self, Except.map]

theorem provides_exampleEnvironment (name : Str) :
    Provides .reference name (exampleEnvironment.lookup name) := by
  refine ⟨?_, ?_, ?_, ?_⟩ <;> rintro rfl
  · exact ⟨_, rfl⟩
  · refine ⟨_, 7, rfl, ?_⟩
    decide +kernel
  · rintro injected hinjected
    cases hinjected
  · refine ⟨_, rfl, ?_⟩
    decide

theorem cooperates_willingOracle (c : ServiceCall) :
    Cooperates .reference willingJson ⟨c, willingOracle c⟩ := by
  cases c with
  | envVar name => exact provides_exampleEnvironment name
  | send signed =>
    intro request hfor
    exact ⟨_, rfl, served_willingResponse hfor⟩
  | clock | sleep | newUuid | recordSuccess => trivial
  | readFile | readFileToString | requestEnrollmentChallenge | submitEnrollment | generateNonce
  | parseOnce => exact ⟨_, rfl⟩
  | _ => rfl

/-- Two rounds with this kernel deliver two routes. -/
theorem routes_delivered_willing :
    ∃ start config health lease trace, ∃ traces : List (List ServiceEvent),
      trace = start ++ ⟨.envVar "HEALTH_ADDRESS".toList, health⟩ :: traces.flatten ∧
      Runs (main .reference willingJson cargoParserVersion 2) trace (.ret (.ok lease)) ∧
      AnsweredBy (fun _ => willingOracle) [] trace ∧
      Runs (Config.fromEnv .reference willingJson) start (.ret (.ok config)) ∧
      traces.length = 2 ∧
      ∀ t ∈ traces, Delivers .reference willingJson cargoParserVersion config t := by
  obtain ⟨start, config, health, lease, trace, traces, htrace, hruns, hanswered, hstart, hlength,
    hdelivers⟩ := @routes_delivered .reference willingJson cargoParserVersion
      (fun _ => willingOracle) JsonWriter.reference_serializes
      (fun _ c _ _ => cooperates_willingOracle c) 2
  refine ⟨start, config, health, lease, trace, traces, htrace, hruns, hanswered, hstart, hlength,
    fun t ht => hdelivers t ht fun e he => ?_⟩
  have hmem : e ∈ trace := by
    rw [htrace]
    exact List.mem_append_right _ (List.mem_cons_of_mem _ (List.mem_flatten_of_mem ht he))
  obtain ⟨before, after, hsplit⟩ := List.append_of_mem hmem
  rw [hsplit] at hanswered
  obtain ⟨c, answer⟩ := e
  obtain rfl : answer = willingOracle c := hanswered.answer_eq
  exact cooperates_willingOracle c

end Pf2eParser
