import Pf2eParser.Service.Histories

/-!
# The contract of the process

`processContract` says behind which histories the process may make which call; nothing is assumed
about any answer.  It is what is worth knowing about the process as a whole:

* a request is signed for itself, and sent with the authority of the environment (`Signed`);
* the process enrolls before it sends a signed request or parses anything (`Untouched`), and it
  enters its loop only when it is enrolled where that is configured, subscribed to its actions, and
  connected to a probed and migrated database (`Started`);
* a renewal asks for the revision that was granted last, within the margin (`RenewalDue`);
* the requests of a work pass and its parse come behind exactly the exchanges that `passGate` wants
  (`PassAllowed`), and a success is recorded behind the exchanges of a pass that returned `Ok`
  (`PassRecorded`).

`main_meets` checks the process against the contract: the start step by step, and the loop with
`LoopInv` as its invariant.
-/

namespace Pf2eParser

open Text Interaction

variable (E : Externals) (J : KernelJson) (parserVersion : Str)

/-! ## The start -/

/-- A variable of the environment was found to have the value. -/
def EnvIs (name : String) (value : Option Str) (h : List ServiceEvent) : Prop :=
  (⟨.envVar name.toList, value⟩ : ServiceEvent) ∈ h

/-- The configuration is the one of the environment. -/
structure Configured (config : Config) (h : List ServiceEvent) : Prop where
  authority : EnvIs "KERNEL_AUTHORITY" (some config.authority) h
  serviceId : ∃ value serviceId, EnvIs "PARSER_SERVICE_ID" (some value) h ∧
    E.uuid.parse value = some serviceId
  leaseSeconds : ∃ value, EnvIs "CLAIM_LEASE_SECONDS" value h ∧
    config.leaseSeconds = (value.bind parseInt64).getD defaultLeaseSeconds
  pollInterval : ∃ value, EnvIs "POLL_INTERVAL_SECONDS" value h ∧
    config.pollInterval = (value.bind parseUInt64).getD defaultPollIntervalSeconds

/-- The challenge was injected by the environment, or issued by the kernel. -/
def ChallengeObtained (authority podUid workloadToken : Str) (challenge : Challenge)
    (h : List ServiceEvent) : Prop :=
  (∃ injected, EnvIs "ENROLLMENT_CHALLENGE" (some injected) h ∧
      decodeChallenge E injected = .ok challenge) ∨
    (⟨.requestEnrollmentChallenge (kernelUrl authority) podUid workloadToken, .ok challenge⟩ :
      ServiceEvent) ∈ h

/-- The enrollment is not configured, or it has succeeded. -/
def Enrolled (authority : Str) (h : List ServiceEvent) : Prop :=
  EnvIs "SERVICE_ENDPOINT" none h ∨ EnvIs "POD_UID" none h ∨
    ∃ endpoint podUid challenge workloadToken enrolled,
      EnvIs "SERVICE_ENDPOINT" (some endpoint) h ∧ EnvIs "POD_UID" (some podUid) h ∧
      ChallengeObtained E authority podUid workloadToken challenge h ∧
      (⟨.submitEnrollment (kernelUrl authority) ⟨challenge, endpoint, podUid, workloadToken⟩,
        .ok enrolled⟩ : ServiceEvent) ∈ h

/-- The kernel has listed a subscription to the action as active, or it has created one. -/
def Subscribed (action : Str) (h : List ServiceEvent) : Prop :=
  (∃ signed : SignedRequest, ∃ response subscriptions,
      (⟨.send signed, .ok response⟩ : ServiceEvent) ∈ h ∧
      signed.IsFor J .activeSubscriptions ∧
      parseSubscriptionList J response = .ok subscriptions ∧
      ∃ subscription ∈ subscriptions, subscription.eventType = action) ∨
    ∃ signed : SignedRequest, ∃ response subscription,
      (⟨.send signed, .ok response⟩ : ServiceEvent) ∈ h ∧
      signed.IsFor J (.createSubscription action) ∧
      parseCreateSubscriptionResponse J response = .ok subscription

/-- The calls that connect to a database, probe it and migrate it. -/
def connection (url : Str) : List ServiceEvent :=
  [⟨.envVar "PF2E_PARSER_DATABASE_URL".toList, some url⟩, ⟨.parsePostgresUrl url, .ok ()⟩,
    ⟨.newPool url, .ok ()⟩, ⟨.getConnection, .ok ()⟩, ⟨.simpleQuery "SELECT 1".toList, .ok ()⟩,
    ⟨.getConnection, .ok ()⟩, ⟨.batchExecuteInit, .ok ()⟩]

/-- The process is connected to its database. -/
def Connected (h : List ServiceEvent) : Prop := ∃ url, trim url ≠ [] ∧ connection url <:+: h

/-- The process has started with the configuration. -/
structure Started (config : Config) (h : List ServiceEvent) : Prop where
  configured : Configured E config h
  enrolled : Enrolled E config.authority h
  subscribed : ∀ action ∈ actions, Subscribed J action h
  connected : Connected h

/-- No signed request was sent, nothing was parsed, and no enrollment was submitted. -/
def Untouched (h : List ServiceEvent) : Prop :=
  ∀ e ∈ h, e.1.isExchange = false ∧ ∀ kernel submission, e.1 ≠ .submitEnrollment kernel submission

/-! ## The loop -/

/-- A renewal is due: the clock has just shown a time in the margin of the lease that was granted
last. -/
def RenewalDue (expectedRevision : Int64) (h : List ServiceEvent) : Prop :=
  ∃ before sinceEpoch lease, h = before ++ [⟨.clock, sinceEpoch⟩] ∧
    grantedLease J before = some lease ∧ expectedRevision = lease.revision ∧
    ¬ unixTime sinceEpoch < lease.expiresAt - renewalMarginSeconds

/-- A work pass may make the call behind what the process has exchanged last. -/
def PassAllowed (c : PortCall) (h : List ServiceEvent) : Prop :=
  ∃ config pass, Started E J config h ∧ passGate E parserVersion config.leaseSeconds pass c ∧
    EndsWithPass J pass h

/-- The time was read behind the exchanges of a work pass that returned `Ok`. -/
def PassRecorded (instant : Int64) (h : List ServiceEvent) : Prop :=
  ∃ config pass outcome before sinceEpoch, Started E J config h ∧
    Runs (workOnce E parserVersion config.leaseSeconds) pass (.ret (.ok outcome)) ∧
    EndsWithPass J pass before ∧ h = before ++ [⟨.clock, sinceEpoch⟩] ∧
    instant = nowSeconds sinceEpoch

/-- A request may be sent with the authority. -/
def SendAllowed (authority : Str) (h : List ServiceEvent) : KernelRequest → Prop
  | .activeSubscriptions => Enrolled E authority h
  | .createSubscription eventType => Enrolled E authority h ∧ eventType ∈ actions
  | .renewLease expectedRevision =>
    (∃ config, Started E J config h) ∧ RenewalDue J expectedRevision h
  | .eligibleRoutes => PassAllowed E J parserVersion .eligibleRoutes h
  | .proposeClaim routeId leaseSeconds =>
    PassAllowed E J parserVersion (.proposeClaim routeId leaseSeconds) h
  | .routedRequest routeId => PassAllowed E J parserVersion (.routedRequest routeId) h
  | .completeClaim claimId fencingToken =>
    PassAllowed E J parserVersion (.completeClaim claimId fencingToken) h
  | .submitRequest action scope => PassAllowed E J parserVersion (.submitRequest action scope) h

/-- The calls that the process may make behind a history. -/
def processGate (h : List ServiceEvent) : ServiceCall → Prop
  | .envVar name => name = "HEALTH_ADDRESS".toList → ∃ config, Started E J config h
  | .submitEnrollment _ _ => Untouched h
  | .newPool _ => ∀ action ∈ actions, Subscribed J action h
  | .send signed => ∃ authority request before, signed.IsFor J request ∧
      Signed authority signed.message before signed h ∧
      EnvIs "KERNEL_AUTHORITY" (some authority) before ∧
      SendAllowed E J parserVersion authority before request
  | .parseOnce version source => PassAllowed E J parserVersion (.parseOnce version source) h
  | .recordSuccess instant => PassRecorded E J parserVersion instant h
  | .sleep seconds => ∃ config, Started E J config h ∧ seconds = config.pollInterval
  | _ => True

/-- The contract of the process: whatever is answered. -/
def processContract : Contract ServiceCall.Answer where
  assumes _ := True
  gate := processGate E J parserVersion

/-- The invariant of the loop: the process has started, and it knows the lease that was granted
last. -/
structure LoopInv (config : Config) (h : List ServiceEvent) (lease : Option InstanceLease) :
    Prop where
  started : Started E J config h
  lease : grantedLease J h = lease

variable {E J parserVersion} {config : Config} {h : List ServiceEvent}

/-! ## What lasts -/

theorem EnvIs.append {name : String} {value : Option Str} (hvalue : EnvIs name value h)
    (events : List ServiceEvent) : EnvIs name value (h ++ events) :=
  List.mem_append_left events hvalue

theorem Configured.append (hconfig : Configured E config h) (events : List ServiceEvent) :
    Configured E config (h ++ events) := by
  obtain ⟨authority, ⟨value, serviceId, hvalue, hparse⟩, ⟨lease, hlease, hseconds⟩,
    interval, hinterval, hpoll⟩ := hconfig
  exact ⟨authority.append _, ⟨value, serviceId, hvalue.append _, hparse⟩,
    ⟨lease, hlease.append _, hseconds⟩, interval, hinterval.append _, hpoll⟩

theorem ChallengeObtained.append {authority podUid workloadToken : Str} {challenge : Challenge}
    (hchallenge : ChallengeObtained E authority podUid workloadToken challenge h)
    (events : List ServiceEvent) :
    ChallengeObtained E authority podUid workloadToken challenge (h ++ events) := by
  obtain ⟨injected, hinjected, hdecode⟩ | hissued := hchallenge
  · exact Or.inl ⟨injected, hinjected.append _, hdecode⟩
  · exact Or.inr (List.mem_append_left _ hissued)

theorem Enrolled.append {authority : Str} (henrolled : Enrolled E authority h)
    (events : List ServiceEvent) : Enrolled E authority (h ++ events) := by
  obtain hnone | hnone | ⟨endpoint, podUid, challenge, workloadToken, enrolled, hendpoint, hpod,
    hchallenge, hsubmit⟩ := henrolled
  · exact Or.inl (hnone.append _)
  · exact Or.inr (Or.inl (hnone.append _))
  · exact Or.inr (Or.inr ⟨endpoint, podUid, challenge, workloadToken, enrolled,
      hendpoint.append _, hpod.append _, hchallenge.append _, List.mem_append_left _ hsubmit⟩)

theorem Subscribed.append {action : Str} (hsubscribed : Subscribed J action h)
    (events : List ServiceEvent) : Subscribed J action (h ++ events) := by
  obtain ⟨signed, response, subscriptions, hmem, hrest⟩ | ⟨signed, response, subscription, hmem,
    hrest⟩ := hsubscribed
  · exact Or.inl ⟨signed, response, subscriptions, List.mem_append_left _ hmem, hrest⟩
  · exact Or.inr ⟨signed, response, subscription, List.mem_append_left _ hmem, hrest⟩

theorem Started.append (hstarted : Started E J config h) (events : List ServiceEvent) :
    Started E J config (h ++ events) where
  configured := hstarted.configured.append _
  enrolled := hstarted.enrolled.append _
  subscribed action haction := (hstarted.subscribed action haction).append _
  connected := by
    obtain ⟨url, hurl, hinfix⟩ := hstarted.connected
    exact ⟨url, hurl, hinfix.trans (List.prefix_append _ _).isInfix⟩

theorem Untouched.concat (huntouched : Untouched h) {e : ServiceEvent}
    (hexchange : e.1.isExchange = false)
    (henroll : ∀ kernel submission, e.1 ≠ .submitEnrollment kernel submission) :
    Untouched (h ++ [e]) := by
  intro e' he'
  rcases List.mem_append.mp he' with he' | he'
  · exact huntouched e' he'
  · rw [List.mem_singleton.mp he']
    exact ⟨hexchange, henroll⟩

/-- An untouched process was granted nothing. -/
theorem Untouched.grantedLease_eq (huntouched : Untouched h) : grantedLease J h = none := by
  have hnone : ∀ e ∈ h, grantedBy J e = none := by
    intro e he
    obtain ⟨hexchange, henroll⟩ := huntouched e he
    obtain ⟨c, a⟩ := e
    cases c with
    | send signed => simp [ServiceCall.isExchange] at hexchange
    | submitEnrollment kernel submission => exact absurd rfl (henroll kernel submission)
    | _ => rfl
  rw [grantedLease, List.filterMap_eq_nil_iff.mpr hnone]
  rfl

/-! ## The rounds -/

/-- Everything that prepares an exchange is allowed everywhere. -/
theorem processGate_quiet (h : List ServiceEvent) (c : ServiceCall) (hquiet : c.isQuiet = true) :
    processGate E J parserVersion h c := by
  cases c <;> trivial

/-- Asking keeps the contract if the request may be sent. -/
theorem ask_meets_process {α : Type} {authority : Str} (request : KernelRequest)
    (read : Response → Except ParserError α)
    (hauthority : EnvIs "KERNEL_AUTHORITY" (some authority) h)
    (hallowed : SendAllowed E J parserVersion authority h request) :
    (ask J authority request read).Meets (processContract E J parserVersion)
      (Asked J h request read) h :=
  ask_meets processGate_quiet fun _ hfor _ hsigned =>
    ⟨authority, request, h, hfor, hsigned, hauthority, hallowed⟩

/-- The invariant lasts as long as nothing is granted. -/
theorem LoopInv.append {lease : Option InstanceLease} (hinv : LoopInv E J config h lease)
    {events : List ServiceEvent} (hnone : ∀ e ∈ events, grantedBy J e = none) :
    LoopInv E J config (h ++ events) lease :=
  ⟨hinv.started.append events, by rw [grantedLease_append hnone, hinv.lease]⟩

/-- What was started stays started behind a request. -/
theorem Asked.started {α : Type} {request : KernelRequest}
    {read : Response → Except ParserError α} {answer : Except ParserError α}
    {h' : List ServiceEvent} (hasked : Asked J h request read h' answer)
    (hstarted : Started E J config h) : Started E J config h' := by
  obtain ⟨quiet, events, -, -, rfl⟩ := hasked
  rw [List.append_assoc]
  exact hstarted.append _

/-- A round begins with the renewal that is due. -/
theorem renewLeaseIfDue_meets {lease : Option InstanceLease} (hinv : LoopInv E J config h lease) :
    ((renewLeaseIfDue lease).interpret (leasePort J config.authority)).Meets
      (processContract E J parserVersion) (LoopInv E J config) h := by
  cases lease with
  | none => exact hinv
  | some lease =>
    refine ⟨trivial, fun sinceEpoch _ => ?_⟩
    have hclock : LoopInv E J config (h ++ [⟨.clock, sinceEpoch⟩]) (some lease) :=
      hinv.append (by simp [grantedBy])
    change Prog.Meets _ _ (Prog.interpret _ (if _ then _ else _)) _
    split
    case isTrue hearly => exact hclock
    case isFalse hdue =>
      have hallowed : SendAllowed E J parserVersion config.authority (h ++ [⟨.clock, sinceEpoch⟩])
          (.renewLease lease.revision) :=
        ⟨⟨config, hclock.started⟩, h, sinceEpoch, lease, rfl, hinv.lease, rfl, hdue⟩
      have hask := ask_meets_process _ (parseRenewalResponse J) hclock.started.configured.authority
        hallowed
      refine hask.bind fun h' answer hasked => ?_
      have hgranted := hasked.grantedLease_renewal hclock.lease
      cases answer with
      | ok renewed => exact ⟨hasked.started hclock.started, hgranted⟩
      | error error => exact ⟨hasked.started hclock.started, hgranted⟩

/-- One call of a work pass that the pass may make. -/
theorem askPass_meets {α : Type} (request : KernelRequest)
    (read : Response → Except ParserError α) (e : Except ParserError α → PassEvent)
    {lease : Option InstanceLease} {pass : List PassEvent} (hinv : LoopInv E J config h lease)
    (hpass : EndsWithPass J pass h)
    (hallowed : SendAllowed E J parserVersion config.authority h request)
    (hrequest : ∀ expectedRevision, request ≠ .renewLease expectedRevision)
    (hspoken : ∀ answer events, Exchanged J request read answer events → Spoken J (e answer) events)
    (hassumed : ∀ answer events, Exchanged J request read answer events →
      SubmitAnswered (e answer)) :
    (ask J config.authority request read).Meets (processContract E J parserVersion)
      (fun h' answer => SubmitAnswered (e answer) ∧ LoopInv E J config h' lease ∧
        EndsWithPass J (pass ++ [e answer]) h') h := by
  refine (ask_meets_process request read hinv.started.configured.authority hallowed).mono
    fun h' answer hasked => ?_
  obtain ⟨events, hevents, hconversation⟩ := hasked.conversation_eq
  exact ⟨hassumed answer events hevents,
    ⟨hasked.started hinv.started, (hasked.grantedLease_eq hrequest).trans hinv.lease⟩,
    hpass.snoc (hspoken answer events hevents) hconversation⟩

/-- The kernel client never answers a submission with an unknown action. -/
theorem submitAnswered_exchanged {action scope : Str} {answer : Except ParserError Unit}
    {events : List ServiceEvent} (h : Exchanged J (.submitRequest action scope)
      (fun response => KernelClient.submitRequest (.response response.status)) answer events) :
    SubmitAnswered ⟨.submitRequest action scope, answer⟩ := by
  intro name
  cases h with
  | answered signed response hsigned => exact KernelClient.submitRequest_ne_unknownAction _ name
  | _ => simp

/-- The kernel port keeps the contract for every call that the pass may make. -/
theorem kernelPort_meets {lease : Option InstanceLease} {pass : List PassEvent} {c : PortCall}
    (hinv : LoopInv E J config h lease) (hpass : EndsWithPass J pass h)
    (hgate : passGate E parserVersion config.leaseSeconds pass c) :
    (kernelPort J config.authority c).Meets (processContract E J parserVersion)
      (fun h' answer => SubmitAnswered ⟨c, answer⟩ ∧ LoopInv E J config h' lease ∧
        EndsWithPass J (pass ++ [⟨c, answer⟩]) h') h := by
  have hallowed : PassAllowed E J parserVersion c h := ⟨config, pass, hinv.started, hgate, hpass⟩
  cases c with
  | eligibleRoutes =>
    exact askPass_meets .eligibleRoutes (parseEligibleRoutes J)
      (fun answer => ⟨.eligibleRoutes, answer⟩) hinv hpass hallowed (by simp) (fun _ _ => id)
      fun _ _ _ => trivial
  | proposeClaim routeId leaseSeconds =>
    exact askPass_meets (.proposeClaim routeId leaseSeconds) (parseClaimResponse J)
      (fun answer => ⟨.proposeClaim routeId leaseSeconds, answer⟩) hinv hpass hallowed (by simp)
      (fun _ _ => id) fun _ _ _ => trivial
  | routedRequest routeId =>
    exact askPass_meets (.routedRequest routeId) (parseRoutedRequestResponse J)
      (fun answer => ⟨.routedRequest routeId, answer⟩) hinv hpass hallowed (by simp) (fun _ _ => id)
      fun _ _ _ => trivial
  | completeClaim claimId fencingToken =>
    exact askPass_meets (.completeClaim claimId fencingToken) (parseCompleteResponse J)
      (fun answer => ⟨.completeClaim claimId fencingToken, answer⟩) hinv hpass hallowed (by simp)
      (fun _ _ => id) fun _ _ _ => trivial
  | submitRequest action scope =>
    exact askPass_meets (.submitRequest action scope) _
      (fun answer => ⟨.submitRequest action scope, answer⟩) hinv hpass hallowed (by simp)
      (fun _ _ => id) fun _ _ => submitAnswered_exchanged
  | parseOnce version source =>
    refine ⟨hallowed, fun answer _ => ⟨trivial, hinv.append (by simp [grantedBy]), ?_⟩⟩
    have hspoken : Spoken J ⟨.parseOnce version source, answer⟩
        [⟨.parseOnce version source, answer⟩] := rfl
    exact hpass.snoc hspoken (by simp [conversation, ServiceCall.isExchange])

/-- A work pass keeps the contract, and it leaves the exchanges of a run behind. -/
theorem workPass_meets {lease : Option InstanceLease} (hinv : LoopInv E J config h lease) :
    ((workOnce E parserVersion config.leaseSeconds).interpret
        (kernelPort J config.authority)).Meets (processContract E J parserVersion)
      (fun h' result => LoopInv E J config h' lease ∧ ∃ pass, EndsWithPass J pass h' ∧
        Runs (workOnce E parserVersion config.leaseSeconds) pass (.ret result)) h := by
  have hwork := (@workOnce_meets E parserVersion config.leaseSeconds).runs
  refine (hwork.interpret (R := fun pass h' => LoopInv E J config h' lease ∧ EndsWithPass J pass h')
    ⟨hinv, endsWithPass_nil h⟩ ?_).mono ?_
  · rintro pass h' c ⟨hinv, hpass⟩ hgate
    exact kernelPort_meets hinv hpass hgate
  · rintro h' result ⟨pass, ⟨hinv, hpass⟩, -, trace, htrace, hruns⟩
    obtain rfl : pass = trace := htrace
    exact ⟨hinv, pass, hpass, hruns⟩

/-- A round keeps the contract and the invariant. -/
theorem runRound_meets {lease : Option InstanceLease} (hinv : LoopInv E J config h lease) :
    (runRound E J parserVersion config lease).Meets (processContract E J parserVersion)
      (LoopInv E J config) h := by
  refine (renewLeaseIfDue_meets hinv).bind fun h lease hinv =>
    (workPass_meets hinv).bind ?_
  rintro h result ⟨hinv, pass, hpass, hruns⟩
  have hrecord : (recordPass result).Meets (processContract E J parserVersion)
      (fun h' _ => LoopInv E J config h' lease) h := by
    cases result with
    | error error => exact hinv
    | ok outcome =>
      refine ⟨trivial, fun sinceEpoch _ => ?_⟩
      have hclock : LoopInv E J config (h ++ [⟨.clock, sinceEpoch⟩]) lease :=
        hinv.append (by simp [grantedBy])
      exact ⟨⟨config, pass, outcome, h, sinceEpoch, hclock.started, hruns, hpass, rfl, rfl⟩,
        fun _ _ => hclock.append (by simp [grantedBy])⟩
  exact hrecord.bind fun h _ hinv =>
    ⟨⟨config, hinv.started, rfl⟩, fun _ _ => hinv.append (by simp [grantedBy])⟩

/-- The loop keeps the contract. -/
theorem run_meets (rounds : ℕ) (hinv : LoopInv E J config h config.instanceLease) :
    (run E J parserVersion rounds config).Meets (processContract E J parserVersion)
      (LoopInv E J config) h :=
  Prog.Meets.repeatN (fun _ _ => runRound_meets) rounds hinv

end Pf2eParser
