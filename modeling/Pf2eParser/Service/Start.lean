import Pf2eParser.Service.Contract

/-!
# The start keeps the contract

`Config.fromEnv` step by step: each part of it is checked against `processContract` behind a history
that has got as far as the part needs, and leaves one more fact about the start behind if it
succeeds.  With the loop this makes `main_meets`, and `main_gate` reads the contract as what holds
whenever the process is about to make a call.
-/

namespace Pf2eParser

open Text Interaction

variable {E : Externals} {J : KernelJson} {parserVersion : Str} {h : List ServiceEvent}

/-- A process that starts is untouched. -/
theorem untouched_nil : Untouched [] := fun _ he => absurd he List.not_mem_nil

/-- Every variable but the address of the health endpoint can be read anywhere. -/
theorem envVar_gate {name : Str} (hname : name ≠ "HEALTH_ADDRESS".toList) :
    (processContract E J parserVersion).gate h (.envVar name) :=
  fun hhealth => absurd hhealth hname

/-- A required variable is in the environment. -/
theorem requireVar_meets {name : String} (hname : name.toList ≠ "HEALTH_ADDRESS".toList) :
    (requireVar name).Meets (processContract E J parserVersion)
      (fun h' result => ∀ value, result = .ok value →
        h' = h ++ [⟨.envVar name.toList, some value⟩]) h := by
  refine ⟨envVar_gate hname, fun answer _ => ?_⟩
  cases answer with
  | none => exact fun value hvalue => by simp at hvalue
  | some value =>
    rintro value' hvalue
    rw [Except.ok.inj hvalue]

/-- The identity of the service is in the environment. -/
theorem requireServiceId_meets :
    (requireServiceId E).Meets (processContract E J parserVersion)
      (fun h' result => ∀ serviceId, result = .ok serviceId →
        ∃ value, h' = h ++ [⟨.envVar "PARSER_SERVICE_ID".toList, some value⟩] ∧
          E.uuid.parse value = some serviceId) h := by
  refine (requireVar_meets (by decide)).andThen ?_ (by simp)
  intro h' value hvalue
  split
  · simp [Prog.Meets]
  · next serviceId hparse =>
    rintro serviceId' hserviceId
    rw [← Except.ok.inj hserviceId]
    exact ⟨value, hvalue value rfl, hparse⟩

/-- Building the client leaves the kernel untouched. -/
theorem buildClient_meets (huntouched : Untouched h) :
    buildClient.Meets (processContract E J parserVersion) (fun h' _ => Untouched h') h := by
  have hnew : ∀ h certificate, Untouched h →
      (newClient certificate).Meets (processContract E J parserVersion) (fun h' _ => Untouched h')
        h := by
    intro h certificate huntouched
    refine ⟨trivial, fun answer _ => ?_⟩
    have hafter := huntouched.concat (e := ⟨.newClient certificate, answer⟩) rfl (by simp)
    cases answer <;> exact hafter
  refine ⟨envVar_gate (by decide), fun path _ => ?_⟩
  have hpath := huntouched.concat (e := ⟨.envVar "KERNEL_CA_CERT_PATH".toList, path⟩) rfl (by simp)
  cases path with
  | none => exact hnew _ _ hpath
  | some path =>
    refine ⟨trivial, fun answer _ => ?_⟩
    have hread := hpath.concat (e := ⟨.readFile path, answer⟩) rfl (by simp)
    cases answer with
    | error message => exact hread
    | ok pem => exact hnew _ _ hread

/-- Reading the token leaves the kernel untouched. -/
theorem readWorkloadToken_meets (huntouched : Untouched h) :
    readWorkloadToken.Meets (processContract E J parserVersion) (fun h' _ => Untouched h') h := by
  refine ⟨envVar_gate (by decide), fun path _ => ⟨trivial, fun answer _ => ?_⟩⟩
  have hread := (huntouched.concat (e := ⟨.envVar "WORKLOAD_TOKEN_PATH".toList, path⟩) rfl
    (by simp)).concat (e := ⟨.readFileToString (path.getD defaultWorkloadTokenPath), answer⟩) rfl
    (by simp)
  cases answer <;> exact hread

/-- A challenge is injected or issued. -/
theorem obtainChallenge_meets (authority podUid workloadToken : Str) (huntouched : Untouched h) :
    (obtainChallenge E authority podUid workloadToken).Meets (processContract E J parserVersion)
      (fun h' result => Untouched h' ∧ ∀ challenge, result = .ok challenge →
        ChallengeObtained E authority podUid workloadToken challenge h') h := by
  refine ⟨envVar_gate (by decide), fun injected _ => ?_⟩
  have hvar := huntouched.concat (e := ⟨.envVar "ENROLLMENT_CHALLENGE".toList, injected⟩) rfl
    (by simp)
  cases injected with
  | some injected =>
    exact ⟨hvar, fun challenge hdecode => Or.inl ⟨injected, List.mem_concat_self, hdecode⟩⟩
  | none =>
    refine ⟨trivial, fun answer _ => ?_⟩
    have hrequest := hvar.concat
      (e := ⟨.requestEnrollmentChallenge (kernelUrl authority) podUid workloadToken, answer⟩) rfl
      (by simp)
    cases answer with
    | error message => exact ⟨hrequest, by simp⟩
    | ok challenge =>
      refine ⟨hrequest, fun challenge' hchallenge => Or.inr ?_⟩
      rw [← Except.ok.inj hchallenge]
      exact List.mem_concat_self

/-- An enrollment that succeeds grants the first lease. -/
theorem enroll_meets (authority : Str) (submission : EnrollmentSubmission)
    (huntouched : Untouched h) :
    (KernelClient.enroll authority submission).Meets (processContract E J parserVersion)
      (fun h' result => ∀ enrolled, result = .ok enrolled →
        (⟨.submitEnrollment (kernelUrl authority) submission, .ok enrolled⟩ : ServiceEvent) ∈ h' ∧
          grantedLease J h' = some ⟨enrolled.leaseRevision, enrolled.leaseExpiresAt⟩) h := by
  refine ⟨trivial, fun answer _ => ?_⟩
  have hsigned := huntouched.concat (e := ⟨.signEnrollment submission, answer⟩) rfl (by simp)
  cases answer with
  | error message => exact fun _ henrolled => by simp at henrolled
  | ok _ =>
    refine ⟨hsigned, fun answer _ => ?_⟩
    cases answer with
    | error message => exact fun _ henrolled => by simp at henrolled
    | ok enrolled =>
      rintro enrolled' henrolled
      rw [← Except.ok.inj henrolled]
      exact ⟨List.mem_concat_self, grantedLease_concat rfl⟩

/-- The enrollment as an endpoint and a pod of the environment. -/
theorem enrollAs_meets {authority endpoint podUid : Str} (huntouched : Untouched h)
    (hendpoint : EnvIs "SERVICE_ENDPOINT" (some endpoint) h)
    (hpod : EnvIs "POD_UID" (some podUid) h) :
    (enrollAs E authority endpoint podUid).Meets (processContract E J parserVersion)
      (fun h' result => ∀ lease, result = .ok lease →
        Enrolled E authority h' ∧ grantedLease J h' = some lease) h := by
  refine (readWorkloadToken_meets huntouched).runs.andThen ?_ (by simp)
  rintro _ workloadToken ⟨htoken, tokenEvents, rfl, -⟩
  refine (obtainChallenge_meets authority podUid workloadToken htoken).runs.andThen ?_ (by simp)
  rintro _ challenge ⟨⟨huntouched, hchallenge⟩, challengeEvents, rfl, -⟩
  refine (enroll_meets authority _ huntouched).runs.andThen ?_ (by simp)
  rintro _ enrolled ⟨henrolled, enrollEvents, rfl, -⟩ lease hlease
  obtain ⟨hsubmit, hgranted⟩ := henrolled enrolled rfl
  rw [← Except.ok.inj hlease]
  exact ⟨Or.inr (Or.inr ⟨endpoint, podUid, challenge, workloadToken, enrolled,
    ((hendpoint.append _).append _).append _, ((hpod.append _).append _).append _,
    (hchallenge challenge rfl).append _, hsubmit⟩), hgranted⟩

/-- The enrollment, where it is configured. -/
theorem enrollIfConfigured_meets (authority : Str) (huntouched : Untouched h) :
    (enrollIfConfigured E authority).Meets (processContract E J parserVersion)
      (fun h' result => ∀ lease, result = .ok lease →
        Enrolled E authority h' ∧ grantedLease J h' = lease) h := by
  refine ⟨envVar_gate (by decide), fun endpoint _ => ⟨envVar_gate (by decide),
    fun podUid _ => ?_⟩⟩
  have hvars := (huntouched.concat (e := ⟨.envVar "SERVICE_ENDPOINT".toList, endpoint⟩) rfl
    (by simp)).concat (e := ⟨.envVar "POD_UID".toList, podUid⟩) rfl (by simp)
  have hpod : EnvIs "POD_UID" podUid (h ++ [⟨.envVar "SERVICE_ENDPOINT".toList, endpoint⟩] ++
      [⟨.envVar "POD_UID".toList, podUid⟩]) := List.mem_concat_self
  have hendpoint : EnvIs "SERVICE_ENDPOINT" endpoint
      (h ++ [⟨.envVar "SERVICE_ENDPOINT".toList, endpoint⟩] ++
        [⟨.envVar "POD_UID".toList, podUid⟩]) := List.mem_append_left _ List.mem_concat_self
  cases endpoint with
  | none =>
    rintro lease hlease
    rw [← Except.ok.inj hlease]
    exact ⟨Or.inl hendpoint, hvars.grantedLease_eq⟩
  | some endpoint =>
    cases podUid with
    | none =>
      rintro lease hlease
      rw [← Except.ok.inj hlease]
      exact ⟨Or.inr (Or.inl hpod), hvars.grantedLease_eq⟩
    | some podUid =>
      refine (enrollAs_meets hvars hendpoint hpod).andThen ?_ (by simp)
      rintro h' lease henrolled lease' hlease
      rw [← Except.ok.inj hlease]
      exact henrolled lease rfl

/-! ## Subscriptions -/

/-- A request that was answered with a success was sent. -/
theorem Asked.answered {α : Type} {request : KernelRequest}
    {read : Response → Except ParserError α} {h' : List ServiceEvent} {a : α}
    (hasked : Asked J h request read h' (.ok a)) :
    ∃ signed : SignedRequest, ∃ response, (⟨.send signed, .ok response⟩ : ServiceEvent) ∈ h' ∧
      signed.IsFor J request ∧ read response = .ok a := by
  obtain ⟨quiet, events, -, hevents, rfl⟩ := hasked
  obtain ⟨signed, response, hsigned, rfl, hread⟩ := hevents.ok
  exact ⟨signed, response, by simp, hsigned, hread⟩

/-- What is left of the start behind the enrollment. -/
structure Prepared (E : Externals) (J : KernelJson) (authority : Str) (lease : Option InstanceLease)
    (h : List ServiceEvent) : Prop where
  known : EnvIs "KERNEL_AUTHORITY" (some authority) h
  enrolled : Enrolled E authority h
  lease : grantedLease J h = lease

/-- What is left of the start behind another request. -/
theorem Prepared.asked {α : Type} {authority : Str} {lease : Option InstanceLease}
    {request : KernelRequest} {read : Response → Except ParserError α} {h' : List ServiceEvent}
    {answer : Except ParserError α} (hprepared : Prepared E J authority lease h)
    (hasked : Asked J h request read h' answer)
    (hrequest : ∀ expectedRevision, request ≠ .renewLease expectedRevision) :
    Prepared E J authority lease h' := by
  have hlease := (hasked.grantedLease_eq hrequest).trans hprepared.lease
  obtain ⟨quiet, events, -, -, rfl⟩ := hasked
  rw [List.append_assoc] at hlease ⊢
  exact ⟨hprepared.known.append _, hprepared.enrolled.append _, hlease⟩

/-- A subscription is active, or it is created. -/
theorem ensureSubscription_meets {authority action : Str} {lease : Option InstanceLease}
    (hprepared : Prepared E J authority lease h) (haction : action ∈ actions) :
    (KernelClient.ensureSubscription J authority action).Meets (processContract E J parserVersion)
      (fun h' result => ∀ u, result = .ok u →
        Prepared E J authority lease h' ∧ Subscribed J action h') h := by
  have hallowed : SendAllowed E J parserVersion authority h .activeSubscriptions :=
    hprepared.enrolled
  have hactive := ask_meets_process _ (parseSubscriptionList J) hprepared.known hallowed
  refine Prog.Meets.andThen hactive ?_ (by simp)
  intro h' subscriptions hasked
  have hprepared' := hprepared.asked hasked (by simp)
  split
  case isTrue hany =>
    obtain ⟨subscription, hmem, hevent⟩ := List.any_eq_true.mp hany
    obtain ⟨signed, response, hsend, hmessage, hread⟩ := hasked.answered
    exact fun _ _ => ⟨hprepared', Or.inl ⟨signed, response, subscriptions, hsend, hmessage, hread,
      subscription, hmem, of_decide_eq_true hevent⟩⟩
  case isFalse =>
    have hallowed : SendAllowed E J parserVersion authority h' (.createSubscription action) :=
      ⟨hprepared'.enrolled, haction⟩
    have hcreate :=
      ask_meets_process _ (parseCreateSubscriptionResponse J) hprepared'.known hallowed
    refine Prog.Meets.andThen hcreate ?_ (by simp)
    intro h'' subscription hasked' u hu
    obtain ⟨signed, response, hsend, hmessage, hread⟩ := hasked'.answered
    exact ⟨hprepared'.asked hasked' (by simp),
      Or.inr ⟨signed, response, subscription, hsend, hmessage, hread⟩⟩

/-- All subscriptions are active. -/
theorem ensureSubscriptions_meets {authority : Str} {lease : Option InstanceLease}
    (hprepared : Prepared E J authority lease h) {wanted : List Str}
    (hwanted : ∀ action ∈ wanted, action ∈ actions) :
    (ensureSubscriptions J authority wanted).Meets (processContract E J parserVersion)
      (fun h' result => ∀ u, result = .ok u →
        Prepared E J authority lease h' ∧ ∀ action ∈ wanted, Subscribed J action h') h := by
  induction wanted generalizing h with
  | nil => exact fun _ _ => ⟨hprepared, by simp⟩
  | cons action wanted ih =>
    refine (ensureSubscription_meets hprepared (hwanted action List.mem_cons_self)).andThen ?_
      (by simp)
    intro h' u hsubscribed
    obtain ⟨hprepared', hsubscribed⟩ := hsubscribed u rfl
    have hrest := ih hprepared' fun action haction =>
      hwanted action (List.mem_cons_of_mem _ haction)
    refine hrest.runs.mono ?_
    rintro _ result ⟨hdone, events, rfl, -⟩ u' hu'
    refine ⟨(hdone u' hu').1, List.forall_mem_cons.mpr ⟨hsubscribed.append _, (hdone u' hu').2⟩⟩

/-! ## The database -/

/-- A connection that was checked was taken from the pool and probed. -/
theorem checkConnection_meets :
    Database.checkConnection.Meets (processContract E J parserVersion)
      (fun h' result => ∀ u, result = .ok u →
        h' = h ++ [⟨.getConnection, .ok ()⟩, ⟨.simpleQuery "SELECT 1".toList, .ok ()⟩]) h := by
  refine ⟨trivial, fun answer _ => ?_⟩
  cases answer with
  | error message => exact fun _ hu => by simp at hu
  | ok _ =>
    refine ⟨trivial, fun answer _ => ?_⟩
    cases answer with
    | error message => exact fun _ hu => by simp at hu
    | ok _ => exact fun _ _ => List.append_assoc _ _ _

/-- A database that was migrated has run the script. -/
theorem migrate_meets :
    Database.migrate.Meets (processContract E J parserVersion)
      (fun h' result => ∀ u, result = .ok u →
        h' = h ++ [⟨.getConnection, .ok ()⟩, ⟨.batchExecuteInit, .ok ()⟩]) h := by
  refine ⟨trivial, fun answer _ => ?_⟩
  cases answer with
  | error message => exact fun _ hu => by simp at hu
  | ok _ =>
    refine ⟨trivial, fun answer _ => ?_⟩
    cases answer with
    | error message => exact fun _ hu => by simp at hu
    | ok _ => exact fun _ _ => List.append_assoc _ _ _

/-- The database at a URL is connected, probed and migrated. -/
theorem connect_meets (url : Str) (hsubscribed : ∀ action ∈ actions, Subscribed J action h) :
    (Database.connect url).Meets (processContract E J parserVersion)
      (fun h' result => ∀ u, result = .ok u → h' = h ++ (connection url).tail) h := by
  refine ⟨trivial, fun answer _ => ?_⟩
  cases answer with
  | error message => exact fun _ hu => by simp at hu
  | ok _ =>
    refine ⟨fun action haction => (hsubscribed action haction).append _, fun answer _ => ?_⟩
    cases answer with
    | error message => exact fun _ hu => by simp at hu
    | ok _ =>
      refine checkConnection_meets.andThen (fun h' _ hchecked => ?_) (by simp)
      refine migrate_meets.mono fun h'' result hmigrated u hu => ?_
      rw [hmigrated u hu, hchecked () rfl]
      simp [connection]

/-- The database of the environment is connected, probed and migrated. -/
theorem connectDatabase_meets (hsubscribed : ∀ action ∈ actions, Subscribed J action h) :
    connectDatabase.Meets (processContract E J parserVersion)
      (fun h' result => ∀ u, result = .ok u → ∃ url, trim url ≠ [] ∧ h' = h ++ connection url)
      h := by
  have hconnect : Database.connectFromEnv.Meets (processContract E J parserVersion)
      (fun h' result => ∀ u, result = .ok u → ∃ url, trim url ≠ [] ∧ h' = h ++ connection url)
      h := by
    refine ⟨envVar_gate (by decide), fun url _ => ?_⟩
    cases url with
    | none => exact fun _ hu => by simp at hu
    | some url =>
      change Prog.Meets _ _ (if _ then _ else _) _
      split
      case isTrue => exact fun _ hu => by simp at hu
      case isFalse hurl =>
        have hvar : ∀ action ∈ actions, Subscribed J action
            (h ++ [⟨.envVar "PF2E_PARSER_DATABASE_URL".toList, some url⟩]) :=
          fun action haction => (hsubscribed action haction).append _
        refine (connect_meets url hvar).mono fun h' result hconnected u hu => ⟨url, hurl, ?_⟩
        rw [hconnected u hu, List.append_assoc]
        rfl
  refine hconnect.bind fun h' result hresult => ?_
  cases result with
  | error error => exact fun _ hu => by simp at hu
  | ok u => exact fun _ _ => hresult u rfl

/-! ## The whole process -/

/-- The kernel and the database have agreed. -/
theorem connectAll_meets {authority : Str} (huntouched : Untouched h)
    (hauthority : EnvIs "KERNEL_AUTHORITY" (some authority) h) :
    (connectAll E J authority).Meets (processContract E J parserVersion)
      (fun h' result => ∀ lease, result = .ok lease → Enrolled E authority h' ∧
        (∀ action ∈ actions, Subscribed J action h') ∧ Connected h' ∧ grantedLease J h' = lease)
      h := by
  refine (buildClient_meets huntouched).runs.andThen ?_ (by simp)
  rintro _ _ ⟨huntouched, clientEvents, rfl, -⟩
  refine (enrollIfConfigured_meets authority huntouched).runs.andThen ?_ (by simp)
  rintro _ lease ⟨henrolled, enrollEvents, rfl, -⟩
  obtain ⟨henrolled, hlease⟩ := henrolled lease rfl
  have hprepared : Prepared E J authority lease (h ++ clientEvents ++ enrollEvents) :=
    ⟨(hauthority.append _).append _, henrolled, hlease⟩
  refine (ensureSubscriptions_meets hprepared fun _ => id).andThen ?_ (by simp)
  intro h' _ hsubscribed
  obtain ⟨hprepared, hsubscribed⟩ := hsubscribed () rfl
  refine (connectDatabase_meets hsubscribed).andThen ?_ (by simp)
  intro h'' _ hconnected lease' hlease'
  obtain ⟨url, hurl, rfl⟩ := hconnected () rfl
  have hnone : ∀ e ∈ connection url, grantedBy J e = none := by simp [connection, grantedBy]
  rw [← Except.ok.inj hlease', grantedLease_append hnone]
  exact ⟨hprepared.enrolled.append _, fun action haction => (hsubscribed action haction).append _,
    ⟨url, hurl, (List.suffix_append _ _).isInfix⟩, hprepared.lease⟩

/-- The start keeps the contract, and it leaves the invariant of the loop behind. -/
theorem fromEnv_meets :
    (Config.fromEnv E J).Meets (processContract E J parserVersion)
      (fun h result => ∀ config, result = .ok config →
        LoopInv E J config h config.instanceLease) [] := by
  refine (requireVar_meets (by decide)).andThen ?_ (by simp)
  intro h authority hauthority
  obtain rfl := hauthority authority rfl
  refine requireServiceId_meets.andThen ?_ (by simp)
  intro h serviceId hserviceId
  obtain ⟨value, rfl, hparse⟩ := hserviceId serviceId rfl
  refine ⟨envVar_gate (by decide), fun lease _ => ⟨envVar_gate (by decide),
    fun interval _ => ?_⟩⟩
  have huntouched : Untouched ([] ++ [⟨.envVar "KERNEL_AUTHORITY".toList, some authority⟩] ++
      [⟨.envVar "PARSER_SERVICE_ID".toList, some value⟩] ++
      [⟨.envVar "CLAIM_LEASE_SECONDS".toList, lease⟩] ++
      [⟨.envVar "POLL_INTERVAL_SECONDS".toList, interval⟩]) :=
    (((untouched_nil.concat rfl (by simp)).concat rfl (by simp)).concat rfl (by simp)).concat rfl
      (by simp)
  refine (connectAll_meets huntouched (by simp [EnvIs])).runs.andThen ?_ (by simp)
  rintro _ instanceLease ⟨hconnected, events, rfl, -⟩ config hconfig
  obtain ⟨henrolled, hsubscribed, hconnected, hlease⟩ := hconnected instanceLease rfl
  obtain rfl := Except.ok.inj hconfig
  refine ⟨⟨?_, henrolled, hsubscribed, hconnected⟩, hlease⟩
  exact Configured.append ⟨by simp [EnvIs], ⟨value, serviceId, by simp [EnvIs], hparse⟩,
    ⟨lease, by simp [EnvIs], rfl⟩, interval, by simp [EnvIs], rfl⟩ events

/-- The process keeps its contract, however many rounds it makes. -/
theorem main_meets (rounds : ℕ) :
    (main E J parserVersion rounds).Meets (processContract E J parserVersion) (fun _ _ => True)
      [] := by
  refine fromEnv_meets.andThen ?_ (by simp)
  intro h config hinv
  refine ⟨fun _ => ⟨config, (hinv config rfl).started⟩, fun address _ => ?_⟩
  have hloop : LoopInv E J config (h ++ [⟨.envVar "HEALTH_ADDRESS".toList, address⟩])
      config.instanceLease :=
    (hinv config rfl).append (by simp [grantedBy])
  exact (run_meets rounds hloop).bind fun _ _ _ => trivial

/-- Whenever the process is about to make a call, the contract allows it. -/
theorem main_gate {rounds : ℕ} {trace : List ServiceEvent} {c : ServiceCall}
    {rest : Service (Except ParserError (Option InstanceLease))}
    (hrun : Runs (main E J parserVersion rounds) trace rest) (hpending : rest.pending = some c) :
    processGate E J parserVersion trace c :=
  hrun.pending_gate (main_meets rounds) (fun _ _ => trivial) hpending

end Pf2eParser
