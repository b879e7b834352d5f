import Pf2eParser.Service.Guarantees

/-!
# The life of the process

More guarantees that the contract of the process gives: in which order it starts, which leases it
renews and when, that no signed request repeats the identifier or the nonce of another one, and what
stands behind a readiness probe that succeeds.
-/

namespace Pf2eParser

open Text Interaction

variable {E : Externals} {J : KernelJson} {parserVersion : Str} {rounds : ℕ}
  {trace : List ServiceEvent} {rest : Service (Except ParserError (Option InstanceLease))}

/-- Every call of the process was allowed at its place. -/
theorem main_gate_of_mem {before after : List ServiceEvent} {e : ServiceEvent}
    (hrun : Runs (main E J parserVersion rounds) (before ++ e :: after) rest) :
    processGate E J parserVersion before e.1 :=
  hrun.gate (main_meets rounds) fun _ _ => trivial

/-! ## The order of the start -/

variable (J) in
/-- The call belongs to the loop: a request other than one for a subscription, a parse, a heartbeat
or a pause. -/
def ServiceCall.IsWork : ServiceCall → Prop
  | send signed => ¬ signed.IsFor J .activeSubscriptions ∧
      ∀ eventType, ¬ signed.IsFor J (.createSubscription eventType)
  | parseOnce _ _ | recordSuccess _ | sleep _ => True
  | _ => False

/-- A request that may be sent and is no request for a subscription is sent by a process that has
started. -/
theorem SendAllowed.started {authority : Str} {h : List ServiceEvent} {request : KernelRequest}
    (hallowed : SendAllowed E J parserVersion authority h request)
    (hactive : request ≠ .activeSubscriptions)
    (hcreate : ∀ eventType, request ≠ .createSubscription eventType) :
    ∃ config, Started E J config h := by
  cases request with
  | activeSubscriptions => exact absurd rfl hactive
  | createSubscription eventType => exact absurd rfl (hcreate eventType)
  | renewLease expectedRevision => exact hallowed.1
  | _ =>
    obtain ⟨config, pass, hstarted, -⟩ := hallowed
    exact ⟨config, hstarted⟩

/-- A request for a subscription that may be sent is sent by an enrolled process. -/
theorem SendAllowed.enrolled {authority : Str} {h : List ServiceEvent} {request : KernelRequest}
    (hallowed : SendAllowed E J parserVersion authority h request)
    (hkind : request.kind.2 = some 'u') : Enrolled E authority h := by
  cases request with
  | activeSubscriptions => exact hallowed
  | createSubscription eventType => exact hallowed.1
  | _ => simp [KernelRequest.kind] at hkind

/-- The process starts in order.  When it is about to enroll, it has sent no signed request and has
parsed nothing, and it has never tried to enroll before, while a challenge may have been asked for;
when it is about to ask for subscriptions, it is enrolled, if that is configured; when it is about
to open the database, it is subscribed to all its actions; and when it is about to do any work, all
this is done and the database is probed and migrated. -/
theorem start_in_order (hrun : Runs (main E J parserVersion rounds) trace rest) :
    (∀ kernel submission, rest.pending = some (.submitEnrollment kernel submission) →
        Untouched trace) ∧
      (∀ signed : SignedRequest, rest.pending = some (.send signed) →
        (signed.IsFor J .activeSubscriptions ∨
          ∃ eventType, signed.IsFor J (.createSubscription eventType)) →
        ∃ authority, EnvIs "KERNEL_AUTHORITY" (some authority) trace ∧
          Enrolled E authority trace) ∧
      (∀ url, rest.pending = some (.newPool url) → ∀ action ∈ actions, Subscribed J action trace) ∧
      ∀ c, rest.pending = some c → c.IsWork J → ∃ config, Started E J config trace := by
  refine ⟨fun kernel submission hpending => main_gate hrun hpending, ?_,
    fun url hpending => main_gate hrun hpending, ?_⟩
  · intro signed hpending hfor
    obtain ⟨authority, request, before, hrequest, ⟨requestId, sinceEpoch, nonce, -, rfl⟩,
      hauthority, hallowed⟩ := main_gate hrun hpending
    have hkind : request.kind.2 = some 'u' := by
      rw [← KernelRequest.kind_message hrequest]
      obtain hactive | ⟨eventType, hcreate⟩ := hfor
      · rw [KernelRequest.kind_message hactive]
        rfl
      · rw [KernelRequest.kind_message hcreate]
        rfl
    exact ⟨authority, hauthority.append _, (hallowed.enrolled hkind).append _⟩
  · intro c hpending hwork
    have hgate := main_gate hrun hpending
    cases c with
    | send signed =>
      obtain ⟨authority, request, before, hrequest, hsigned, -, hallowed⟩ := hgate
      obtain ⟨config, hstarted⟩ := hallowed.started
        (fun hactive => hwork.1 (hactive ▸ hrequest))
        (fun eventType hcreate => hwork.2 eventType (hcreate ▸ hrequest))
      exact ⟨config, hsigned.started hstarted⟩
    | parseOnce version source =>
      obtain ⟨config, pass, hstarted, -⟩ := hgate
      exact ⟨config, hstarted⟩
    | recordSuccess instant =>
      obtain ⟨config, pass, outcome, before, sinceEpoch, hstarted, -⟩ := hgate
      exact ⟨config, hstarted⟩
    | sleep seconds =>
      obtain ⟨config, hstarted, -⟩ := hgate
      exact ⟨config, hstarted⟩
    | _ => exact absurd hwork id

/-- A first round, cut where it is about to enroll, to ask for its subscriptions, to open the
database, and to complete its claim. -/
theorem start_in_order_exampleRun :
    Untouched (exampleRun 13).1 ∧
      (∃ authority, EnvIs "KERNEL_AUTHORITY" (some authority) (exampleRun 19).1 ∧
        Enrolled .reference authority (exampleRun 19).1) ∧
      (∀ action ∈ actions, Subscribed exampleJson action (exampleRun 22).1) ∧
      ∃ config, Started .reference exampleJson config (exampleRun 65).1 := by
  refine ⟨?_, ?_, ?_, ?_⟩
  · have hpending : (exampleRun 13).2.pending = some (.submitEnrollment
        (kernelUrl "kernel".toList) ⟨.replicate 32 0, "https://parser".toList, "pod".toList,
          "token".toList⟩) := by decide +kernel
    exact (start_in_order (runs_exampleRun 13)).1 _ _ hpending
  · have hpending : (exampleRun 19).2.pending =
        some (.send (exampleSigned .activeSubscriptions)) := by decide +kernel
    exact (start_in_order (runs_exampleRun 19)).2.1 _ hpending (Or.inl (isFor_exampleSigned _))
  · have hpending : (exampleRun 22).2.pending = some (.newPool "postgres://db".toList) := by
      decide +kernel
    exact (start_in_order (runs_exampleRun 22)).2.2.1 _ hpending
  · have hpending : (exampleRun 65).2.pending =
        some (.send (exampleSigned (.completeClaim "c".toList 3))) := by decide +kernel
    refine (start_in_order (runs_exampleRun 65)).2.2.2 _ hpending ⟨?_, fun eventType => ?_⟩
    all_goals
      intro hfor
      have hkind := KernelRequest.kind_message hfor
      rw [KernelRequest.kind_message (isFor_exampleSigned _)] at hkind
      simp [KernelRequest.kind] at hkind

/-! ## The chain of leases -/

/-- The call is an enrollment. -/
def ServiceCall.isEnrollment : ServiceCall → Bool
  | submitEnrollment _ _ => true
  | _ => false

/-- The process enrolls at most once. -/
theorem countP_isEnrollment_le_one (hrun : Runs (main E J parserVersion rounds) trace rest) :
    trace.countP (fun e => e.1.isEnrollment) ≤ 1 := by
  induction trace using List.reverseRecOn generalizing rest with
  | nil => exact Nat.zero_le 1
  | append_singleton before e ih =>
    obtain ⟨middle, hbefore, -⟩ := hrun.split
    have hgate := main_gate_of_mem hrun
    rw [List.countP_append, List.countP_singleton]
    obtain ⟨c, answer⟩ := e
    cases c with
    | submitEnrollment kernel submission =>
      have hnone : before.countP (fun e => e.1.isEnrollment) = 0 := by
        refine List.countP_eq_zero.mpr fun e he => ?_
        have hother := (hgate e he).2
        obtain ⟨c, answer⟩ := e
        cases c with
        | submitEnrollment kernel' submission' => exact absurd rfl (hother kernel' submission')
        | _ => simp [ServiceCall.isEnrollment]
      rw [hnone]
      exact le_rfl
    | _ => exact ih hbefore

/-- A renewal that is sent behind the given history was due before it. -/
theorem renewalDue_of_isFor {authority : Str} {request : KernelRequest} {signed : SignedRequest}
    {before : List ServiceEvent}
    (hfor : signed.IsFor J request)
    (hallowed : SendAllowed E J parserVersion authority before request)
    (hpath : signed.parts.pathAndQuery = renewInstancePath) :
    ∃ expectedRevision, request = .renewLease expectedRevision ∧
      RenewalDue J expectedRevision before := by
  have hrequest : request.pathAndQuery = renewInstancePath := by
    rw [← hfor.pathAndQuery_eq, hpath]
  by_contra hnone
  refine KernelRequest.path_ne (fun expectedRevision hrenew => ?_) hrequest
  subst hrenew
  exact hnone ⟨expectedRevision, rfl, hallowed.2⟩

/-- A lease was granted only if the process has enrolled. -/
theorem exists_isEnrollment {lease : InstanceLease}
    (hrun : Runs (main E J parserVersion rounds) trace rest)
    (hgranted : grantedLease J trace = some lease) : ∃ e ∈ trace, e.1.isEnrollment = true := by
  induction hn : trace.length using Nat.strong_induction_on generalizing trace rest lease with
  | _ n ih =>
    subst hn
    obtain rfl | ⟨before, e, rfl⟩ := List.eq_nil_or_concat' trace
    · simp [grantedLease] at hgranted
    obtain ⟨middle, hbefore, -⟩ := hrun.split
    cases hby : grantedBy J e with
    | none =>
      rw [grantedLease_append (by simpa using hby)] at hgranted
      obtain ⟨e', he', henroll⟩ := ih before.length (by simp) hbefore hgranted rfl
      exact ⟨e', List.mem_append_left _ he', henroll⟩
    | some granted =>
      have hgate := main_gate_of_mem hrun
      obtain ⟨c, answer⟩ := e
      cases c with
      | submitEnrollment kernel submission => exact ⟨_, List.mem_concat_self, rfl⟩
      | send signed =>
        -- a renewal that succeeds follows an earlier grant
        obtain ⟨authority, request, start, hfor, hsigned, -, hallowed⟩ := hgate
        have hpath : signed.parts.pathAndQuery = renewInstancePath := by
          by_contra hpath
          cases answer <;> simp [grantedBy, hpath] at hby
        obtain ⟨expectedRevision, -, earlier, sinceEpoch, lease', rfl, hlease', -⟩ :=
          renewalDue_of_isFor hfor hallowed hpath
        obtain ⟨requestId, sinceEpoch', nonce, -, rfl⟩ := hsigned
        rw [List.append_assoc] at hbefore
        obtain ⟨middle', hearlier, -⟩ := hbefore.split
        obtain ⟨e', he', henroll⟩ := ih earlier.length (by simp) hearlier hlease' rfl
        exact ⟨e', by simp [he'], henroll⟩
      | _ => simp [grantedBy] at hby

/-- When the process is about to renew its lease, the lease is the one that was granted last, by the
only enrollment of the process or by a renewal: the request carries its revision, and the clock has
just shown a time within the margin of its expiry. -/
theorem renewal_in_chain (hW : J.writer.Lawful) {signed : SignedRequest} {expectedRevision : Int64}
    (hrun : Runs (main E J parserVersion rounds) trace rest)
    (hpending : rest.pending = some (.send signed))
    (hfor : signed.IsFor J (.renewLease expectedRevision)) :
    trace.countP (fun e => e.1.isEnrollment) = 1 ∧
      ∃ lease before sinceEpoch preparations, grantedLease J trace = some lease ∧
        expectedRevision = lease.revision ∧
        trace = before ++ ⟨.clock, sinceEpoch⟩ :: preparations ∧
        (∀ e ∈ preparations, e.1.isQuiet = true) ∧
        ¬ unixTime sinceEpoch < lease.expiresAt - renewalMarginSeconds := by
  obtain ⟨authority, start, ⟨requestId, sinceEpoch', nonce, -, htrace⟩, -, -, before, sinceEpoch,
    lease, rfl, hlease, hrevision, hdue⟩ := sendAllowed_of_gate hW (main_gate hrun hpending) hfor
  rw [List.append_assoc, List.singleton_append] at htrace
  have hprepared : ∀ e ∈ [⟨.newUuid, requestId⟩, ⟨.clock, sinceEpoch'⟩,
      ⟨.newRequestParts signed.parts, .ok ()⟩, ⟨.generateNonce, .ok nonce⟩,
      (⟨.signRequest signed, .ok ()⟩ : ServiceEvent)], e.1.isQuiet = true := by
    simp [ServiceCall.isQuiet]
  have hgranted : grantedLease J trace = some lease := by
    rw [htrace, grantedLease_append, hlease]
    refine List.forall_mem_cons.mpr ⟨rfl, fun e he => grantedBy_quiet (hprepared e he)⟩
  obtain ⟨e, he, henroll⟩ := exists_isEnrollment hrun hgranted
  refine ⟨le_antisymm (countP_isEnrollment_le_one hrun) ?_, lease, before, sinceEpoch, _, hgranted,
    hrevision, htrace, hprepared, hdue⟩
  exact List.countP_pos_iff.mpr ⟨e, he, henroll⟩

/-- The renewal in a first round. -/
theorem renewal_in_chain_exampleRun :
    (exampleRun 34).1.countP (fun e => e.1.isEnrollment) = 1 ∧
      ∃ lease before sinceEpoch preparations,
        grantedLease exampleJson (exampleRun 34).1 = some lease ∧ 1 = lease.revision ∧
        (exampleRun 34).1 = before ++ ⟨.clock, sinceEpoch⟩ :: preparations ∧
        (∀ e ∈ preparations, e.1.isQuiet = true) ∧
        ¬ unixTime sinceEpoch < lease.expiresAt - renewalMarginSeconds :=
  renewal_in_chain JsonWriter.reference_lawful (runs_exampleRun 34)
    (show (exampleRun 34).2.pending = some (.send (exampleSigned (.renewLease 1))) by
      decide +kernel)
    (isFor_exampleSigned _)

/-! ## Fresh requests -/

/-- The identifiers that were generated. -/
def newUuids (h : List ServiceEvent) : List Uuid :=
  h.filterMap fun
    | ⟨.newUuid, requestId⟩ => some requestId
    | _ => none

/-- The nonces that were generated. -/
def newNonces (h : List ServiceEvent) : List Str :=
  h.filterMap fun
    | ⟨.generateNonce, .ok nonce⟩ => some nonce
    | _ => none

/-- The signed requests that were sent. -/
def sentRequests (h : List ServiceEvent) : List SignedRequest :=
  h.filterMap fun
    | ⟨.send signed, _⟩ => some signed
    | _ => none

@[simp] theorem sentRequests_append (h h' : List ServiceEvent) :
    sentRequests (h ++ h') = sentRequests h ++ sentRequests h' := by
  unfold sentRequests
  exact List.filterMap_append

/-- Any other event is no request. -/
theorem sentRequests_singleton {e : ServiceEvent} (he : ∀ signed, e.1 ≠ .send signed) :
    sentRequests [e] = [] := by
  obtain ⟨c, answer⟩ := e
  cases c with
  | send signed => exact absurd rfl (he signed)
  | _ => rfl

/-- Every request of a history was signed just before it was sent. -/
def AllSigned (h : List ServiceEvent) : Prop :=
  ∀ before signed answer after, h = before ++ ⟨.send signed, answer⟩ :: after →
    ∃ authority start, Signed authority signed.message start signed before

theorem AllSigned.of_append {h h' : List ServiceEvent} (hall : AllSigned (h ++ h')) :
    AllSigned h := by
  rintro before signed answer after rfl
  exact hall before signed answer (after ++ h') (by simp)

/-- If the preparation of a request makes exactly its own key, then the keys of the requests are
some of the keys that were made, in order. -/
theorem AllSigned.map_sublist {α : Type} {key : SignedRequest → α} {made : ServiceEvent → Option α}
    (hmade : ∀ authority (signed : SignedRequest) start h,
      Signed authority signed.message start signed h →
        h.filterMap made = start.filterMap made ++ [key signed])
    {h : List ServiceEvent} (hall : AllSigned h) :
    ((sentRequests h).map key).Sublist (h.filterMap made) := by
  induction hn : h.length using Nat.strong_induction_on generalizing h with
  | _ n ih =>
    subst hn
    obtain rfl | ⟨before, e, rfl⟩ := List.eq_nil_or_concat' h
    · exact List.Sublist.refl _
    rw [sentRequests_append, List.filterMap_append]
    by_cases hsend : ∃ signed, e.1 = .send signed
    · obtain ⟨c, answer⟩ := e
      obtain ⟨signed, rfl⟩ := hsend
      obtain ⟨authority, start, hsigned⟩ := hall before signed answer [] rfl
      have hbefore := hmade authority signed start before hsigned
      obtain ⟨requestId, sinceEpoch, nonce, -, rfl⟩ := hsigned
      have hstart := ih start.length (by simp) hall.of_append.of_append rfl
      have hsent : sentRequests (start ++ [⟨.newUuid, requestId⟩, ⟨.clock, sinceEpoch⟩,
          ⟨.newRequestParts signed.parts, .ok ()⟩, ⟨.generateNonce, .ok nonce⟩,
          ⟨.signRequest signed, .ok ()⟩]) = sentRequests start := by
        rw [sentRequests_append]
        exact List.append_nil _
      rw [hsent, hbefore, List.map_append]
      exact (hstart.append (List.Sublist.refl _)).trans (List.sublist_append_left _ _)
    · rw [sentRequests_singleton fun signed hsigned => hsend ⟨signed, hsigned⟩, List.append_nil]
      exact (ih before.length (by simp) hall.of_append rfl).trans (List.sublist_append_left _ _)

/-- Every signed request of the process (the challenge and the enrollment are none) is signed with
the authority of the environment, at the time that the clock has just shown and for the next
`SIGNATURE_VALIDITY_SECONDS`, with an identifier and a nonce that were generated for it: no two
signed requests share one, unless the generators repeat themselves. -/
theorem requests_are_fresh (hrun : Runs (main E J parserVersion rounds) trace rest) :
    (∀ before signed answer after, trace = before ++ ⟨.send signed, answer⟩ :: after →
        ∃ authority start, Signed authority signed.message start signed before ∧
          EnvIs "KERNEL_AUTHORITY" (some authority) start) ∧
      ((sentRequests trace).map fun signed => signed.parts.requestId).Sublist (newUuids trace) ∧
      ((sentRequests trace).map SignedRequest.nonce).Sublist (newNonces trace) := by
  have hsigned : ∀ before signed answer after, trace = before ++ ⟨.send signed, answer⟩ :: after →
      ∃ authority start, Signed authority signed.message start signed before ∧
        EnvIs "KERNEL_AUTHORITY" (some authority) start := by
    rintro before signed answer after rfl
    obtain ⟨authority, request, start, -, hsigned, hauthority, -⟩ := main_gate_of_mem hrun
    exact ⟨authority, start, hsigned, hauthority⟩
  have hall : AllSigned trace := by
    intro before signed answer after htrace
    obtain ⟨authority, start, hsigned, -⟩ := hsigned before signed answer after htrace
    exact ⟨authority, start, hsigned⟩
  refine ⟨hsigned, hall.map_sublist ?_, hall.map_sublist ?_⟩
  · rintro authority signed start h ⟨requestId, sinceEpoch, nonce, heq, rfl⟩
    rw [heq, List.filterMap_append]
    rfl
  · rintro authority signed start h ⟨requestId, sinceEpoch, nonce, heq, rfl⟩
    rw [heq, List.filterMap_append]
    rfl

/-- The requests of a first round. -/
theorem requests_are_fresh_exampleRun :
    (∀ before signed answer after,
        (exampleRun 69).1 = before ++ ⟨.send signed, answer⟩ :: after →
        ∃ authority start, Signed authority signed.message start signed before ∧
          EnvIs "KERNEL_AUTHORITY" (some authority) start) ∧
      ((sentRequests (exampleRun 69).1).map fun signed => signed.parts.requestId).Sublist
        (newUuids (exampleRun 69).1) ∧
      ((sentRequests (exampleRun 69).1).map SignedRequest.nonce).Sublist
        (newNonces (exampleRun 69).1) :=
  requests_are_fresh (runs_exampleRun 69)

/-! ## Readiness -/

/-- The call records a success. -/
def ServiceCall.isRecord : ServiceCall → Bool
  | recordSuccess _ => true
  | _ => false

/-- The heartbeat that the health endpoint sees behind a history. -/
def heartbeatOf (h : List ServiceEvent) : Heartbeat :=
  h.foldl (fun heartbeat e =>
    match e.1 with
    | .recordSuccess instant => heartbeat.recordSuccess instant
    | _ => heartbeat) {}

theorem heartbeatOf_concat (h : List ServiceEvent) (instant : Int64) (answer : Unit) :
    heartbeatOf (h ++ [⟨.recordSuccess instant, answer⟩]) = ⟨instant⟩ := by
  simp [heartbeatOf, Heartbeat.recordSuccess]

theorem heartbeatOf_concat_of_not_isRecord (h : List ServiceEvent) {e : ServiceEvent}
    (he : e.1.isRecord = false) : heartbeatOf (h ++ [e]) = heartbeatOf h := by
  obtain ⟨c, answer⟩ := e
  unfold heartbeatOf
  rw [List.foldl_append]
  cases c with
  | recordSuccess instant => simp [ServiceCall.isRecord] at he
  | _ => rfl

/-- A heartbeat with a time is the last success that was recorded. -/
theorem exists_record_of_lastSuccess_ne_zero {h : List ServiceEvent}
    (hne : (heartbeatOf h).lastSuccess ≠ 0) :
    ∃ before after, h = before ++ ⟨.recordSuccess (heartbeatOf h).lastSuccess, ()⟩ :: after ∧
      ∀ e ∈ after, e.1.isRecord = false := by
  induction h using List.reverseRecOn with
  | nil => exact absurd rfl hne
  | append_singleton h e ih =>
    cases he : e.1.isRecord with
    | false =>
      rw [heartbeatOf_concat_of_not_isRecord h he] at hne ⊢
      obtain ⟨before, after, hh, hafter⟩ := ih hne
      refine ⟨before, after ++ [e], ?_, ?_⟩
      · conv_lhs => rw [hh]
        simp
      · intro e' he'
        rcases List.mem_append.mp he' with he' | he'
        · exact hafter e' he'
        · rw [List.mem_singleton.mp he', he]
    | true =>
      obtain ⟨c, answer⟩ := e
      cases c with
      | recordSuccess instant =>
        rw [heartbeatOf_concat]
        exact ⟨h, [], rfl, by simp⟩
      | _ => simp [ServiceCall.isRecord] at he

/-- When readiness succeeds. -/
theorem evaluate_ready_iff (heartbeat : Heartbeat) (databaseOk : Bool) (now : Int64) :
    (evaluate readyPath heartbeat databaseOk {} now).1 = statusOk ↔
      databaseOk = true ∧ heartbeat.lastSuccess ≠ 0 ∧
        now.toInt ≤ heartbeat.lastSuccess.toInt + 30 := by
  have hne : statusUnavailable ≠ statusOk := by decide
  have hpath : readyPath ≠ livePath := by decide
  have hbound : (({} : Thresholds).readyStaleSeconds).toInt = 30 := by decide
  have hsub := @saturatingSub_le_iff now heartbeat.lastSuccess ({} : Thresholds).readyStaleSeconds
    (by decide)
  rw [hbound] at hsub
  rw [evaluate, if_neg hpath, if_pos rfl, Heartbeat.age]
  cases databaseOk with
  | false => simp [hne]
  | true =>
    by_cases hzero : heartbeat.lastSuccess = 0
    · simp [hzero, hne]
    · simp only [hzero, if_false, if_true, true_and, ne_eq, not_false_eq_true, ← hsub]
      split
      case isTrue h => simp [h]
      case isFalse h => simp [h, hne]

/-- The first exchange of a pass that returned `Ok` is the one in which the kernel lists the routes.
-/
theorem listed_of_runs {leaseSeconds : Int64} {pass : List PassEvent} {outcome : WorkOutcome}
    {h : List ServiceEvent}
    (hruns : Runs (workOnce E parserVersion leaseSeconds) pass (.ret (.ok outcome)))
    (hpass : EndsWithPass J pass h) :
    ∃ earlier later body routes, ∃ listed : SignedRequest,
      conversation h = earlier ++ ⟨.send listed, .ok ⟨200, body⟩⟩ :: later ∧
      listed.IsFor J .eligibleRoutes ∧
      J.eligibleRoutes body = .ok routes := by
  unfold workOnce at hruns
  cases hruns with
  | step answer hlater =>
    cases answer with
    | error error => cases hlater
    | ok routes =>
      obtain ⟨earlier, parts, hparts, hconversation⟩ := hpass
      obtain ⟨events, later, hevents, -, rfl⟩ := List.forall₂_cons_left_iff.mp hparts
      obtain ⟨listed, ⟨status, body⟩, hfor, rfl, hread⟩ := Exchanged.ok hevents
      obtain ⟨rfl, hroutes⟩ := readOnly_eq_ok_iff.mp hread
      exact ⟨earlier, later.flatten, body, routes, listed, hconversation, hfor, hroutes⟩

/-- When readiness succeeds at any moment of the process, then the database was reachable, and at
most `ready_stale_seconds` before the process has recorded a work pass that returned `Ok`: the
exchanges before the record are those of the pass, and in the first of them the kernel has answered
with the list of routes. -/
theorem ready_behind_pass {databaseOk : Bool} {now : Int64}
    (hrun : Runs (main E J parserVersion rounds) trace rest)
    (hready : (evaluate readyPath (heartbeatOf trace) databaseOk {} now).1 = statusOk) :
    databaseOk = true ∧ ∃ config before sinceEpoch after pass outcome,
      trace = before ++ ⟨.clock, sinceEpoch⟩ ::
        ⟨.recordSuccess (nowSeconds sinceEpoch), ()⟩ :: after ∧
      (∀ e ∈ after, e.1.isRecord = false) ∧ now.toInt ≤ (nowSeconds sinceEpoch).toInt + 30 ∧
      Started E J config trace ∧
      Runs (workOnce E parserVersion config.leaseSeconds) pass (.ret (.ok outcome)) ∧
      EndsWithPass J pass before ∧
      ∃ earlier later body routes, ∃ listed : SignedRequest,
        conversation before = earlier ++ ⟨.send listed, .ok ⟨200, body⟩⟩ :: later ∧
        listed.IsFor J .eligibleRoutes ∧
        J.eligibleRoutes body = .ok routes := by
  obtain ⟨hdatabase, hne, hrecent⟩ := (evaluate_ready_iff _ _ _).mp hready
  obtain ⟨before, after, htrace, hafter⟩ := exists_record_of_lastSuccess_ne_zero hne
  have hrun' := hrun
  rw [htrace] at hrun'
  obtain ⟨config, pass, outcome, earlier, sinceEpoch, hstarted, hruns, hpass, rfl, hinstant⟩ :=
    main_gate_of_mem hrun'
  rw [List.append_assoc] at htrace
  rw [hinstant] at htrace hrecent
  refine ⟨hdatabase, config, earlier, sinceEpoch, after, pass, outcome, htrace, hafter, hrecent, ?_,
    hruns, hpass, ?_⟩
  · rw [htrace]
    have hlater := hstarted.append (⟨.recordSuccess (nowSeconds sinceEpoch), ()⟩ :: after)
    rwa [List.append_assoc] at hlater
  · exact listed_of_runs hruns hpass

end Pf2eParser
