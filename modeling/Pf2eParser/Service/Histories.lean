import Pf2eParser.Completion
import Pf2eParser.Service.Process

/-!
# Histories of the process

What a history of the process says about its start, about the exchanges with the kernel, and about
the lease: the vocabulary of the contract in `Service.Contract`, with what one more event or one
more exchange makes of each notion.
-/

namespace Pf2eParser

open Text Interaction

variable (E : Externals) (J : KernelJson) (parserVersion authority : Str)

/-! ## Exchanges with the kernel -/

/-- The call prepares an exchange. -/
def ServiceCall.isQuiet : ServiceCall → Bool
  | newUuid | clock | newRequestParts _ | generateNonce | signRequest _ => true
  | _ => false

/-- The call is an exchange with the kernel or with the repository. -/
def ServiceCall.isExchange : ServiceCall → Bool
  | send _ | parseOnce _ _ => true
  | _ => false

/-- The exchanges of a history, in order. -/
def conversation (history : List ServiceEvent) : List ServiceEvent :=
  history.filter fun e => e.1.isExchange

/-- The message was signed behind the history `before`: the calls since then have obtained an
identifier, the time and a nonce for it, and nothing else has happened. -/
def Signed (message : Message) (before : List ServiceEvent) (request : SignedRequest)
    (history : List ServiceEvent) : Prop :=
  ∃ requestId sinceEpoch nonce,
    request = ⟨⟨message.method, authority, message.pathAndQuery, applicationJson, message.body,
      requestId⟩, unixTime sinceEpoch, unixTime sinceEpoch + signatureValiditySeconds, nonce⟩ ∧
    history = before ++ [⟨.newUuid, requestId⟩, ⟨.clock, sinceEpoch⟩,
      ⟨.newRequestParts request.parts, .ok ()⟩, ⟨.generateNonce, .ok nonce⟩,
      ⟨.signRequest request, .ok ()⟩]

/-- The exchange in which a request is answered: it is sent and the answer is read, or its body
cannot be written, or it fails, and then it may or may not have been sent. -/
inductive Exchanged {α : Type} (request : KernelRequest) (read : Response → Except ParserError α) :
    Except ParserError α → List ServiceEvent → Prop
  | answered (signed : SignedRequest) (response : Response) (hsigned : signed.IsFor J request) :
    Exchanged request read (read response) [⟨.send signed, .ok response⟩]
  | notWritten (message : Str) (hbody : request.body J.writer = .error message) :
    Exchanged request read (.error (.malformedResponse message)) []
  | notSent (message : Str) : Exchanged request read (.error (.client message)) []
  | notAnswered (signed : SignedRequest) (message : Str) (hsigned : signed.IsFor J request) :
    Exchanged request read (.error (.client message)) [⟨.send signed, .error message⟩]

/-- The request was answered between two histories, and nothing else was exchanged. -/
def Asked {α : Type} (before : List ServiceEvent) (request : KernelRequest)
    (read : Response → Except ParserError α) (history : List ServiceEvent)
    (answer : Except ParserError α) : Prop :=
  ∃ quiet events, (∀ e ∈ quiet, e.1.isQuiet = true) ∧ Exchanged J request read answer events ∧
    history = before ++ quiet ++ events

/-- Ask the kernel: the common form of the methods of the client. -/
def ask {α : Type} (request : KernelRequest) (read : Response → Except ParserError α) :
    Service (Except ParserError α) :=
  withBody (request.body J.writer) fun body =>
    exchange (fun requestId now => build ⟨request.method, authority, request.pathAndQuery,
      applicationJson, body, requestId⟩ now) read

variable {J authority}

@[simp] theorem conversation_append (h h' : List ServiceEvent) :
    conversation (h ++ h') = conversation h ++ conversation h' := by
  unfold conversation
  exact List.filter_append h h'

/-- Preparations are no part of the conversation. -/
theorem conversation_quiet {quiet : List ServiceEvent} (h : ∀ e ∈ quiet, e.1.isQuiet = true) :
    conversation quiet = [] := by
  refine List.filter_eq_nil_iff.mpr fun e he => ?_
  obtain ⟨c, a⟩ := e
  have hquiet := h _ he
  cases c <;> simp_all [ServiceCall.isQuiet, ServiceCall.isExchange]

/-- An exchange is all conversation. -/
theorem Exchanged.conversation_eq {α : Type} {request : KernelRequest}
    {read : Response → Except ParserError α} {answer : Except ParserError α}
    {events : List ServiceEvent} (h : Exchanged J request read answer events) :
    conversation events = events := by
  cases h <;> rfl

/-- A request that was answered with a success was sent, and its response was read. -/
theorem Exchanged.ok {α : Type} {request : KernelRequest}
    {read : Response → Except ParserError α} {a : α} {events : List ServiceEvent}
    (h : Exchanged J request read (.ok a) events) :
    ∃ signed : SignedRequest, ∃ response, signed.IsFor J request ∧
      events = [⟨.send signed, .ok response⟩] ∧ read response = .ok a := by
  generalize hresult : (Except.ok a : Except ParserError α) = result at h
  cases h with
  | answered signed response hsigned => exact ⟨signed, response, hsigned, rfl, rfl⟩
  | _ => cases hresult

/-- A request is signed under any contract that allows the preparations everywhere. -/
theorem build_meets {C : Contract ServiceCall.Answer} {parts : RequestParts} {now : Int64}
    {before : List ServiceEvent} (hquiet : ∀ h c, c.isQuiet = true → C.gate h c) :
    (build parts now).Meets C (fun h result => ∃ quiet, h = before ++ quiet ∧
      (∀ e ∈ quiet, e.1.isQuiet = true) ∧ ((∃ message, result = .error (.client message)) ∨
        ∃ nonce signed, signed = ⟨parts, now, now + signatureValiditySeconds, nonce⟩ ∧
          result = .ok signed ∧ quiet = [⟨.newRequestParts parts, .ok ()⟩,
            ⟨.generateNonce, .ok nonce⟩, ⟨.signRequest signed, .ok ()⟩])) before := by
  refine ⟨hquiet _ _ rfl, fun answer _ => ?_⟩
  cases answer with
  | error message =>
    exact ⟨_, rfl, by simp [ServiceCall.isQuiet], Or.inl ⟨message, rfl⟩⟩
  | ok _ =>
    refine ⟨hquiet _ _ rfl, fun answer _ => ?_⟩
    cases answer with
    | error message =>
      exact ⟨_, List.append_assoc _ _ _, by simp [ServiceCall.isQuiet], Or.inl ⟨message, rfl⟩⟩
    | ok nonce =>
      refine ⟨hquiet _ _ rfl, fun answer _ => ?_⟩
      rw [List.append_assoc, List.append_assoc]
      cases answer with
      | error message =>
        exact ⟨_, rfl, by simp [ServiceCall.isQuiet], Or.inl ⟨message, rfl⟩⟩
      | ok _ => exact ⟨_, rfl, by simp [ServiceCall.isQuiet], Or.inr ⟨nonce, _, rfl, rfl, rfl⟩⟩

/-- A request is asked under any contract that allows the preparations everywhere, and the message
once it is signed. -/
theorem ask_meets {C : Contract ServiceCall.Answer} {α : Type} {request : KernelRequest}
    {read : Response → Except ParserError α} {before : List ServiceEvent}
    (hquiet : ∀ h c, c.isQuiet = true → C.gate h c)
    (hsend : ∀ signed : SignedRequest, signed.IsFor J request → ∀ h,
      Signed authority signed.message before signed h → C.gate h (.send signed)) :
    (ask J authority request read).Meets C (Asked J before request read) before := by
  unfold ask withBody
  split
  case h_1 message hbody =>
    exact ⟨[], [], by simp, .notWritten message hbody, by simp⟩
  case h_2 body hbody =>
    refine ⟨hquiet _ _ rfl, fun requestId _ => ⟨hquiet _ _ rfl, fun sinceEpoch _ =>
      (build_meets hquiet).bind ?_⟩⟩
    rintro h result ⟨quiet, rfl, hmem, hresult⟩
    have hprepared : ∀ e ∈ [⟨.newUuid, requestId⟩, ⟨.clock, sinceEpoch⟩] ++ quiet,
        e.1.isQuiet = true := by simpa [ServiceCall.isQuiet] using hmem
    obtain ⟨message, rfl⟩ | ⟨nonce, signed, hsigned, rfl, hsteps⟩ := hresult
    · exact ⟨_, [], hprepared, .notSent message, by simp⟩
    · have hfor : signed.IsFor J request := by
        rw [SignedRequest.IsFor, KernelRequest.message, hbody, hsigned]
        rfl
      refine ⟨hsend signed hfor _ ⟨requestId, sinceEpoch, nonce, by rw [hsigned]; rfl,
        by simp [hsteps, hsigned]⟩, fun answer _ => ?_⟩
      cases answer with
      | error message => exact ⟨_, _, hprepared, .notAnswered signed message hfor, by simp⟩
      | ok response => exact ⟨_, _, hprepared, .answered signed response hfor, by simp⟩

/-! ## Work passes -/

variable (J)

/-- The exchanges behind one event of a work pass. -/
def Spoken : PassEvent → List ServiceEvent → Prop
  | ⟨.eligibleRoutes, answer⟩, events =>
    Exchanged J .eligibleRoutes (parseEligibleRoutes J) answer events
  | ⟨.proposeClaim routeId leaseSeconds, answer⟩, events =>
    Exchanged J (.proposeClaim routeId leaseSeconds) (parseClaimResponse J) answer events
  | ⟨.routedRequest routeId, answer⟩, events =>
    Exchanged J (.routedRequest routeId) (parseRoutedRequestResponse J) answer events
  | ⟨.completeClaim claimId fencingToken, answer⟩, events =>
    Exchanged J (.completeClaim claimId fencingToken) (parseCompleteResponse J) answer events
  | ⟨.submitRequest action scope, answer⟩, events =>
    Exchanged J (.submitRequest action scope)
      (fun response => KernelClient.submitRequest (.response response.status)) answer events
  | ⟨.parseOnce version source, answer⟩, events => events = [⟨.parseOnce version source, answer⟩]

/-- What the process has exchanged last is what the events of a work pass stand for. -/
def EndsWithPass (pass : List PassEvent) (history : List ServiceEvent) : Prop :=
  ∃ earlier parts, List.Forall₂ (Spoken J) pass parts ∧
    conversation history = earlier ++ parts.flatten

variable {J}

/-- A pass begins anywhere. -/
theorem endsWithPass_nil (history : List ServiceEvent) : EndsWithPass J [] history :=
  ⟨conversation history, [], .nil, by simp⟩

/-- One more event of a pass, with its exchanges. -/
theorem EndsWithPass.snoc {pass : List PassEvent} {history events : List ServiceEvent}
    {e : PassEvent} (h : EndsWithPass J pass history) (he : Spoken J e events)
    {history' : List ServiceEvent}
    (hhistory : conversation history' = conversation history ++ events) :
    EndsWithPass J (pass ++ [e]) history' := by
  obtain ⟨earlier, parts, hparts, heq⟩ := h
  exact ⟨earlier, parts ++ [events], List.rel_append hparts (.cons he .nil),
    by simp [hhistory, heq]⟩

/-- What a request adds to the conversation. -/
theorem Asked.conversation_eq {α : Type} {request : KernelRequest}
    {read : Response → Except ParserError α} {answer : Except ParserError α}
    {before history : List ServiceEvent} (h : Asked J before request read history answer) :
    ∃ events, Exchanged J request read answer events ∧
      conversation history = conversation before ++ events := by
  obtain ⟨quiet, events, hquiet, hevents, rfl⟩ := h
  exact ⟨events, hevents, by simp [conversation_quiet hquiet, hevents.conversation_eq]⟩

/-! ## The lease -/

variable (J)

/-- The lease that an event grants, if it is an enrollment or a renewal that succeeds. -/
def grantedBy : ServiceEvent → Option InstanceLease
  | ⟨.submitEnrollment _ _, .ok enrolled⟩ => some ⟨enrolled.leaseRevision, enrolled.leaseExpiresAt⟩
  | ⟨.send signed, .ok response⟩ =>
    if signed.parts.pathAndQuery = renewInstancePath then
      match parseRenewalResponse J response with
      | .ok renewed => some ⟨renewed.leaseRevision, renewed.leaseExpiresAt⟩
      | .error _ => none
    else none
  | _ => none

/-- The lease that was granted last. -/
def grantedLease (history : List ServiceEvent) : Option InstanceLease :=
  (history.filterMap (grantedBy J)).getLast?

variable {J}

/-- Events that grant nothing leave the lease as it is. -/
theorem grantedLease_append {history events : List ServiceEvent}
    (h : ∀ e ∈ events, grantedBy J e = none) :
    grantedLease J (history ++ events) = grantedLease J history := by
  rw [grantedLease, List.filterMap_append, List.filterMap_eq_nil_iff.mpr h, List.append_nil]
  rfl

/-- A grant is the last one. -/
theorem grantedLease_concat {history : List ServiceEvent} {e : ServiceEvent}
    {lease : InstanceLease} (h : grantedBy J e = some lease) :
    grantedLease J (history ++ [e]) = some lease := by
  simp [grantedLease, List.filterMap_append, h]

/-- Preparations grant nothing. -/
theorem grantedBy_quiet {e : ServiceEvent} (h : e.1.isQuiet = true) : grantedBy J e = none := by
  obtain ⟨c, a⟩ := e
  cases c <;> simp_all [ServiceCall.isQuiet, grantedBy]

/-- Only a renewal is sent to the path of renewals. -/
theorem KernelRequest.path_ne {request : KernelRequest}
    (h : ∀ expectedRevision, request ≠ .renewLease expectedRevision) :
    request.pathAndQuery ≠ renewInstancePath := by
  intro hpath
  have hkind : request.pathAndQuery[5]? = request.kind.2 := by cases request <;> rfl
  have hletter : request.kind.2 = some 'n' := by rw [← hkind, hpath]; rfl
  cases request with
  | renewLease expectedRevision => exact h expectedRevision rfl
  | _ => simp [kind] at hletter

/-- A signed request has the path of its request. -/
theorem SignedRequest.IsFor.pathAndQuery_eq {signed : SignedRequest} {request : KernelRequest}
    (h : signed.IsFor J request) : signed.parts.pathAndQuery = request.pathAndQuery :=
  (KernelRequest.message_eq_ok_iff.mp h).2.1

/-- Asking for anything but a renewal leaves the lease as it is. -/
theorem Asked.grantedLease_eq {α : Type} {request : KernelRequest}
    {read : Response → Except ParserError α} {answer : Except ParserError α}
    {before history : List ServiceEvent} (h : Asked J before request read history answer)
    (hrequest : ∀ expectedRevision, request ≠ .renewLease expectedRevision) :
    grantedLease J history = grantedLease J before := by
  obtain ⟨quiet, events, hquiet, hevents, rfl⟩ := h
  have hnone : ∀ signed : SignedRequest, signed.IsFor J request →
      ∀ answer, grantedBy J ⟨.send signed, answer⟩ = none := by
    intro signed hsigned answer
    have hpath : signed.parts.pathAndQuery ≠ renewInstancePath := by
      rw [hsigned.pathAndQuery_eq]
      exact KernelRequest.path_ne hrequest
    cases answer with
    | error message => rfl
    | ok response => exact if_neg hpath
  rw [List.append_assoc, grantedLease_append]
  intro e he
  rcases List.mem_append.mp he with he | he
  · exact grantedBy_quiet (hquiet e he)
  · cases hevents with
    | answered signed response hsigned =>
      rw [List.mem_singleton.mp he]
      exact hnone signed hsigned _
    | notAnswered signed message hsigned =>
      rw [List.mem_singleton.mp he]
      exact hnone signed hsigned _
    | _ => exact absurd he List.not_mem_nil

/-- A renewal leaves what its answer makes of the lease. -/
theorem Asked.grantedLease_renewal {expectedRevision : Int64} {before history : List ServiceEvent}
    {answer : Except ParserError RenewedLease} {lease : InstanceLease}
    (h : Asked J before (.renewLease expectedRevision) (parseRenewalResponse J) history answer)
    (hlease : grantedLease J before = some lease) :
    grantedLease J history = some (lease.answered answer) := by
  obtain ⟨quiet, events, hquiet, hevents, rfl⟩ := h
  have hprepared : grantedLease J (before ++ quiet) = some lease := by
    rw [grantedLease_append fun e he => grantedBy_quiet (hquiet e he), hlease]
  cases hevents with
  | answered signed response hsigned =>
    have hpath : signed.parts.pathAndQuery = renewInstancePath := hsigned.pathAndQuery_eq
    cases hread : parseRenewalResponse J response with
    | ok renewed =>
      apply grantedLease_concat
      rw [grantedBy, if_pos hpath, hread]
      rfl
    | error error =>
      rw [grantedLease_append, hprepared]
      · rfl
      · rintro e he
        rw [List.mem_singleton.mp he, grantedBy, if_pos hpath, hread]
  | notAnswered signed message hsigned =>
    rw [grantedLease_append, hprepared]
    · rfl
    · intro e he
      rw [List.mem_singleton.mp he]
      rfl
  | _ =>
    rw [List.append_nil, hprepared]
    rfl

end Pf2eParser
