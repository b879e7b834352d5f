import Pf2eParser.Interaction.Handler
import Pf2eParser.Service.Responses

/-!
# The kernel client

`kernel_client.rs` over everything that the process calls.  Each method has its body written,
builds a request with an identifier of its own and the current time, has it signed with a nonce of
its own, sends it, and reads the answer.  The crate behind it validates, signs and transmits the
requests; the model takes what it answers as it comes.

`ServiceCall` is the interface of the whole process: its environment and files, the clock, the
crates it uses, its repository and its heartbeat.
-/

namespace Pf2eParser

open Text Interaction

/-- `RequestParts`: what is signed of a request. -/
structure RequestParts where
  method : Str
  authority : Str
  pathAndQuery : Str
  contentType : Str
  body : Str
  requestId : Uuid
  deriving DecidableEq

/-- `SignedRequest`, without its signature: the parts, the window of its validity and the nonce. -/
structure SignedRequest where
  parts : RequestParts
  created : Int64
  expires : Int64
  nonce : Str
  deriving DecidableEq

/-- A challenge of `CHALLENGE_LENGTH` bytes. -/
abbrev Challenge := List.Vector UInt8 32

/-- `EnrollmentSubmission`, without its signature. -/
structure EnrollmentSubmission where
  challenge : Challenge
  endpoint : Str
  podUid : Str
  workloadToken : Str
  deriving DecidableEq

/-- What the process reads of `EnrolledInstance`. -/
structure EnrolledInstance where
  leaseExpiresAt : Int64
  leaseRevision : Int64
  deriving DecidableEq

/-- The calls of the process. -/
inductive ServiceCall where
  /-- `env::var`; a value that is not Unicode is as good as none. -/
  | envVar (name : Str)
  | readFile (path : Str)
  | readFileToString (path : Str)
  /-- The seconds from the epoch to now. -/
  | clock
  | sleep (seconds : UInt64)
  /-- `Client::new`, and `Client::with_extra_root_certificate`. -/
  | newClient (extraRootCertificate : Option (List UInt8))
  | requestEnrollmentChallenge (kernel podUid workloadToken : Str)
  | signEnrollment (submission : EnrollmentSubmission)
  | submitEnrollment (kernel : Str) (submission : EnrollmentSubmission)
  /-- `Uuid::new_v4`. -/
  | newUuid
  /-- `RequestParts::new`. -/
  | newRequestParts (parts : RequestParts)
  | generateNonce
  /-- `SignedRequest::sign`. -/
  | signRequest (request : SignedRequest)
  /-- `Client::send`. -/
  | send (request : SignedRequest)
  /-- The URL is read as the configuration of a connection. -/
  | parsePostgresUrl (url : Str)
  /-- `Pool::new`. -/
  | newPool (url : Str)
  /-- `Pool::get`. -/
  | getConnection
  | simpleQuery (query : Str)
  /-- `batch_execute` of the script `0001_init.sql`. -/
  | batchExecuteInit
  | parseOnce (parserVersion : Str) (source : SourceReference)
  /-- `Heartbeat::record_success`. -/
  | recordSuccess (instant : Int64)
  deriving DecidableEq

/-- What each call is answered with; the errors of other crates are known by the text they display.
-/
abbrev ServiceCall.Answer : ServiceCall → Type
  | envVar _ => Option Str
  | readFile _ => Except Str (List UInt8)
  | readFileToString _ => Except Str Str
  | clock => Option UInt64
  | sleep _ => Unit
  | newClient _ => Except Str Unit
  | requestEnrollmentChallenge _ _ _ => Except Str Challenge
  | signEnrollment _ => Except Str Unit
  | submitEnrollment _ _ => Except Str EnrolledInstance
  | newUuid => Uuid
  | newRequestParts _ => Except Str Unit
  | generateNonce => Except Str Str
  | signRequest _ => Except Str Unit
  | send _ => Except Str Response
  | parsePostgresUrl _ => Except Str Unit
  | newPool _ => Except Str Unit
  | getConnection => Except Str Unit
  | simpleQuery _ => Except Str Unit
  | batchExecuteInit => Except Str Unit
  | parseOnce _ _ => ParseResult
  | recordSuccess _ => Unit

/-- A part of the process. -/
abbrev Service (ρ : Type) := Prog ServiceCall ServiceCall.Answer ρ

/-- One call of the process with its answer. -/
abbrev ServiceEvent := Event ServiceCall.Answer

/-- `unix_time`. -/
def unixTime (sinceEpoch : Option UInt64) : Int64 :=
  let seconds := sinceEpoch.getD 0
  if seconds.toNat < 2 ^ 63 then seconds.toInt64 else Int64.maxValue

/-- `SIGNATURE_VALIDITY_SECONDS`. -/
def signatureValiditySeconds : Int64 := 30

/-- The content type of every request. -/
def applicationJson : Str := "application/json".toList

/-- What the kernel sees of a signed request. -/
def SignedRequest.message (request : SignedRequest) : Message :=
  ⟨request.parts.method, request.parts.pathAndQuery, request.parts.body⟩

/-- `sign`: sign the parts with a fresh nonce. -/
def sign (parts : RequestParts) (now : Int64) : Service (Except ParserError SignedRequest) :=
  .call .generateNonce fun
    | .error message => .ret (.error (.client message))
    | .ok nonce =>
      .call (.signRequest ⟨parts, now, now + signatureValiditySeconds, nonce⟩) fun
        | .error message => .ret (.error (.client message))
        | .ok () => .ret (.ok ⟨parts, now, now + signatureValiditySeconds, nonce⟩)

/-- Validate the parts of a request, and sign them. -/
def build (parts : RequestParts) (now : Int64) : Service (Except ParserError SignedRequest) :=
  .call (.newRequestParts parts) fun
    | .error message => .ret (.error (.client message))
    | .ok () => sign parts now

/-- `build_get`. -/
def buildGet (authority path : Str) (requestId : Uuid) (now : Int64) :
    Service (Except ParserError SignedRequest) :=
  build ⟨methodGet, authority, path, applicationJson, [], requestId⟩ now

/-- `build_post`. -/
def buildPost (authority path body : Str) (requestId : Uuid) (now : Int64) :
    Service (Except ParserError SignedRequest) :=
  build ⟨methodPost, authority, path, applicationJson, body, requestId⟩ now

/-- Send a request, and read the answer. -/
def sendSigned {α : Type} (read : Response → Except ParserError α) (signed : SignedRequest) :
    Service (Except ParserError α) :=
  .call (.send signed) fun
    | .error message => .ret (.error (.client message))
    | .ok response => .ret (read response)

/-- Build a request with a fresh identifier and the current time, send it, and read the answer. -/
def exchange {α : Type} (request : Uuid → Int64 → Service (Except ParserError SignedRequest))
    (read : Response → Except ParserError α) : Service (Except ParserError α) :=
  .call .newUuid fun requestId =>
    .call .clock fun sinceEpoch =>
      (request requestId (unixTime sinceEpoch)).andThen (sendSigned read)

/-- Go on with a body that the writer has made; a body that it cannot make is reported as a
malformed response. -/
def withBody {α : Type} (body : Except Str Str) (rest : Str → Service (Except ParserError α)) :
    Service (Except ParserError α) :=
  match body with
  | .error message => .ret (.error (.malformedResponse message))
  | .ok body => rest body

variable (J : KernelJson) (authority : Str)

/-- The signed request carries this one. -/
def SignedRequest.IsFor (signed : SignedRequest) (request : KernelRequest) : Prop :=
  request.message J.writer = .ok signed.message

/-! ## The kernel port -/

/-- `KernelClient::eligible_routes`. -/
def KernelPort.eligibleRoutes : Service (Except ParserError (List EligibleRoute)) :=
  exchange (buildGet authority eligibleRoutesPath) (parseEligibleRoutes J)

/-- `KernelClient::propose_claim`. -/
def KernelPort.proposeClaim (routeId : Str) (leaseSeconds : Int64) :
    Service (Except ParserError ClaimOutcome) :=
  withBody (J.writer.toVec (claimRequest leaseSeconds)) fun body =>
    exchange (buildPost authority (claimsPath routeId) body) (parseClaimResponse J)

/-- `KernelClient::routed_request`. -/
def KernelPort.routedRequest (routeId : Str) : Service (Except ParserError RoutedRequestOutcome) :=
  exchange (buildGet authority (routedRequestPath routeId)) (parseRoutedRequestResponse J)

/-- `KernelClient::complete_claim`. -/
def KernelPort.completeClaim (claimId : Str) (fencingToken : Int64) :
    Service (Except ParserError CompleteOutcome) :=
  withBody (J.writer.toVec (fencedActionRequest fencingToken)) fun body =>
    exchange (buildPost authority (completePath claimId) body) (parseCompleteResponse J)

/-- `KernelClient::submit_request`. -/
def KernelPort.submitRequest (action scope : Str) : Service (Except ParserError Unit) :=
  withBody (J.writer.toVec (submittedRequest action scope)) fun body =>
    exchange (buildPost authority requestsPath body)
      fun response => KernelClient.submitRequest (.response response.status)

/-- The kernel port of the process, together with its candidate repository. -/
def kernelPort : Handler PortCall.Answer ServiceCall.Answer
  | .eligibleRoutes => KernelPort.eligibleRoutes J authority
  | .proposeClaim routeId leaseSeconds => KernelPort.proposeClaim J authority routeId leaseSeconds
  | .routedRequest routeId => KernelPort.routedRequest J authority routeId
  | .completeClaim claimId fencingToken => KernelPort.completeClaim J authority claimId fencingToken
  | .submitRequest action scope => KernelPort.submitRequest J authority action scope
  | .parseOnce parserVersion source => .call (.parseOnce parserVersion source) .ret

/-! ## The other methods -/

/-- `KernelClient::renew_lease`. -/
def KernelClient.renewLease (expectedRevision : Int64) :
    Service (Except ParserError RenewedLease) :=
  exchange (buildPost authority renewInstancePath (renewalRequestBody J.writer expectedRevision))
    (parseRenewalResponse J)

/-- What `renew_lease_if_due` calls. -/
def leasePort : Handler LeaseCall.Answer ServiceCall.Answer
  | .unixTime => .call .clock fun sinceEpoch => .ret (unixTime sinceEpoch)
  | .renewLease expectedRevision => KernelClient.renewLease J authority expectedRevision

/-- `KernelClient::active_subscriptions`. -/
def KernelClient.activeSubscriptions : Service (Except ParserError (List Subscription)) :=
  exchange (buildGet authority activeSubscriptionsPath) (parseSubscriptionList J)

/-- `KernelClient::create_subscription`. -/
def KernelClient.createSubscription (eventType : Str) : Service (Except ParserError Subscription) :=
  withBody (J.writer.toVec (createSubscriptionRequest eventType)) fun body =>
    exchange (buildPost authority subscriptionsPath body) (parseCreateSubscriptionResponse J)

/-- `KernelClient::ensure_subscription`. -/
def KernelClient.ensureSubscription (eventType : Str) : Service (Except ParserError Unit) :=
  (activeSubscriptions J authority).andThen fun subscriptions =>
    if subscriptions.any fun subscription => subscription.eventType = eventType then .ret (.ok ())
    else (createSubscription J authority eventType).andThen fun _ => .ret (.ok ())

/-- The URL of the kernel. -/
def kernelUrl : Str := "https://".toList ++ authority

/-- `KernelClient::request_challenge`. -/
def KernelClient.requestChallenge (podUid workloadToken : Str) :
    Service (Except ParserError Challenge) :=
  .call (.requestEnrollmentChallenge (kernelUrl authority) podUid workloadToken) fun
    | .error message => .ret (.error (.client message))
    | .ok challenge => .ret (.ok challenge)

/-- `KernelClient::enroll`. -/
def KernelClient.enroll (submission : EnrollmentSubmission) :
    Service (Except ParserError EnrolledInstance) :=
  .call (.signEnrollment submission) fun
    | .error message => .ret (.error (.client message))
    | .ok () =>
      .call (.submitEnrollment (kernelUrl authority) submission) fun
        | .error message => .ret (.error (.client message))
        | .ok enrolled => .ret (.ok enrolled)

end Pf2eParser
