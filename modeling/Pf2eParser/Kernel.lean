import Pf2eParser.Domain
import Pf2eParser.Interaction

/-!
# The kernel port

The messages that the service exchanges with the kernel (`routes.rs`, `claims.rs`,
`routed_request.rs`), its errors (`error.rs`), and the calls that one work pass makes of its two
collaborators, the kernel port and the candidate repository.  A work pass is an interactive program
over `PortCall`.
-/

namespace Pf2eParser

open Text Interaction

/-- A route that this service may claim. -/
structure EligibleRoute where
  routeId : Str
  requestId : Str
  subscriptionId : Str
  destinationServiceId : Str
  createdAt : Int64
  deriving DecidableEq

/-- A claim on a route, as the kernel records it. -/
structure WorkClaim where
  claimId : Str
  routeId : Str
  workerServiceId : Str
  workerInstanceId : Str
  fencingToken : Int64
  status : Str
  claimedAt : Int64
  leaseExpiresAt : Int64
  deriving DecidableEq

/-- The answers to a claim attempt. -/
inductive ClaimOutcome where
  | claimed (claim : WorkClaim)
  | alreadyClaimed
  | routeNotFound
  deriving DecidableEq

/-- The answers to the completion of a claim. -/
inductive CompleteOutcome where
  | completed (claim : WorkClaim)
  | fenced
  | notFound
  deriving DecidableEq

/-- The request behind a route. -/
structure RoutedRequest where
  requestId : Str
  sourceServiceId : Str
  action : Str
  scope : Str
  artifactSchemaVersionId : Str
  permissionPolicySchemaVersionId : Str
  acceptedAt : Int64
  deriving DecidableEq

/-- The answers to the question for the request behind a route. -/
inductive RoutedRequestOutcome where
  | found (request : RoutedRequest)
  | notFound
  deriving DecidableEq

/-- The failures of the service's own database. -/
inductive DatabaseError where
  | missingEnvironment
  | emptyUrl
  | invalidPostgresConfig
  | pool (message : Str)
  | query (message : Str)
  deriving DecidableEq

/-- Every failure of the service.  The errors of other crates are known by the text they display. -/
inductive ParserError where
  | missingEnv (name : Str)
  | invalidServiceId
  | client (message : Str)
  | unexpectedStatus (status : UInt16)
  | malformedResponse (message : Str)
  | caCertificateUnreadable (message : Str)
  | enrollmentTokenUnreadable (message : Str)
  | invalidEnrollmentChallenge
  | malformedScope (reason : Str)
  | unknownAction (action : Str)
  | admissionNotAccepted (status : UInt16)
  | database (error : DatabaseError)
  | candidate (error : CandidateError)
  deriving DecidableEq

/-- The calls of a work pass: the methods of `KernelPort`, and `CandidateRepository::parse_once`. -/
inductive PortCall where
  | eligibleRoutes
  | proposeClaim (routeId : Str) (leaseSeconds : Int64)
  | routedRequest (routeId : Str)
  | completeClaim (claimId : Str) (fencingToken : Int64)
  | submitRequest (action scope : Str)
  | parseOnce (parserVersion : Str) (source : SourceReference)
  deriving DecidableEq

/-- What each call is answered with. -/
abbrev PortCall.Answer : PortCall → Type
  | eligibleRoutes => Except ParserError (List EligibleRoute)
  | proposeClaim _ _ => Except ParserError ClaimOutcome
  | routedRequest _ => Except ParserError RoutedRequestOutcome
  | completeClaim _ _ => Except ParserError CompleteOutcome
  | submitRequest _ _ => Except ParserError Unit
  | parseOnce _ _ => ParseResult

/-- A work pass, or a part of one. -/
abbrev Pass (ρ : Type) := Prog PortCall PortCall.Answer ρ

/-- One call of a work pass with its answer. -/
abbrev PassEvent := Event PortCall.Answer

/-- How the signed exchange behind a submission ends. -/
inductive SubmitExchange where
  /-- The body could not be serialized. -/
  | unserializable (message : Str)
  /-- The client could not sign or send the request. -/
  | clientError (message : Str)
  /-- The kernel answered. -/
  | response (status : UInt16)
  deriving DecidableEq

/-- `KernelClient::submit_request`: only the status `201 Created` is an acceptance. -/
def KernelClient.submitRequest : SubmitExchange → Except ParserError Unit
  | .unserializable message => .error (.malformedResponse message)
  | .clientError message => .error (.client message)
  | .response status => if status = 201 then .ok () else .error (.admissionNotAccepted status)

/-- The kernel client never answers a submission with `UnknownAction`. -/
theorem KernelClient.submitRequest_ne_unknownAction (exchange : SubmitExchange) (action : Str) :
    KernelClient.submitRequest exchange ≠ .error (.unknownAction action) := by
  cases exchange with
  | unserializable message => simp [KernelClient.submitRequest]
  | clientError message => simp [KernelClient.submitRequest]
  | response status =>
    simp only [KernelClient.submitRequest]
    split <;> simp

end Pf2eParser
