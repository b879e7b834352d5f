import Pf2eParser.Kernel
import Pf2eParser.Renewal
import Pf2eParser.Service.Requests

/-!
# What the service makes of the kernel's answers

The readers of `claims.rs`, `routes.rs`, `routed_request.rs`, `subscriptions.rs` and
`instance_lease.rs`: each looks at the status first and reads the JSON body only behind a success.
The JSON reader is as little a part of the repository as the writer.  `KernelJson` takes both, with
what the reader makes of the bytes of a body as it comes.
-/

namespace Pf2eParser

open Text

/-- An answer of the kernel. -/
structure Response where
  status : UInt16
  body : List UInt8
  deriving DecidableEq

/-- A subscription, as the kernel records it. -/
structure Subscription where
  id : Str
  serviceId : Str
  eventType : Str
  createdAt : Int64
  disabledAt : Option Int64
  active : Bool
  deriving DecidableEq

/-- `serde_json`: the writer of the requests, and `from_slice` at the types that the kernel answers
with; an error is known by the text it displays. -/
structure KernelJson where
  writer : JsonWriter
  eligibleRoutes : List UInt8 → Except Str (List EligibleRoute)
  workClaim : List UInt8 → Except Str WorkClaim
  routedRequest : List UInt8 → Except Str RoutedRequest
  subscriptions : List UInt8 → Except Str (List Subscription)
  subscription : List UInt8 → Except Str Subscription
  renewedLease : List UInt8 → Except Str RenewedLease

/-- A body that cannot be read is a malformed response. -/
def readBody {α : Type} (decode : List UInt8 → Except Str α) (body : List UInt8) :
    Except ParserError α :=
  match decode body with
  | .ok a => .ok a
  | .error message => .error (.malformedResponse message)

/-- A response with a body behind one status, and none behind any other. -/
def readOnly {α : Type} (success : UInt16) (decode : List UInt8 → Except Str α)
    (response : Response) : Except ParserError α :=
  if response.status = success then readBody decode response.body
  else .error (.unexpectedStatus response.status)

variable (J : KernelJson)

/-- `parse_eligible_routes`. -/
def parseEligibleRoutes : Response → Except ParserError (List EligibleRoute) :=
  readOnly 200 J.eligibleRoutes

/-- `parse_claim_response`: a lost race and a route of another service are no errors. -/
def parseClaimResponse (response : Response) : Except ParserError ClaimOutcome :=
  if response.status = 201 then (readBody J.workClaim response.body).map .claimed
  else if response.status = 409 then .ok .alreadyClaimed
  else if response.status = 404 then .ok .routeNotFound
  else .error (.unexpectedStatus response.status)

/-- `parse_routed_request_response`. -/
def parseRoutedRequestResponse (response : Response) : Except ParserError RoutedRequestOutcome :=
  if response.status = 200 then (readBody J.routedRequest response.body).map .found
  else if response.status = 404 then .ok .notFound
  else .error (.unexpectedStatus response.status)

/-- `parse_complete_response`: a stale fencing token and an unknown claim are no errors. -/
def parseCompleteResponse (response : Response) : Except ParserError CompleteOutcome :=
  if response.status = 200 then (readBody J.workClaim response.body).map .completed
  else if response.status = 409 then .ok .fenced
  else if response.status = 404 then .ok .notFound
  else .error (.unexpectedStatus response.status)

/-- `parse_subscription_list`. -/
def parseSubscriptionList : Response → Except ParserError (List Subscription) :=
  readOnly 200 J.subscriptions

/-- `parse_create_subscription_response`. -/
def parseCreateSubscriptionResponse : Response → Except ParserError Subscription :=
  readOnly 201 J.subscription

/-- `parse_renewal_response`. -/
def parseRenewalResponse : Response → Except ParserError RenewedLease :=
  readOnly 200 J.renewedLease

variable {J} {response : Response}

/-- A body that was read has been decoded. -/
theorem readBody_eq_ok_iff {α : Type} {decode : List UInt8 → Except Str α} {body : List UInt8}
    {a : α} : readBody decode body = .ok a ↔ decode body = .ok a := by
  unfold readBody
  split <;> simp [*]

/-- A response is read behind its one status, and its body was decoded. -/
theorem readOnly_eq_ok_iff {α : Type} {success : UInt16} {decode : List UInt8 → Except Str α}
    {a : α} : readOnly success decode response = .ok a ↔
      response.status = success ∧ decode response.body = .ok a := by
  unfold readOnly
  split
  case isTrue hstatus => simp [readBody_eq_ok_iff, hstatus]
  case isFalse hstatus => simp [hstatus]

/-- A body that was read as the argument of a constructor was decoded. -/
theorem map_readBody_eq_ok {α β : Type} {decode : List UInt8 → Except Str α} {body : List UInt8}
    {f : α → β} {b : β} (h : (readBody decode body).map f = .ok b) :
    ∃ a, decode body = .ok a ∧ f a = b := by
  cases hread : readBody decode body with
  | error error => simp [hread, Except.map] at h
  | ok a =>
    rw [hread] at h
    exact ⟨a, readBody_eq_ok_iff.mp hread, Except.ok.inj h⟩

/-- A claim was granted with the status 201. -/
theorem parseClaimResponse_claimed {claim : WorkClaim}
    (h : parseClaimResponse J response = .ok (.claimed claim)) :
    response.status = 201 ∧ J.workClaim response.body = .ok claim := by
  unfold parseClaimResponse at h
  split at h
  case isTrue hstatus =>
    obtain ⟨claim', hdecode, hclaim⟩ := map_readBody_eq_ok h
    obtain rfl := ClaimOutcome.claimed.inj hclaim
    exact ⟨hstatus, hdecode⟩
  case isFalse =>
    split at h
    · simp at h
    · split at h <;> simp at h

/-- A request was found with the status 200. -/
theorem parseRoutedRequestResponse_found {request : RoutedRequest}
    (h : parseRoutedRequestResponse J response = .ok (.found request)) :
    response.status = 200 ∧ J.routedRequest response.body = .ok request := by
  unfold parseRoutedRequestResponse at h
  split at h
  case isTrue hstatus =>
    obtain ⟨request', hdecode, hrequest⟩ := map_readBody_eq_ok h
    obtain rfl := RoutedRequestOutcome.found.inj hrequest
    exact ⟨hstatus, hdecode⟩
  case isFalse => split at h <;> simp at h

/-- A completed claim was reported with the status 200. -/
theorem parseCompleteResponse_completed {response : Response} {completed : WorkClaim}
    (h : parseCompleteResponse J response = .ok (.completed completed)) :
    response.status = 200 ∧ J.workClaim response.body = .ok completed := by
  unfold parseCompleteResponse at h
  split at h
  case isTrue hstatus =>
    obtain ⟨completed', hdecode, hcompleted⟩ := map_readBody_eq_ok h
    obtain rfl := CompleteOutcome.completed.inj hcompleted
    exact ⟨hstatus, hdecode⟩
  case isFalse =>
    split at h
    · simp at h
    · split at h <;> simp at h

/-- A submission is accepted with the status 201. -/
theorem submitRequest_response_eq_ok {status : UInt16} {u : Unit}
    (h : KernelClient.submitRequest (.response status) = .ok u) : status = 201 := by
  by_contra hstatus
  rw [KernelClient.submitRequest, if_neg hstatus] at h
  simp at h

end Pf2eParser
