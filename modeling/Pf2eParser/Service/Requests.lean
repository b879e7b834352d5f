import Pf2eParser.Codec
import Mathlib.Data.Set.Operations

/-!
# What the service asks of the kernel

The requests that `kernel_client.rs` sends, with the paths and the JSON bodies that it has written
for them.  A structure is serialized with its fields in order; a `json!` object has its keys sorted.
The JSON writer is not part of the repository.  `JsonWriter` takes what it makes of an object as it
comes, and `JsonWriter.Lawful` is what the service relies on.

The kernel has only the method, the path and the body to go by.  `requests_told_apart` says that
they tell all requests apart, whatever texts the identifiers, the action and the scope are.
-/

namespace Pf2eParser

open Text Codec

/-- `ELIGIBLE_ROUTES_PATH`. -/
def eligibleRoutesPath : Str := "/v1/routes/eligible".toList

/-- The path under which a route is claimed. -/
def claimsPath (routeId : Str) : Str := "/v1/routes/".toList ++ routeId ++ "/claims".toList

/-- The path of the request behind a route. -/
def routedRequestPath (routeId : Str) : Str := "/v1/routes/".toList ++ routeId ++ "/request".toList

/-- The path under which a claim is completed. -/
def completePath (claimId : Str) : Str := "/v1/claims/".toList ++ claimId ++ "/complete".toList

/-- `REQUESTS_PATH`. -/
def requestsPath : Str := "/v1/requests".toList

/-- `RENEW_INSTANCE_PATH`. -/
def renewInstancePath : Str := "/v1/instances/renew".toList

/-- `SUBSCRIPTIONS_PATH`. -/
def subscriptionsPath : Str := "/v1/subscriptions".toList

/-- `ACTIVE_SUBSCRIPTIONS_PATH`. -/
def activeSubscriptionsPath : Str := "/v1/subscriptions?active=true".toList

/-- `NO_ARTIFACT_SCHEMA_VERSION_ID`. -/
def noArtifactSchemaVersionId : Str := "00000000-0000-0000-0000-000000000001".toList

/-- `NO_ARTIFACT_PERMISSION_POLICY_SCHEMA_VERSION_ID`. -/
def noArtifactPermissionPolicySchemaVersionId : Str :=
  "00000000-0000-0000-0000-000000000002".toList

/-! ## The bodies -/

/-- The fields of `ClaimRequest`. -/
def claimRequest (leaseSeconds : Int64) : JsonObject :=
  [("lease_seconds".toList, .number leaseSeconds)]

/-- The fields of `FencedActionRequest`. -/
def fencedActionRequest (fencingToken : Int64) : JsonObject :=
  [("fencing_token".toList, .number fencingToken)]

/-- The fields of `RenewInstanceRequest`. -/
def renewInstanceRequest (expectedRevision : Int64) : JsonObject :=
  [("expected_revision".toList, .number expectedRevision)]

/-- The fields of `CreateSubscriptionRequest`. -/
def createSubscriptionRequest (eventType : Str) : JsonObject :=
  [("event_type".toList, .text eventType)]

/-- The members of the object of `submit_request`. -/
def submittedRequest (action scope : Str) : JsonObject :=
  [("action".toList, .text action),
    ("artifact_schema_version_id".toList, .text noArtifactSchemaVersionId),
    ("permission_policy_schema_version_id".toList,
      .text noArtifactPermissionPolicySchemaVersionId),
    ("scope".toList, .text scope)]

/-- The JSON writer. -/
structure JsonWriter where
  /-- `serde_json::to_vec`; an error is known by the text it displays. -/
  toVec : JsonObject → Except Str Str
  /-- What `expect` says in `renewal_request_body`: the body always serializes. -/
  renewal_serializes : ∀ expectedRevision, ∃ body,
    toVec (renewInstanceRequest expectedRevision) = .ok body

/-- What the service relies on in the JSON writer: an object can be told from its text. -/
structure JsonWriter.Lawful (W : JsonWriter) : Prop where
  toVec_inj : ∀ object object' body, W.toVec object = .ok body → W.toVec object' = .ok body →
    object = object'

/-- Objects of texts and numbers always serialize. -/
def JsonWriter.Serializes (W : JsonWriter) : Prop :=
  ∀ object, ∃ body, W.toVec object = .ok body

/-- JSON objects without any insignificant whitespace. -/
def JsonWriter.reference : JsonWriter where
  toVec object := .ok (writeObject object)
  renewal_serializes _ := ⟨_, rfl⟩

/-- The reference writer is lawful. -/
theorem JsonWriter.reference_lawful : JsonWriter.reference.Lawful where
  toVec_inj _ _ _ h h' := writeObject_injective ((Except.ok.inj h).trans (Except.ok.inj h').symm)

/-- The reference writer can make every object. -/
theorem JsonWriter.reference_serializes : JsonWriter.reference.Serializes :=
  fun object => ⟨writeObject object, rfl⟩

variable (W : JsonWriter)

/-- `renewal_request_body`. -/
def renewalRequestBody (expectedRevision : Int64) : Str :=
  match h : W.toVec (renewInstanceRequest expectedRevision) with
  | .ok body => body
  | .error _ => absurd (W.renewal_serializes expectedRevision) (by simp [h])

/-- The body of a renewal is what the writer makes of its fields. -/
theorem toVec_renewInstanceRequest (expectedRevision : Int64) :
    W.toVec (renewInstanceRequest expectedRevision) =
      .ok (renewalRequestBody W expectedRevision) := by
  obtain ⟨body, hbody⟩ := W.renewal_serializes expectedRevision
  unfold renewalRequestBody
  split
  case h_1 h => exact h
  case h_2 h => simp [hbody] at h

example : renewalRequestBody .reference 3 = "\x7b\"expected_revision\":3\x7d".toList := by decide

/-! ## The messages -/

/-- The HTTP methods in use. -/
def methodGet : Str := "GET".toList

/-- The HTTP methods in use. -/
def methodPost : Str := "POST".toList

/-- What the kernel sees of a request. -/
structure Message where
  method : Str
  pathAndQuery : Str
  body : Str
  deriving DecidableEq

/-- The signed requests of `KernelClient`. -/
inductive KernelRequest where
  | eligibleRoutes
  | proposeClaim (routeId : Str) (leaseSeconds : Int64)
  | routedRequest (routeId : Str)
  | completeClaim (claimId : Str) (fencingToken : Int64)
  | submitRequest (action scope : Str)
  | renewLease (expectedRevision : Int64)
  | activeSubscriptions
  | createSubscription (eventType : Str)
  deriving DecidableEq

/-- The method of a request. -/
def KernelRequest.method : KernelRequest → Str
  | eligibleRoutes | routedRequest _ | activeSubscriptions => methodGet
  | _ => methodPost

/-- The path and the query of a request. -/
def KernelRequest.pathAndQuery : KernelRequest → Str
  | eligibleRoutes => eligibleRoutesPath
  | proposeClaim routeId _ => claimsPath routeId
  | routedRequest routeId => routedRequestPath routeId
  | completeClaim claimId _ => completePath claimId
  | submitRequest _ _ => requestsPath
  | renewLease _ => renewInstancePath
  | activeSubscriptions => activeSubscriptionsPath
  | createSubscription _ => subscriptionsPath

/-- The body of a request, if the writer can make it. -/
def KernelRequest.body : KernelRequest → Except Str Str
  | eligibleRoutes | routedRequest _ | activeSubscriptions => .ok []
  | proposeClaim _ leaseSeconds => W.toVec (claimRequest leaseSeconds)
  | completeClaim _ fencingToken => W.toVec (fencedActionRequest fencingToken)
  | submitRequest action scope => W.toVec (submittedRequest action scope)
  | renewLease expectedRevision => .ok (renewalRequestBody W expectedRevision)
  | createSubscription eventType => W.toVec (createSubscriptionRequest eventType)

variable {W} in
/-- A writer that can make every object can make every body. -/
theorem JsonWriter.Serializes.body (h : W.Serializes) (r : KernelRequest) :
    ∃ body, r.body W = .ok body := by
  cases r with
  | eligibleRoutes | routedRequest _ | activeSubscriptions | renewLease _ => exact ⟨_, rfl⟩
  | _ => exact h _

/-- The message that a request is sent as. -/
def KernelRequest.message (r : KernelRequest) : Except Str Message :=
  (r.body W).map fun body => ⟨r.method, r.pathAndQuery, body⟩

/-! ## Requests are told apart -/

variable {W}

/-- A message has the method, the path and the body of its request. -/
theorem KernelRequest.message_eq_ok_iff {r : KernelRequest} {message : Message} :
    r.message W = .ok message ↔ message.method = r.method ∧
      message.pathAndQuery = r.pathAndQuery ∧ r.body W = .ok message.body := by
  obtain ⟨method, pathAndQuery, body⟩ := message
  unfold KernelRequest.message
  cases r.body W with
  | error message => simp [Except.map]
  | ok written => simp [Except.map, eq_comm]

/-- The text between a fixed beginning and a fixed end can be read off. -/
theorem append_append_inj {front back s t : Str} (h : front ++ s ++ back = front ++ t ++ back) :
    s = t :=
  List.append_cancel_left (List.append_cancel_right h)

/-- The letters by which the kinds of messages are told apart: the first one of the method, and the
second one of the resource behind `/v1/`. -/
def Message.kind (message : Message) : Option Char × Option Char :=
  (message.method[0]?, message.pathAndQuery[5]?)

/-- The kind of the message for a request. -/
def KernelRequest.kind : KernelRequest → Option Char × Option Char
  | eligibleRoutes | routedRequest _ => (some 'G', some 'o')
  | proposeClaim _ _ => (some 'P', some 'o')
  | completeClaim _ _ => (some 'P', some 'l')
  | submitRequest _ _ => (some 'P', some 'e')
  | renewLease _ => (some 'P', some 'n')
  | activeSubscriptions => (some 'G', some 'u')
  | createSubscription _ => (some 'P', some 'u')

theorem KernelRequest.kind_message {r : KernelRequest} {message : Message}
    (h : r.message W = .ok message) : message.kind = r.kind := by
  obtain ⟨hmethod, hpath, -⟩ := message_eq_ok_iff.mp h
  unfold Message.kind
  rw [hmethod, hpath]
  cases r <;> rfl

/-- The list of routes is not the request behind a route. -/
theorem eligibleRoutesPath_ne (routeId : Str) : eligibleRoutesPath ≠ routedRequestPath routeId := by
  intro h
  have hsuffix : "/request".toList <:+ routedRequestPath routeId := List.suffix_append _ _
  rw [← h] at hsuffix
  exact absurd hsuffix (by decide)

/-- The method, the path and the body of a message determine the request. -/
theorem KernelRequest.message_inj (hW : W.Lawful) {r r' : KernelRequest} {message : Message}
    (h : r.message W = .ok message) (h' : r'.message W = .ok message) : r = r' := by
  have hkind : r.kind = r'.kind := (kind_message h).symm.trans (kind_message h')
  obtain ⟨-, hpath, hbody⟩ := message_eq_ok_iff.mp h
  obtain ⟨-, hpath', hbody'⟩ := message_eq_ok_iff.mp h'
  have hpaths : r.pathAndQuery = r'.pathAndQuery := hpath.symm.trans hpath'
  cases r with
  | eligibleRoutes =>
    cases r' with
    | eligibleRoutes => rfl
    | routedRequest routeId => exact absurd hpaths (eligibleRoutesPath_ne routeId)
    | _ => simp [kind] at hkind
  | proposeClaim routeId leaseSeconds =>
    cases r' with
    | proposeClaim routeId' leaseSeconds' =>
      have hseconds : leaseSeconds = leaseSeconds' := by
        simpa [claimRequest] using hW.toVec_inj _ _ _ hbody hbody'
      rw [append_append_inj hpaths, hseconds]
    | _ => simp [kind] at hkind
  | routedRequest routeId =>
    cases r' with
    | eligibleRoutes => exact absurd hpaths.symm (eligibleRoutesPath_ne routeId)
    | routedRequest routeId' => rw [append_append_inj hpaths]
    | _ => simp [kind] at hkind
  | completeClaim claimId fencingToken =>
    cases r' with
    | completeClaim claimId' fencingToken' =>
      have htoken : fencingToken = fencingToken' := by
        simpa [fencedActionRequest] using hW.toVec_inj _ _ _ hbody hbody'
      rw [append_append_inj hpaths, htoken]
    | _ => simp [kind] at hkind
  | submitRequest action scope =>
    cases r' with
    | submitRequest action' scope' =>
      obtain ⟨rfl, rfl⟩ : action = action' ∧ scope = scope' := by
        simpa [submittedRequest] using hW.toVec_inj _ _ _ hbody hbody'
      rfl
    | _ => simp [kind] at hkind
  | renewLease expectedRevision =>
    cases r' with
    | renewLease expectedRevision' =>
      have hfields := hW.toVec_inj _ _ _ ((toVec_renewInstanceRequest W _).trans hbody)
        ((toVec_renewInstanceRequest W _).trans hbody')
      obtain rfl : expectedRevision = expectedRevision' := by
        simpa [renewInstanceRequest] using hfields
      rfl
    | _ => simp [kind] at hkind
  | activeSubscriptions =>
    cases r' with
    | activeSubscriptions => rfl
    | _ => simp [kind] at hkind
  | createSubscription eventType =>
    cases r' with
    | createSubscription eventType' =>
      obtain rfl : eventType = eventType' := by
        simpa [createSubscriptionRequest] using hW.toVec_inj _ _ _ hbody hbody'
      rfl
    | _ => simp [kind] at hkind

/-- No two requests are sent as the same message. -/
theorem requests_told_apart (hW : W.Lawful) :
    Set.InjOn (KernelRequest.message W) {r | ∃ message, r.message W = .ok message} := by
  rintro r ⟨message, h⟩ r' - hr
  exact KernelRequest.message_inj hW h (hr ▸ h)

/-- The reference writer can make every body. -/
theorem requests_told_apart_reference : Function.Injective (KernelRequest.message .reference) := by
  have hwritten : ∀ r : KernelRequest, ∃ message, r.message .reference = .ok message := by
    intro r
    obtain ⟨body, hbody⟩ := JsonWriter.reference_serializes.body r
    rw [KernelRequest.message, hbody]
    exact ⟨_, rfl⟩
  intro r r' h
  exact requests_told_apart JsonWriter.reference_lawful (hwritten r) (hwritten r') h

end Pf2eParser
