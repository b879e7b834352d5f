import Pf2eParser.Completion
import Pf2eParser.Health
import Pf2eParser.Service.Startup

/-!
# The process

`main` and `run`: the process starts, and then it makes one round after the other.  A round renews
the lease if that is due, makes one work pass, records the time of a pass that succeeds, and sleeps.
The work pass and the renewal are the programs of `WorkLoop` and `Renewal`; the kernel client
answers their calls.  As the loop never ends, a run of the process is a run of any number of rounds
that may have been cut anywhere.
-/

namespace Pf2eParser

open Text Interaction Codec

variable (E : Externals) (J : KernelJson) (parserVersion : Str)

/-- What a round does with the result of its pass. -/
def recordPass : Except ParserError WorkOutcome → Service Unit
  | .ok _ => .call .clock fun sinceEpoch =>
      .call (.recordSuccess (nowSeconds sinceEpoch)) fun _ => .ret ()
  | .error _ => .ret ()

/-- One round of the loop. -/
def runRound (config : Config) (instanceLease : Option InstanceLease) :
    Service (Option InstanceLease) :=
  ((renewLeaseIfDue instanceLease).interpret (leasePort J config.authority)).bind fun lease =>
    ((workOnce E parserVersion config.leaseSeconds).interpret
        (kernelPort J config.authority)).bind fun result =>
      (recordPass result).bind fun _ => .call (.sleep config.pollInterval) fun _ => .ret lease

/-- `run`, for some rounds. -/
def run (rounds : ℕ) (config : Config) : Service (Option InstanceLease) :=
  Prog.repeatN (runRound E J parserVersion config) rounds config.instanceLease

/-- `main`, for some rounds: a failed start is the end of the process. -/
def main (rounds : ℕ) : Service (Except ParserError (Option InstanceLease)) :=
  (Config.fromEnv E J).andThen fun config =>
    .call (.envVar "HEALTH_ADDRESS".toList) fun _ =>
      (run E J parserVersion rounds config).bind fun lease => .ret (.ok lease)

/-! ## A first round -/

/-- The bytes of an ASCII text. -/
def asciiBytes (s : Str) : List UInt8 := s.map fun c => .ofNat c.toNat

/-- A list of one route. -/
def exampleRoutesBody : Str :=
  writeMembers [("routes".toList, '[' :: (writeMembers [("route_id".toList, writeString "r".toList),
    ("request_id".toList, writeString "q".toList),
    ("subscription_id".toList, writeString "s".toList),
    ("destination_service_id".toList, writeString "pf2e".toList),
    ("created_at".toList, displayInt64 0)] ++ [']']))]

/-- A claim on the route. -/
def exampleClaimBody : Str :=
  writeMembers [("claim_id".toList, writeString "c".toList),
    ("route_id".toList, writeString "r".toList),
    ("worker_service_id".toList, writeString "pf2e".toList),
    ("worker_instance_id".toList, writeString "w".toList), ("fencing_token".toList, displayInt64 3),
    ("status".toList, writeString "active".toList), ("claimed_at".toList, displayInt64 0),
    ("lease_expires_at".toList, displayInt64 60)]

/-- The request behind the route. -/
def exampleRequestBody : Str :=
  writeMembers [("request_id".toList, writeString "q".toList),
    ("source_service_id".toList, writeString "librarian".toList),
    ("action".toList, writeString parseAction),
    ("scope".toList, writeString exampleRequest.scope),
    ("artifact_schema_version_id".toList, writeString "a".toList),
    ("permission_policy_schema_version_id".toList, writeString "p".toList),
    ("accepted_at".toList, displayInt64 0)]

/-- A list of one subscription. -/
def exampleSubscriptionsBody : Str :=
  writeMembers [("subscriptions".toList, '[' :: (writeMembers [
    ("id".toList, writeString "s".toList), ("service_id".toList, writeString "pf2e".toList),
    ("event_type".toList, writeString parseAction), ("created_at".toList, displayInt64 0),
    ("disabled_at".toList, "null".toList), ("active".toList, "true".toList)] ++ [']']))]

/-- A renewed lease. -/
def exampleRenewalBody : Str :=
  writeMembers [("lease_expires_at".toList, displayInt64 1060),
    ("lease_revision".toList, displayInt64 2)]

/-- A reader that knows one document. -/
def readsAs {α : Type} (text : Str) (a : α) (body : List UInt8) : Except Str α :=
  if body = asciiBytes text then .ok a else .error "expected value at line 1 column 1".toList

/-- The reference writer, and readers of the example bodies. -/
def exampleJson : KernelJson where
  writer := .reference
  eligibleRoutes := readsAs exampleRoutesBody [exampleRoute]
  workClaim := readsAs exampleClaimBody exampleClaim
  routedRequest := readsAs exampleRequestBody exampleRequest
  subscriptions := readsAs exampleSubscriptionsBody
    [⟨"s".toList, "pf2e".toList, parseAction, 0, none, true⟩]
  subscription _ := .error "expected value at line 1 column 1".toList
  renewedLease := readsAs exampleRenewalBody ⟨1060, 2⟩

/-- A kernel with one route. -/
def exampleResponse (path : Str) : Response :=
  if path = eligibleRoutesPath then ⟨200, asciiBytes exampleRoutesBody⟩
  else if path = claimsPath "r".toList then ⟨201, asciiBytes exampleClaimBody⟩
  else if path = routedRequestPath "r".toList then ⟨200, asciiBytes exampleRequestBody⟩
  else if path = requestsPath then ⟨201, []⟩
  else if path = renewInstancePath then ⟨200, asciiBytes exampleRenewalBody⟩
  else if path = activeSubscriptionsPath then ⟨200, asciiBytes exampleSubscriptionsBody⟩
  else if path = completePath "c".toList then ⟨200, asciiBytes exampleClaimBody⟩
  else ⟨404, []⟩

/-- An environment with a database and an endpoint to enroll. -/
def exampleEnvironment : List (Str × Str) :=
  [("KERNEL_AUTHORITY".toList, "kernel".toList),
    ("PARSER_SERVICE_ID".toList, UuidText.reference.toStr 7),
    ("SERVICE_ENDPOINT".toList, "https://parser".toList),
    ("POD_UID".toList, "pod".toList),
    ("PF2E_PARSER_DATABASE_URL".toList, "postgres://db".toList)]

/-- A first round in which everything succeeds: the first lease is due, and the kernel has a route
to `longLocation`. -/
def exampleOracle : ∀ c : ServiceCall, c.Answer
  | .envVar name => exampleEnvironment.lookup name
  | .readFile _ => .error "No such file or directory".toList
  | .readFileToString _ => .ok "token\n".toList
  | .clock => some 1000
  | .sleep _ => ()
  | .newClient _ => .ok ()
  | .requestEnrollmentChallenge _ _ _ => .ok (List.Vector.replicate 32 0)
  | .signEnrollment _ => .ok ()
  | .submitEnrollment _ _ => .ok ⟨1015, 1⟩
  | .newUuid => 7
  | .newRequestParts _ => .ok ()
  | .generateNonce => .ok "n".toList
  | .signRequest _ => .ok ()
  | .send signed => .ok (exampleResponse signed.parts.pathAndQuery)
  | .parsePostgresUrl _ => .ok ()
  | .newPool _ => .ok ()
  | .getConnection => .ok ()
  | .simpleQuery _ => .ok ()
  | .batchExecuteInit => .ok ()
  | .parseOnce _ _ => .ok exampleOutcome
  | .recordSuccess _ => ()

/-- The first round, cut behind some calls: what happened, and what is left. -/
def exampleRun (calls : ℕ) :
    List ServiceEvent × Service (Except ParserError (Option InstanceLease)) :=
  (main .reference exampleJson cargoParserVersion 1).follow exampleOracle calls

/-- A request of the first round. -/
def exampleSigned (request : KernelRequest) : SignedRequest :=
  ⟨⟨request.method, "kernel".toList, request.pathAndQuery, applicationJson,
    (request.body .reference).toOption.getD [], 7⟩, 1000, 1000 + signatureValiditySeconds,
    "n".toList⟩

theorem isFor_exampleSigned (request : KernelRequest) :
    (exampleSigned request).IsFor exampleJson request := by
  cases request <;> rfl

theorem runs_exampleRun (calls : ℕ) :
    Runs (main .reference exampleJson cargoParserVersion 1) (exampleRun calls).1
      (exampleRun calls).2 :=
  runs_follow exampleOracle calls _

end Pf2eParser
