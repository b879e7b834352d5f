import Pf2eParser.Dispatch
import Pf2eParser.Service.KernelClient

/-!
# The start of the process

`Config::from_env` of `lib.rs` and `Database::connect_from_env` of `database.rs`: read the
environment, build the client, enroll with the kernel where that is configured, make sure of the
subscriptions, and connect to the database, probe it and migrate it.  Every failure ends the start.
-/

namespace Pf2eParser

open Text Interaction

/-- What the loop is started with. -/
structure Config where
  authority : Str
  leaseSeconds : Int64
  pollInterval : UInt64
  instanceLease : Option InstanceLease
  deriving DecidableEq

/-- Read a 64-bit natural number: an optional plus sign and then digits. -/
def parseUInt64 (s : Str) : Option UInt64 :=
  (parseDigits (if s.head? = some '+' then s.tail else s)).bind fun n =>
    if n < 2 ^ 64 then some (.ofNat n) else none

/-- `DEFAULT_LEASE_SECONDS`. -/
def defaultLeaseSeconds : Int64 := 300

/-- `DEFAULT_POLL_INTERVAL_SECONDS`. -/
def defaultPollIntervalSeconds : UInt64 := 5

/-- `DEFAULT_WORKLOAD_TOKEN_PATH`. -/
def defaultWorkloadTokenPath : Str := "/var/run/secrets/infernal-law-enrollment/token".toList

/-- `ACTIONS`. -/
def actions : List Str := [parseAction]

/-- A variable that has to be set. -/
def requireVar (name : String) : Service (Except ParserError Str) :=
  .call (.envVar name.toList) fun
    | none => .ret (.error (.missingEnv name.toList))
    | some value => .ret (.ok value)

variable (E : Externals) (J : KernelJson)

/-- The identity of the service. -/
def requireServiceId : Service (Except ParserError Uuid) :=
  (requireVar "PARSER_SERVICE_ID").andThen fun value =>
    match E.uuid.parse value with
    | none => .ret (.error .invalidServiceId)
    | some serviceId => .ret (.ok serviceId)

/-- `Client::new`, or `Client::with_extra_root_certificate`. -/
def newClient (extraRootCertificate : Option (List UInt8)) : Service (Except ParserError Unit) :=
  .call (.newClient extraRootCertificate) fun
    | .error message => .ret (.error (.client message))
    | .ok () => .ret (.ok ())

/-- The client, with the certificate that the environment names. -/
def buildClient : Service (Except ParserError Unit) :=
  .call (.envVar "KERNEL_CA_CERT_PATH".toList) fun
    | none => newClient none
    | some path =>
      .call (.readFile path) fun
        | .error message => .ret (.error (.caCertificateUnreadable message))
        | .ok pem => newClient (some pem)

/-- `decode_challenge`. -/
def decodeChallenge (value : Str) : Except ParserError Challenge :=
  match E.base64.decode value with
  | none => .error .invalidEnrollmentChallenge
  | some bytes =>
    if h : bytes.length = 32 then .ok ⟨bytes, h⟩ else .error .invalidEnrollmentChallenge

/-- The token of the workload. -/
def readWorkloadToken : Service (Except ParserError Str) :=
  .call (.envVar "WORKLOAD_TOKEN_PATH".toList) fun path =>
    .call (.readFileToString (path.getD defaultWorkloadTokenPath)) fun
      | .error message => .ret (.error (.enrollmentTokenUnreadable message))
      | .ok text => .ret (.ok (trim text))

/-- The challenge that the environment injects, or else one that the kernel issues. -/
def obtainChallenge (authority podUid workloadToken : Str) :
    Service (Except ParserError Challenge) :=
  .call (.envVar "ENROLLMENT_CHALLENGE".toList) fun
    | some injected => .ret (decodeChallenge E injected)
    | none => KernelClient.requestChallenge authority podUid workloadToken

/-- Enroll as the given endpoint and pod. -/
def enrollAs (authority endpoint podUid : Str) : Service (Except ParserError InstanceLease) :=
  readWorkloadToken.andThen fun workloadToken =>
    (obtainChallenge E authority podUid workloadToken).andThen fun challenge =>
      (KernelClient.enroll authority ⟨challenge, endpoint, podUid, workloadToken⟩).andThen
        fun enrolled => .ret (.ok ⟨enrolled.leaseRevision, enrolled.leaseExpiresAt⟩)

/-- Enroll if both the endpoint and the pod are configured. -/
def enrollIfConfigured (authority : Str) : Service (Except ParserError (Option InstanceLease)) :=
  .call (.envVar "SERVICE_ENDPOINT".toList) fun endpoint =>
    .call (.envVar "POD_UID".toList) fun podUid =>
      match endpoint, podUid with
      | some endpoint, some podUid =>
        (enrollAs E authority endpoint podUid).andThen fun lease => .ret (.ok (some lease))
      | _, _ => .ret (.ok none)

/-- The subscriptions of all actions, in order. -/
def ensureSubscriptions (authority : Str) : List Str → Service (Except ParserError Unit)
  | [] => .ret (.ok ())
  | action :: rest =>
    (KernelClient.ensureSubscription J authority action).andThen fun _ =>
      ensureSubscriptions authority rest

/-! ## The database -/

/-- `Database::check_connection`. -/
def Database.checkConnection : Service (Except DatabaseError Unit) :=
  .call .getConnection fun
    | .error message => .ret (.error (.pool message))
    | .ok () =>
      .call (.simpleQuery "SELECT 1".toList) fun
        | .error message => .ret (.error (.query message))
        | .ok () => .ret (.ok ())

/-- `Database::migrate`. -/
def Database.migrate : Service (Except DatabaseError Unit) :=
  .call .getConnection fun
    | .error message => .ret (.error (.pool message))
    | .ok () =>
      .call .batchExecuteInit fun
        | .error message => .ret (.error (.query message))
        | .ok () => .ret (.ok ())

/-- Connect to the database at the URL. -/
def Database.connect (url : Str) : Service (Except DatabaseError Unit) :=
  .call (.parsePostgresUrl url) fun
    | .error _ => .ret (.error .invalidPostgresConfig)
    | .ok () =>
      .call (.newPool url) fun
        | .error message => .ret (.error (.pool message))
        | .ok () => checkConnection.andThen fun _ => migrate

/-- `Database::connect_from_env`. -/
def Database.connectFromEnv : Service (Except DatabaseError Unit) :=
  .call (.envVar "PF2E_PARSER_DATABASE_URL".toList) fun
    | none => .ret (.error .missingEnvironment)
    | some url => if trim url = [] then .ret (.error .emptyUrl) else connect url

/-- Connect to the database, as a part of the start. -/
def connectDatabase : Service (Except ParserError Unit) :=
  Database.connectFromEnv.bind fun
    | .error error => .ret (.error (.database error))
    | .ok () => .ret (.ok ())

/-! ## The start -/

/-- Everything that the kernel and the database have to agree to before the loop. -/
def connectAll (authority : Str) : Service (Except ParserError (Option InstanceLease)) :=
  buildClient.andThen fun _ =>
    (enrollIfConfigured E authority).andThen fun instanceLease =>
      (ensureSubscriptions J authority actions).andThen fun _ =>
        connectDatabase.andThen fun _ => .ret (.ok instanceLease)

/-- `Config::from_env`. -/
def Config.fromEnv : Service (Except ParserError Config) :=
  (requireVar "KERNEL_AUTHORITY").andThen fun authority =>
    (requireServiceId E).andThen fun _ =>
      .call (.envVar "CLAIM_LEASE_SECONDS".toList) fun lease =>
        .call (.envVar "POLL_INTERVAL_SECONDS".toList) fun interval =>
          (connectAll E J authority).andThen fun instanceLease =>
            .ret (.ok {
              authority
              leaseSeconds := (lease.bind parseInt64).getD defaultLeaseSeconds
              pollInterval := (interval.bind parseUInt64).getD defaultPollIntervalSeconds
              instanceLease })

end Pf2eParser
