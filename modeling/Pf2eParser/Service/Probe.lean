import Pf2eParser.Service.Lifecycle
import Pf2eParser.Text.Utf8

/-!
# The health endpoint

`handle_connection` of `health.rs`: what a thread does that answers one connection.  It reads once,
takes the path out of the first line, asks the database if the path is that of the readiness probe,
and writes what `evaluate` says.  A client reads the status and the body back from what is written
(`readResponse_responseText`).
-/

namespace Pf2eParser

open Text Interaction

/-! ## Requests and responses -/

/-- The path of a request: the second word of its first line. -/
def requestPath (request : Str) : Str :=
  ((lines request).head?.bind fun line => (splitWhitespace line)[1]?).getD []

example : requestPath "GET /health/ready HTTP/1.1\r\nHost: 10.0.0.7:8090\r\n\r\n".toList =
    readyPath := by decide

/-- The response with a status and a body. -/
def responseText (answer : Str × Str) : Str :=
  "HTTP/1.1 ".toList ++ (answer.1 ++ ("\r\nContent-Type: text/plain\r\nContent-Length: ".toList ++
    (displayNat (byteLength answer.2) ++ ("\r\nConnection: close\r\n\r\n".toList ++ answer.2))))

/-- What a client reads from a response: the status, and the body if it is as long as announced. -/
def readResponse (bytes : List UInt8) : Option (Str × Str) :=
  (stripPrefix "HTTP/1.1 ".toList (fromUtf8Lossy bytes)).bind fun text =>
    (splitOnce ['\r'] text).bind fun status =>
      (stripPrefix "\nContent-Type: text/plain\r\nContent-Length: ".toList status.2).bind fun s =>
        (splitOnce ['\r'] s).bind fun length =>
          (stripPrefix "\nConnection: close\r\n\r\n".toList length.2).bind fun body =>
            if parseDigits length.1 = some (byteLength body) then some (status.1, body) else none

/-- A response is read as what it was made of. -/
theorem readResponse_responseText {answer : Str × Str} (hstatus : '\r' ∉ answer.1) :
    readResponse (toUtf8 (responseText answer)) = some answer := by
  have hstrip : ∀ front rest : Str, stripPrefix front (front ++ rest) = some rest :=
    fun _ _ => stripPrefix_eq_some_iff.mpr rfl
  have hcut : ∀ a b : Str, '\r' ∉ a → splitOnce ['\r'] (a ++ '\r' :: b) = some (a, b) :=
    fun _ _ ha => splitOnce_singleton_iff.mpr ⟨rfl, ha⟩
  have hheaders : "\r\nContent-Type: text/plain\r\nContent-Length: ".toList =
      '\r' :: "\nContent-Type: text/plain\r\nContent-Length: ".toList := by decide
  have hend : "\r\nConnection: close\r\n\r\n".toList =
      '\r' :: "\nConnection: close\r\n\r\n".toList := by decide
  have hdigits : '\r' ∉ displayNat (byteLength answer.2) := fun h =>
    absurd (isDigit_of_mem_displayNat h) (by decide)
  unfold readResponse responseText
  rw [fromUtf8Lossy_toUtf8, hheaders, hend]
  generalize "HTTP/1.1 ".toList = version
  generalize "\nContent-Type: text/plain\r\nContent-Length: ".toList = headers
  generalize "\nConnection: close\r\n\r\n".toList = lastHeader
  simp only [List.cons_append, hstrip, hcut _ _ hstatus, hcut _ _ hdigits, Option.bind_some,
    parseDigits_displayNat, if_true]

/-- A status has no line end. -/
theorem return_notMem_evaluate (path : Str) (heartbeat : Heartbeat) (databaseOk : Bool)
    (thresholds : Thresholds) (now : Int64) :
    '\r' ∉ (evaluate path heartbeat databaseOk thresholds now).1 := by
  have hok : '\r' ∉ statusOk := by decide
  have hunavailable : '\r' ∉ statusUnavailable := by decide
  have hmissing : '\r' ∉ "404 Not Found".toList := by decide
  unfold evaluate
  split
  case isTrue => split <;> [exact hok; (split <;> assumption)]
  case isFalse =>
    split
    case isTrue =>
      split
      · split <;> [exact hunavailable; (split <;> assumption)]
      · exact hunavailable
    case isFalse => exact hmissing

/-! ## A connection -/

/-- The calls of a thread that answers a connection. -/
inductive ProbeCall where
  /-- One `read` into a buffer of 1024 bytes. -/
  | readStream
  | service (c : ServiceCall)
  /-- The `load` of the heartbeat. -/
  | loadHeartbeat
  | writeAll (bytes : List UInt8)
  | flush
  deriving DecidableEq

/-- What each call is answered with; I/O errors are known by the text they display. -/
abbrev ProbeCall.Answer : ProbeCall → Type
  | readStream => Except Str { bytes : List UInt8 // bytes.length ≤ 1024 }
  | service c => c.Answer
  | loadHeartbeat => Int64
  | writeAll _ | flush => Except Str Unit

/-- A program of a thread that answers a connection. -/
abbrev Probe := Prog ProbeCall ProbeCall.Answer

/-- A call of such a thread with its answer. -/
abbrev ProbeEvent := Event ProbeCall.Answer

/-- The database is consulted only for readiness. -/
def databaseOk (path : Str) : Probe Bool :=
  if path = readyPath then
    (Database.checkConnection.interpret fun c => .call (.service c) .ret).bind
      fun result => .ret result.isOk
  else .ret true

/-- `handle_connection`.  The clock is read before the heartbeat is.  A heartbeat that `evaluate`
has no use for is loaded too, which nothing can observe. -/
def handleConnection (thresholds : Thresholds) : Probe (Except Str Unit) :=
  .call .readStream fun
    | .error message => .ret (.error message)
    | .ok received =>
      let path := requestPath (fromUtf8Lossy received.1)
      (databaseOk path).bind fun ok =>
        .call (.service .clock) fun sinceEpoch =>
          .call .loadHeartbeat fun lastSuccess =>
            .call (.writeAll (toUtf8 (responseText
                (evaluate path ⟨lastSuccess⟩ ok thresholds (nowSeconds sinceEpoch))))) fun
              | .error message => .ret (.error message)
              | .ok () => .call .flush fun answer => .ret answer

/-- What a thread has done that writes the bytes. -/
def Answers (thresholds : Thresholds) (history : List ProbeEvent) (bytes : List UInt8) : Prop :=
  ∃ received checks ok sinceEpoch lastSuccess,
    history = ⟨.readStream, .ok received⟩ :: (checks ++
      [⟨.service .clock, sinceEpoch⟩, ⟨.loadHeartbeat, lastSuccess⟩]) ∧
    Runs (databaseOk (requestPath (fromUtf8Lossy received.1))) checks (.ret ok) ∧
    bytes = toUtf8 (responseText (evaluate (requestPath (fromUtf8Lossy received.1)) ⟨lastSuccess⟩ ok
      thresholds (nowSeconds sinceEpoch)))

/-- A thread writes only answers. -/
def probeContract (thresholds : Thresholds) : Contract ProbeCall.Answer where
  assumes _ := True
  gate history c := ∀ bytes, c = .writeAll bytes → Answers thresholds history bytes

/-- The check of the database writes nothing. -/
theorem databaseOk_meets (thresholds : Thresholds) (path : Str) (history : List ProbeEvent) :
    (databaseOk path).Meets (probeContract thresholds) (fun _ _ => True) history := by
  unfold databaseOk
  split
  case isTrue =>
    refine ⟨fun _ hc => ProbeCall.noConfusion hc, fun answer _ => ?_⟩
    cases answer with
    | error message => trivial
    | ok _ =>
      refine ⟨fun _ hc => ProbeCall.noConfusion hc, fun answer _ => ?_⟩
      cases answer <;> trivial
  case isFalse => trivial

/-- `handle_connection` answers what it has seen. -/
theorem handleConnection_meets (thresholds : Thresholds) :
    (handleConnection thresholds).Meets (probeContract thresholds) (fun _ _ => True) [] := by
  refine ⟨fun _ hc => ProbeCall.noConfusion hc, fun answer _ => ?_⟩
  cases answer with
  | error message => trivial
  | ok received =>
    refine (databaseOk_meets thresholds _ _).runs.bind ?_
    rintro _ ok ⟨-, checks, rfl, hchecks⟩
    refine ⟨fun _ hc => ProbeCall.noConfusion hc, fun sinceEpoch _ => ?_⟩
    refine ⟨fun _ hc => ProbeCall.noConfusion hc, fun lastSuccess _ => ?_⟩
    refine ⟨fun bytes hc => ?_, fun answer _ => ?_⟩
    · obtain rfl := ProbeCall.writeAll.inj hc
      exact ⟨received, checks, ok, sinceEpoch, lastSuccess, by simp, hchecks, rfl⟩
    · cases answer with
      | error message => trivial
      | ok _ => exact ⟨fun _ hc => ProbeCall.noConfusion hc, fun _ _ => trivial⟩

/-- Any other path leaves the database alone. -/
theorem checks_eq_nil {path : Str} {checks : List ProbeEvent} {ok : Bool}
    (h : Runs (databaseOk path) checks (.ret ok)) (hpath : path ≠ readyPath) :
    checks = [] ∧ ok = true := by
  rw [databaseOk, if_neg hpath] at h
  cases h
  exact ⟨rfl, rfl⟩

/-- The database is found reachable exactly if it has answered. -/
theorem ok_iff_checks {checks : List ProbeEvent} {ok : Bool}
    (h : Runs (databaseOk readyPath) checks (.ret ok)) :
    ok = true ↔ checks = [⟨.service .getConnection, .ok ()⟩,
      ⟨.service (.simpleQuery "SELECT 1".toList), .ok ()⟩] := by
  rw [databaseOk, if_pos rfl] at h
  cases h with
  | step connected h =>
    cases connected with
    | error message =>
      cases h
      simp [Except.isOk, Except.toBool]
    | ok _ =>
      cases h with
      | step answered h =>
        cases answered with
        | error message =>
          cases h
          simp [Except.isOk, Except.toBool]
        | ok _ =>
          cases h
          exact ⟨fun _ => rfl, fun _ => rfl⟩

end Pf2eParser
