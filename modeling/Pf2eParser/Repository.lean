import Pf2eParser.Externals
import Pf2eParser.Parser
import Pf2eParser.ReadCommitted
import Mathlib.Data.List.Dedup

/-!
# The candidate repository

`postgres_candidate_repository.rs` and `migrations/0001_init.sql`: the two tables, the statements,
and `parse_once` as a transaction over them.  The blank check comes before the transaction; every
other step is a statement that can fail, and an early return rolls the transaction back.
-/

namespace Pf2eParser

open Text ReadCommitted

/-! ## The tables -/

/-- The columns that identify a logical parse. -/
structure RunKey where
  documentId : Str
  documentVersion : Int64
  contentDigest : List UInt8
  parserVersion : Str
  deriving DecidableEq

/-- A row of `parse_runs`; the column `created_at` is never read. -/
structure ParseRun extends RunKey where
  requestId : Str
  deriving DecidableEq

/-- A row of `parsed_candidates`. -/
structure ParsedCandidate extends RunKey where
  candidateId : Str
  ruleType : Str
  name : Option Str
  traits : Str
  trigger : Option Str
  requirements : Str
  prerequisites : Str
  effect : Option Str
  relatedReferences : Str
  sourceText : Str
  inferences : Str
  confidence : Confidence
  deriving DecidableEq

/-- A row of one of the two tables. -/
inductive Row where
  | run (row : ParseRun)
  | candidate (row : ParsedCandidate)
  deriving DecidableEq

/-- A primary key of one of the two tables. -/
inductive RowKey where
  | run (key : RunKey)
  | candidate (candidateId : Str)
  deriving DecidableEq

/-- The primary key of a row. -/
def Row.key : Row → RowKey
  | run row => .run row.toRunKey
  | candidate row => .candidate row.candidateId

/-- The run that a candidate belongs to. -/
def Row.references : Row → Option RowKey
  | run _ => none
  | candidate row => some (.run row.toRunKey)

/-- The check constraints: digests have 32 bytes, and confidences lie between 0 and 1. -/
def Row.check : Row → Bool
  | run row => row.contentDigest.length = 32
  | candidate row => 0 ≤ row.confidence ∧ row.confidence ≤ 100

/-- The constraints of the migration. -/
def schema : Schema Row RowKey := ⟨Row.key, Row.references, Row.check⟩

/-! ## The conditions of the statements -/

/-- The runs of a document version. -/
def ofVersion (documentId : Str) (documentVersion : Int64) : Row → Bool
  | .run row => row.documentId = documentId ∧ row.documentVersion = documentVersion
  | .candidate _ => false

/-- The run with the given key. -/
def isRun (key : RunKey) : Row → Bool
  | .run row => row.toRunKey = key
  | .candidate _ => false

/-- The candidates of the run with the given key. -/
def isCandidateOf (key : RunKey) : Row → Bool
  | .run _ => false
  | .candidate row => row.toRunKey = key

/-- The digests of runs, each of them once. -/
def existingDigests (rows : List Row) : List (List UInt8) :=
  (rows.filterMap fun
    | .run row => some row.contentDigest
    | .candidate _ => none).dedup

/-- The columns of `SELECT_CANDIDATES_SQL`, by their index. -/
structure CandidateColumns where
  c0 : Str
  c1 : Str
  c2 : Option Str
  c3 : Str
  c4 : Option Str
  c5 : Str
  c6 : Str
  c7 : Option Str
  c8 : Str
  c9 : Str
  c10 : Str
  c11 : Confidence

/-- The selected columns of a candidate, in the order in which the statement lists them. -/
def ParsedCandidate.columns (row : ParsedCandidate) : CandidateColumns :=
  ⟨row.candidateId, row.ruleType, row.name, row.traits, row.trigger, row.requirements,
    row.prerequisites, row.effect, row.relatedReferences, row.sourceText, row.inferences,
    row.confidence⟩

/-- The selected columns of the rows. -/
def selectedColumns (rows : List Row) : List CandidateColumns :=
  rows.filterMap fun
    | .run _ => none
    | .candidate row => some row.columns

variable (E : Externals)

/-! ## Rows and candidates -/

/-- A list of texts in one column. -/
def encodeStringList (values : List Str) : Str := E.json.toStr values

/-- The list of texts in a column; a column that cannot be read is taken for an empty list. -/
def decodeStringList (value : Str) : List Str := (E.json.fromStr value).getD []

/-- The row of a candidate. -/
def encodeCandidate (key : RunKey) (candidate : Candidate) : ParsedCandidate where
  toRunKey := key
  candidateId := E.uuid.toStr candidate.candidateId
  ruleType := candidate.ruleType.asStr
  name := candidate.name
  traits := encodeStringList E candidate.traits
  trigger := candidate.trigger
  requirements := encodeStringList E candidate.requirements
  prerequisites := encodeStringList E candidate.prerequisites
  effect := candidate.effect
  relatedReferences := encodeStringList E candidate.references
  sourceText := candidate.sourceText
  inferences := encodeStringList E candidate.inferences
  confidence := candidate.confidence

/-- A candidate of the run with the given key, as a row. -/
def candidateRow (key : RunKey) (candidate : Candidate) : Row :=
  .candidate (encodeCandidate E key candidate)

/-- The candidate in the selected columns, once its identity has been read. -/
def columnsCandidate (candidateId : Uuid) (row : CandidateColumns) : Candidate where
  candidateId
  ruleType := RuleType.parse row.c1
  name := row.c2
  traits := decodeStringList E row.c3
  trigger := row.c4
  requirements := decodeStringList E row.c5
  prerequisites := decodeStringList E row.c6
  effect := row.c7
  references := decodeStringList E row.c8
  sourceText := row.c9
  inferences := decodeStringList E row.c10
  confidence := row.c11

/-- The candidate in the selected columns. -/
def decodeCandidate (row : CandidateColumns) : Except CandidateError Candidate :=
  match E.uuid.parse row.c0 with
  | some candidateId => .ok (columnsCandidate E candidateId row)
  | none => .error .repository

/-! ## The transaction -/

/-- A call of `parse_once`: its arguments, and the UUIDs that it draws. -/
structure Call where
  parserVersion : Str
  source : SourceReference
  fresh : ℕ → Uuid

namespace Call

variable (call : Call)

/-- The key of the logical parse that the call asks for. -/
def key : RunKey where
  documentId := E.uuid.toStr call.source.documentId
  documentVersion := call.source.documentVersion
  contentDigest := call.source.contentDigest.toList
  parserVersion := call.parserVersion

/-- The candidates that the call parses, if it gets that far. -/
def candidates : List Candidate :=
  parseCandidates E.caseTables call.fresh call.source.sourceText

/-- The run that the call inserts. -/
def runRow : Row :=
  .run { toRunKey := call.key E
         requestId := E.uuid.toStr (call.fresh (call.candidates E).length) }

end Call

/-- The result of a failed statement. -/
def repositoryError : ParseResult := .error .repository

/-- Load the candidates of a run, and go on with them. -/
def loadCandidates (key : RunKey) (next : List Candidate → Tx Row ParseResult) :
    Tx Row ParseResult :=
  .select (isCandidateOf key) repositoryError fun rows =>
    match (selectedColumns rows).mapM (decodeCandidate E) with
    | .error error => .abort (.error error)
    | .ok candidates => next candidates

/-- The logical parse has run already: answer with the stored candidates. -/
def replay (call : Call) : Tx Row ParseResult :=
  loadCandidates E (call.key E) fun candidates =>
    .commit repositoryError (.ok ⟨call.source, candidates, true⟩)

/-- Insert the remaining candidates of a new run, and answer with all of them. -/
def insertCandidates (call : Call) : List Candidate → Tx Row ParseResult
  | [] => .commit repositoryError (.ok ⟨call.source, call.candidates E, false⟩)
  | candidate :: rest =>
    .insert (candidateRow E (call.key E) candidate) repositoryError (insertCandidates call rest)

/-- Insert a new run with its candidates, unless a concurrent call has inserted the run. -/
def insertRun (call : Call) : Tx Row ParseResult :=
  .insertIgnore (call.runRow E) repositoryError fun inserted =>
    if inserted then insertCandidates E call (call.candidates E) else replay E call

/-- Look for the run; a query for at most one row fails if it finds more. -/
def findRun (call : Call) : Tx Row ParseResult :=
  .select (isRun (call.key E)) repositoryError fun
    | [] => insertRun E call
    | [_] => replay E call
    | _ :: _ :: _ => .abort repositoryError

/-- `parse_once`: run a logical parse, or recognize that it has run. -/
def parseOnce (call : Call) : Tx Row ParseResult :=
  if (trim call.source.sourceText).isEmpty then .abort (.error .emptySourceText)
  else
    .select (ofVersion (call.key E).documentId (call.key E).documentVersion) repositoryError
      fun rows =>
        if (existingDigests rows).any (fun existing => existing ≠ (call.key E).contentDigest) then
          .abort (.error .sourceDigestMismatch)
        else findRun E call

/-! ## Reading back -/

variable {E}

/-- A stored list of texts is read back. -/
theorem decodeStringList_encodeStringList (hE : E.Lawful) (values : List Str) :
    decodeStringList E (encodeStringList E values) = values := by
  unfold decodeStringList encodeStringList
  rw [hE.json.fromStr_toStr, Option.getD_some]

/-- The fields of a stored candidate are read back. -/
theorem columnsCandidate_encodeCandidate (hE : E.Lawful) (key : RunKey) (candidate : Candidate) :
    columnsCandidate E candidate.candidateId (encodeCandidate E key candidate).columns =
      candidate := by
  simp [columnsCandidate, ParsedCandidate.columns, encodeCandidate,
    decodeStringList_encodeStringList hE]

/-- A stored candidate is read back. -/
theorem decodeCandidate_encodeCandidate (hE : E.Lawful) (key : RunKey) (candidate : Candidate) :
    decodeCandidate E (encodeCandidate E key candidate).columns = .ok candidate := by
  have hid : E.uuid.parse (encodeCandidate E key candidate).columns.c0 =
      some candidate.candidateId := hE.uuid.parse_toStr _
  simp only [decodeCandidate, hid, columnsCandidate_encodeCandidate hE]

/-- Different candidates have different rows. -/
theorem candidateRow_injective (hE : E.Lawful) (key : RunKey) :
    Function.Injective (candidateRow E key) := by
  intro a b h
  have hrow : encodeCandidate E key a = encodeCandidate E key b := Row.candidate.inj h
  have ha := decodeCandidate_encodeCandidate hE key a
  rw [hrow, decodeCandidate_encodeCandidate hE] at ha
  exact (Except.ok.inj ha).symm

/-- Reading rows one by one succeeds if every row can be read. -/
theorem mapM_eq_ok {α β ε : Type} {f : α → Except ε β} {g : α → β} {l : List α}
    (h : ∀ a ∈ l, f a = .ok (g a)) : l.mapM f = .ok (l.map g) := by
  induction l with
  | nil => rfl
  | cons a l ih =>
    rw [List.mapM_cons, h a (by simp), ih fun b hb => h b (by simp [hb])]
    rfl

/-- The columns of the rows of candidates. -/
theorem selectedColumns_candidateRow (key : RunKey) (candidates : List Candidate) :
    selectedColumns (candidates.map (candidateRow E key)) =
      candidates.map fun candidate => (encodeCandidate E key candidate).columns := by
  unfold selectedColumns
  rw [List.filterMap_map, ← List.filterMap_eq_map]
  rfl

/-- Stored candidates are read back in the order in which the rows are returned. -/
theorem mapM_decodeCandidate (hE : E.Lawful) {key : RunKey} {rows : List Row}
    {candidates : List Candidate} (h : rows.Perm (candidates.map (candidateRow E key))) :
    ∃ read, (selectedColumns rows).mapM (decodeCandidate E) = .ok read ∧ read.Perm candidates := by
  have hcolumns : (selectedColumns rows).Perm
      (candidates.map fun c => (encodeCandidate E key c).columns) := by
    rw [← selectedColumns_candidateRow]
    exact h.filterMap _
  let read : CandidateColumns → Candidate := fun row =>
    columnsCandidate E ((E.uuid.parse row.c0).getD 0) row
  have hread : ∀ c : Candidate, read (encodeCandidate E key c).columns = c := by
    intro c
    have hid : E.uuid.parse (encodeCandidate E key c).columns.c0 = some c.candidateId :=
      hE.uuid.parse_toStr _
    simp only [read, hid, Option.getD_some, columnsCandidate_encodeCandidate hE]
  refine ⟨(selectedColumns rows).map read, mapM_eq_ok fun row hrow => ?_, ?_⟩
  · obtain ⟨c, -, rfl⟩ := List.mem_map.mp (hcolumns.mem_iff.mp hrow)
    rw [hread, decodeCandidate_encodeCandidate hE]
  · have hmap := hcolumns.map read
    rw [List.map_map] at hmap
    have hid : (read ∘ fun c => (encodeCandidate E key c).columns) = id := funext hread
    rwa [hid, List.map_id] at hmap

end Pf2eParser
