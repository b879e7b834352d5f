import Pf2eParser.Text.Whitespace
import Mathlib.Data.Vector.Basic

/-!
# Candidates and their sources

The vocabulary of the service (`domain.rs`): rule types, the reference to the source that a
candidate was parsed from, the candidate itself, and the outcome of one logical parse.  A candidate
is a proposal and carries the text it was read from; its `candidateId` is minted by the parser and
means nothing else, so two candidates are compared by `anonymous` whenever only their content
matters.
-/

namespace Pf2eParser

open Text

/-- A UUID, as its 128 bits. -/
abbrev Uuid := BitVec 128

/-- A SHA-256 content digest: exactly 32 bytes. -/
abbrev Digest := List.Vector UInt8 32

/-- The parser's confidence in a candidate, in hundredths.  All the confidences of the source
(`0.9`, `0.2`, `0.15` and their differences) are exact decimals with two digits. -/
abbrev Confidence := ℤ

/-- The kinds of rule a candidate can be classified as. -/
inductive RuleType where
  | action
  | reaction
  | freeAction
  | feat
  | condition
  | unclassified
  deriving DecidableEq, Repr

namespace RuleType

/-- The name of a rule type, as it is stored and transmitted. -/
def asStr : RuleType → Str
  | action => "action".toList
  | reaction => "reaction".toList
  | freeAction => "free-action".toList
  | feat => "feat".toList
  | condition => "condition".toList
  | unclassified => "unclassified".toList

/-- The rule type with the given name; every unknown name is `unclassified`. -/
def parse (value : Str) : RuleType :=
  if value = "action".toList then action
  else if value = "reaction".toList then reaction
  else if value = "free-action".toList then freeAction
  else if value = "feat".toList then feat
  else if value = "condition".toList then condition
  else unclassified

/-- A rule type is recovered from its name. -/
@[simp] theorem parse_asStr (t : RuleType) : parse t.asStr = t := by
  cases t <;> decide

/-- Different rule types have different names. -/
theorem asStr_injective : Function.Injective asStr :=
  Function.LeftInverse.injective parse_asStr

end RuleType

/-- The authoritative source a candidate was parsed from. -/
structure SourceReference where
  documentId : Uuid
  documentVersion : Int64
  contentDigest : Digest
  location : Str
  sourceText : Str
  deriving DecidableEq

/-- A proposed, non-authoritative rule. -/
structure Candidate where
  candidateId : Uuid
  ruleType : RuleType
  name : Option Str
  traits : List Str
  trigger : Option Str
  requirements : List Str
  effect : Option Str
  prerequisites : List Str
  references : List Str
  sourceText : Str
  inferences : List Str
  confidence : Confidence
  deriving DecidableEq

/-- The candidate without its identity. -/
def Candidate.anonymous (candidate : Candidate) : Candidate := { candidate with candidateId := 0 }

/-- The result of one logical parse: the source it was asked for, the candidates, and whether they
come from an earlier run. -/
structure ParseOutcome where
  source : SourceReference
  candidates : List Candidate
  wasAlreadyProcessed : Bool
  deriving DecidableEq

/-- The ways in which a logical parse fails. -/
inductive CandidateError where
  | emptySourceText
  /-- The document version was already parsed under a different content digest. -/
  | sourceDigestMismatch
  | repository
  deriving DecidableEq, Repr

/-- The result of one call of the candidate repository. -/
abbrev ParseResult := Except CandidateError ParseOutcome

end Pf2eParser
