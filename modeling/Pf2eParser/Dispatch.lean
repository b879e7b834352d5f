import Pf2eParser.Externals
import Pf2eParser.Kernel
import Pf2eParser.Text.Decimal
import Pf2eParser.Text.Search

/-!
# Interpreting a routed request

`dispatch.rs`: the scope of a `pf2e.parse` request is read into a source reference, the repository
is asked for its candidates, and each candidate is submitted for admission with a scope of its own.
The two scopes are the wire formats

* input: `<document_id>@<document_version>#<location>!<digest>|<source_text>`
* output: `<candidate_id>@<parser_version>#<rule_type>!<confidence>|`
  `<document_id>~<document_version>~<digest>~<location>~<name>`

The parser version is fixed when the service is built; it is an argument here, so that services of
different builds can share one repository.
-/

namespace Pf2eParser

open Text Interaction

/-- The action that this service performs. -/
def parseAction : Str := "pf2e.parse".toList

/-- The action that this service submits. -/
def admitAction : Str := "pf2e.rules.admit".toList

/-- `PARSER_VERSION` of the version of the crate that is modelled. -/
def cargoParserVersion : Str := "pf2e-parser-0.1.0".toList

/-- The result of a dispatched request. -/
inductive DispatchOutcome where
  | parsed (candidateCount : ℕ) (wasAlreadyProcessed : Bool)
  deriving DecidableEq

/-- A missing part of a scope is a `MalformedScope` error with the given reason. -/
def wellFormed {α : Type} (part : Option α) (reason : String) : Except ParserError α :=
  match part with
  | some a => .ok a
  | none => .error (.malformedScope reason.toList)

variable (E : Externals)

/-- The digest that a scope names: base64url of exactly 32 bytes. -/
def decodeDigest (value : Str) : Except ParserError Digest := do
  let bytes ← wellFormed (E.base64.decode value) "content digest must be base64url"
  wellFormed (if h : bytes.length = 32 then some ⟨bytes, h⟩ else none)
    "content digest must be exactly 32 bytes"

/-- Read the scope of a `pf2e.parse` request. -/
def parseInputScope (scope : Str) : Except ParserError SourceReference := do
  let (header, sourceText) ← wellFormed (splitOnce ['|'] scope)
    "scope must contain '|' separating the header from source text"
  let (idVersionLocation, digestB64) ← wellFormed (splitOnce ['!'] header)
    "scope header must contain '!' before the content digest"
  let (idVersion, location) ← wellFormed (splitOnce ['#'] idVersionLocation)
    "scope header must contain '#' before the location"
  let (documentId, version) ← wellFormed (splitOnce ['@'] idVersion)
    "scope header must contain '@' before the version"
  let documentId ← wellFormed (E.uuid.parse documentId) "document_id must be a UUID"
  let documentVersion ← wellFormed (parseInt64 version) "document_version must be an integer"
  wellFormed (if location.isEmpty then none else some ()) "location must not be empty"
  let contentDigest ← decodeDigest E digestB64
  return { documentId, documentVersion, contentDigest, location, sourceText }

/-- A confidence with two decimals. -/
def displayConfidence (confidence : Confidence) : Str :=
  let hundredths := confidence.natAbs
  (if confidence < 0 then ['-'] else []) ++ displayNat (hundredths / 100) ++
    ['.', Nat.digitChar (hundredths / 10 % 10), Nat.digitChar (hundredths % 10)]

/-- The scope under which a candidate is submitted for admission. -/
def admitScopeFor (parserVersion : Str) (source : SourceReference) (candidate : Candidate) : Str :=
  E.uuid.toStr candidate.candidateId ++ '@' ::
  (parserVersion ++ '#' ::
  (candidate.ruleType.asStr ++ '!' ::
  (displayConfidence candidate.confidence ++ '|' ::
  (E.uuid.toStr source.documentId ++ '~' ::
  (displayInt64 source.documentVersion ++ '~' ::
  (E.base64.encode source.contentDigest.toList ++ '~' ::
  (source.location ++ '~' ::
  candidate.name.getD [])))))))

/-- Submit the candidates in order; the first submission that is not accepted ends the loop. -/
def submitCandidates (parserVersion : Str) (source : SourceReference) :
    List Candidate → Pass (Except ParserError Unit)
  | [] => .ret (.ok ())
  | candidate :: rest =>
    .call (.submitRequest admitAction (admitScopeFor E parserVersion source candidate)) fun
      | .error error => .ret (.error error)
      | .ok () => submitCandidates parserVersion source rest

/-- Perform a routed request. -/
def dispatch (parserVersion action scope : Str) : Pass (Except ParserError DispatchOutcome) :=
  if action = parseAction then
    match parseInputScope E scope with
    | .error error => .ret (.error error)
    | .ok source =>
      .call (.parseOnce parserVersion source) fun
        | .error error => .ret (.error (.candidate error))
        | .ok outcome =>
          (submitCandidates E parserVersion outcome.source outcome.candidates).bind fun
            | .error error => .ret (.error error)
            | .ok () =>
              .ret (.ok (.parsed outcome.candidates.length outcome.wasAlreadyProcessed))
  else .ret (.error (.unknownAction action))

end Pf2eParser
