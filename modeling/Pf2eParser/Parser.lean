import Pf2eParser.Domain
import Pf2eParser.Text.Case
import Pf2eParser.Text.Decimal
import Pf2eParser.Text.Search

/-!
# The labelled-block parser

`parser.rs`: a source text is cut into blocks at `---`, and every block becomes one candidate.  A
block is read line by line into the accumulators of `BlockFields`; a line is a label with a value,
the bare rule type that may open the block, or it is left over.

`Uuid::new_v4` is the one effect of the parser.  The model takes the sequence of fresh UUIDs as the
argument `fresh`, so that the `i`-th candidate carries `fresh i`.
-/

namespace Pf2eParser

open Text

/-- The text that separates blocks. -/
def blockSeparator : Str := "---".toList

/-- The confidence in a block of recognized shape, in hundredths. -/
def baseConfidence : Confidence := 90

/-- The confidence in a block without any recognized structure. -/
def unclassifiedConfidence : Confidence := 20

/-- What a missing type line costs. -/
def missingTypePenalty : Confidence := 20

/-- What left-over lines cost. -/
def leftoverPenalty : Confidence := 15

variable (U : CaseTables)

/-- A type word in the spelling of `RuleType::parse`. -/
def normalizeType (value : Str) : Str :=
  (U.toLowercase (trim value)).map fun c => if c = ' ' then '-' else c

/-- The rule type that a line names without any label. -/
def detectBareType (line : Str) : Option RuleType :=
  match RuleType.parse (normalizeType U line) with
  | .unclassified => none
  | detected => some detected

/-- The label and the value of a labelled line, split at the first colon. -/
def splitLabel (line : Str) : Option (Str × Str) :=
  (splitOnce [':'] line).bind fun (label, value) =>
    if (trim label).isEmpty || 32 < (trim label).length then none
    else some (U.toLowercase (trim label), trim value)

/-- The nonempty trimmed items of a comma-separated value. -/
def splitList (value : Str) : List Str :=
  ((value.splitOn ',').map trim).filter fun item => !item.isEmpty

/-- The names in double brackets, read from what is left of a block.  Every name that is found
shortens the rest by the four brackets at least. -/
def bracketedReferencesFrom (remainder : Str) : List Str :=
  match _hstart : find "[[".toList remainder with
  | none => []
  | some start =>
    let afterOpen := remainder.drop (start + 2)
    match _hend : find "]]".toList afterOpen with
    | none => []
    | some stop =>
      let reference := trim (afterOpen.take stop)
      let rest := bracketedReferencesFrom (afterOpen.drop (stop + 2))
      if reference.isEmpty then rest else reference :: rest
termination_by remainder.length
decreasing_by
  have hstart : start + 2 ≤ remainder.length := find_add_length_le _hstart
  simp only [List.length_drop]
  omega

/-- The names in double brackets of a block. -/
def extractBracketedReferences (block : Str) : List Str := bracketedReferencesFrom block

/-! ## Reading one block -/

/-- What has been read of a block: the accumulators of the line loop. -/
structure BlockFields where
  ruleType : Option RuleType := none
  name : Option Str := none
  traits : List Str := []
  trigger : Option Str := none
  requirements : List Str := []
  prerequisites : List Str := []
  effect : Option Str := none
  references : List Str := []
  leftoverLines : List Str := []
  deriving DecidableEq

/-- A labelled line sets the field of its label; an unknown label leaves the line over. -/
def BlockFields.label (fields : BlockFields) (line label value : Str) : BlockFields :=
  if label = "type".toList then
    { fields with ruleType := some (RuleType.parse (normalizeType U value)) }
  else if label = "name".toList then { fields with name := some value }
  else if label = "traits".toList then { fields with traits := splitList value }
  else if label = "trigger".toList then { fields with trigger := some value }
  else if label = "requirements".toList then { fields with requirements := splitList value }
  else if label = "prerequisites".toList then { fields with prerequisites := splitList value }
  else if label = "effect".toList then { fields with effect := some value }
  else if label = "see also".toList ∨ label = "references".toList then
    { fields with references := fields.references ++ splitList value }
  else { fields with leftoverLines := fields.leftoverLines ++ [line] }

/-- A line after the opening one is a labelled line or it is left over. -/
def BlockFields.labelledLine (fields : BlockFields) (line : Str) : BlockFields :=
  match splitLabel U line with
  | some (label, value) => fields.label U line label value
  | none => { fields with leftoverLines := fields.leftoverLines ++ [line] }

/-- One round of the line loop: only the line at index 0 can be a bare rule type. -/
def BlockFields.line (fields : BlockFields) (index : ℕ) (line : Str) : BlockFields :=
  match if index = 0 then detectBareType U line else none with
  | some detected => { fields with ruleType := some detected }
  | none => fields.labelledLine U line

/-- The trimmed lines of a block that are not blank. -/
def blockLines (block : Str) : List Str :=
  ((lines block).map trim).filter fun line => !line.isEmpty

/-- The line loop over a block. -/
def readLines (block : Str) : BlockFields :=
  (blockLines block).zipIdx.foldl (fun fields entry => fields.line U entry.2 entry.1) {}

/-- The note about lines that no label claims. -/
def leftoverInference (count : ℕ) : Str :=
  displayNat count ++
    " untagged line(s) present in source, not mapped to a known field".toList

/-- No field of the block was recognized. -/
def BlockFields.IsUnstructured (fields : BlockFields) : Prop :=
  fields.name = none ∧ fields.trigger = none ∧ fields.effect = none ∧ fields.traits = [] ∧
    fields.requirements = [] ∧ fields.prerequisites = [] ∧
    fields.ruleType.getD .unclassified = .unclassified

instance (fields : BlockFields) : Decidable fields.IsUnstructured :=
  inferInstanceAs (Decidable (_ ∧ _))

/-- The confidence in a block, before it is clamped. -/
def BlockFields.confidence (fields : BlockFields) : Confidence :=
  baseConfidence - (if fields.ruleType = none then missingTypePenalty else 0) -
    (if fields.leftoverLines = [] then 0 else leftoverPenalty)

/-- Read one block into a candidate with the identity `candidateId`. -/
def parseBlock (candidateId : Uuid) (block : Str) : Candidate :=
  let fields := readLines U block
  let references := fields.references ++ extractBracketedReferences block
  if fields.IsUnstructured then
    { candidateId, ruleType := .unclassified, name := none, traits := [], trigger := none
      requirements := [], prerequisites := [], effect := none, references
      sourceText := block, inferences := [], confidence := unclassifiedConfidence }
  else
    { candidateId, ruleType := fields.ruleType.getD .unclassified, name := fields.name
      traits := fields.traits, trigger := fields.trigger, requirements := fields.requirements
      prerequisites := fields.prerequisites, effect := fields.effect, references
      sourceText := block
      inferences :=
        if fields.leftoverLines = [] then [] else [leftoverInference fields.leftoverLines.length]
      confidence := max 0 (min 100 fields.confidence) }

/-- The nonblank trimmed blocks of a source text. -/
def sourceBlocks (sourceText : Str) : List Str :=
  ((split blockSeparator sourceText).map trim).filter fun block => !block.isEmpty

/-- Parse a source text: one candidate per block, the `i`-th with the identity `fresh i`. -/
def parseCandidates (fresh : ℕ → Uuid) (sourceText : Str) : List Candidate :=
  (sourceBlocks sourceText).mapIdx fun i block => parseBlock U (fresh i) block

/-! ## Basic facts -/

variable {U}

/-- A candidate of a source text was parsed from one of its blocks. -/
theorem mem_parseCandidates_iff {fresh : ℕ → Uuid} {sourceText : Str} {candidate : Candidate} :
    candidate ∈ parseCandidates U fresh sourceText ↔
      ∃ i, ∃ h : i < (sourceBlocks sourceText).length,
        parseBlock U (fresh i) (sourceBlocks sourceText)[i] = candidate := by
  rw [parseCandidates, List.mem_mapIdx]

/-- The source text of a candidate is its block. -/
@[simp] theorem sourceText_parseBlock (candidateId : Uuid) (block : Str) :
    (parseBlock U candidateId block).sourceText = block := by
  simp only [parseBlock]
  split <;> rfl

/-- The identity of a candidate is the one it was given. -/
@[simp] theorem candidateId_parseBlock (candidateId : Uuid) (block : Str) :
    (parseBlock U candidateId block).candidateId = candidateId := by
  simp only [parseBlock]
  split <;> rfl

/-- The content of a candidate does not depend on its identity. -/
theorem anonymous_parseBlock (candidateId : Uuid) (block : Str) :
    (parseBlock U candidateId block).anonymous = parseBlock U 0 block := by
  simp only [parseBlock]
  split <;> rfl

/-- Up to the identities, the candidates of a source text are its parsed blocks. -/
theorem anonymous_parseCandidates (fresh : ℕ → Uuid) (sourceText : Str) :
    (parseCandidates U fresh sourceText).map Candidate.anonymous =
      (sourceBlocks sourceText).map (parseBlock U 0) := by
  refine List.ext_getElem (by simp [parseCandidates]) fun i h₁ h₂ => ?_
  simp [parseCandidates, anonymous_parseBlock]

/-- Different blocks are parsed differently. -/
theorem parseBlock_injective (candidateId : Uuid) :
    Function.Injective (parseBlock U candidateId) := fun a b h => by
  simpa using congrArg Candidate.sourceText h

/-- A block of a source text does not contain the separator. -/
theorem not_infix_of_mem_sourceBlocks {sourceText block : Str}
    (h : block ∈ sourceBlocks sourceText) : ¬ blockSeparator <:+: block := by
  obtain ⟨hmem, -⟩ := List.mem_filter.mp h
  obtain ⟨piece, hpiece, rfl⟩ := List.mem_map.mp hmem
  have htrim := trim_isInfix piece
  exact fun hi => not_infix_of_mem_split (by decide) hpiece (hi.trans htrim)

/-- A block gets one of five confidences. -/
theorem confidence_parseBlock_mem (candidateId : Uuid) (block : Str) :
    (parseBlock U candidateId block).confidence ∈ ([20, 55, 70, 75, 90] : List Confidence) := by
  simp only [parseBlock]
  split
  · simp [unclassifiedConfidence]
  · simp only [BlockFields.confidence]
    split <;> split <;> decide

/-- A labelled action is read into its fields at full confidence. -/
example : parseBlock .ascii 7 "Action\nName: Stride\nEffect: Move up to your Speed.".toList =
    { candidateId := 7, ruleType := .action, name := some "Stride".toList, traits := []
      trigger := none, requirements := [], effect := some "Move up to your Speed.".toList
      prerequisites := [], references := []
      sourceText := "Action\nName: Stride\nEffect: Move up to your Speed.".toList
      inferences := [], confidence := 90 } := by decide +kernel

end Pf2eParser
