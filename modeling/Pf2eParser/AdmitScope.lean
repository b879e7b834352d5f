import Pf2eParser.InputScope
import Pf2eParser.Parser

/-!
# What an admit scope carries

`admitScopeFor` writes the identity of a candidate, its classification and its provenance into one
text.  The two questions of this file are whether that text can be read back, and whether it fits
the 200 characters that the kernel grants to a scope.

The location and the name stand next to each other with `~` between them, and both may contain `~`.
`scope_eq_iff` computes exactly which admissions share a scope, and `sameProvenance_of_scope_eq_iff`
concludes that the provenance is ambiguous precisely between *shifted* admissions, where a part of
the name of one is the end of the location of the other.  `length_scope` counts the characters.
-/

namespace Pf2eParser

open Text

variable {E : Externals}

/-- A source that the input parser returns, together with a candidate that the block parser returns.
-/
structure Admission (E : Externals) where
  source : SourceReference
  candidate : Candidate
  /-- The source is the value of some input scope. -/
  source_parsed : ∃ scope, parseInputScope E scope = .ok source
  /-- The candidate is parsed from some text. -/
  candidate_parsed : ∃ fresh text, candidate ∈ parseCandidates E.caseTables fresh text

namespace Admission

/-- The name in an admit scope: an absent name is written like an empty one. -/
def name (a : Admission E) : Str := a.candidate.name.getD []

/-- The scope under which the candidate is submitted. -/
def scope (parserVersion : Str) (a : Admission E) : Str :=
  admitScopeFor E parserVersion a.source a.candidate

/-- The two admissions agree in everything that the receiver of a scope is meant to recover. -/
structure SameProvenance (a b : Admission E) : Prop where
  candidateId : a.candidate.candidateId = b.candidate.candidateId
  ruleType : a.candidate.ruleType = b.candidate.ruleType
  documentId : a.source.documentId = b.source.documentId
  documentVersion : a.source.documentVersion = b.source.documentVersion
  contentDigest : a.source.contentDigest = b.source.contentDigest
  location : a.source.location = b.source.location
  name : a.name = b.name

/-- The second admission differs from the first only in that its location goes on with a part of the
first one's name, up to a `~` in that name. -/
structure Shifted (a b : Admission E) : Prop where
  candidateId : a.candidate.candidateId = b.candidate.candidateId
  ruleType : a.candidate.ruleType = b.candidate.ruleType
  confidence : a.candidate.confidence = b.candidate.confidence
  documentId : a.source.documentId = b.source.documentId
  documentVersion : a.source.documentVersion = b.source.documentVersion
  contentDigest : a.source.contentDigest = b.source.contentDigest
  moved : ∃ part, b.source.location = a.source.location ++ '~' :: part ∧
    a.name = part ++ '~' :: b.name

/-! ## Reading a scope back -/

/-- The confidence of an admission is one of the five that blocks get. -/
theorem confidence_mem (a : Admission E) :
    a.candidate.confidence ∈ ([20, 55, 70, 75, 90] : List Confidence) := by
  obtain ⟨fresh, text, h⟩ := a.candidate_parsed
  obtain ⟨i, hi, hc⟩ := mem_parseCandidates_iff.mp h
  rw [← hc]
  exact confidence_parseBlock_mem _ _

/-- The confidence of an admission is written in four characters, none of which is a `|`. -/
theorem displayConfidence_spec (a : Admission E) :
    (displayConfidence a.candidate.confidence).length = 4 ∧
      '|' ∉ displayConfidence a.candidate.confidence := by
  have hall : ∀ c ∈ ([20, 55, 70, 75, 90] : List Confidence),
      (displayConfidence c).length = 4 ∧ '|' ∉ displayConfidence c := by decide
  exact hall _ a.confidence_mem

/-- The confidences of two admissions are written alike only when they are equal. -/
theorem displayConfidence_inj (a b : Admission E) :
    displayConfidence a.candidate.confidence = displayConfidence b.candidate.confidence ↔
      a.candidate.confidence = b.candidate.confidence := by
  have hall : ∀ c ∈ ([20, 55, 70, 75, 90] : List Confidence),
      ∀ d ∈ ([20, 55, 70, 75, 90] : List Confidence),
      displayConfidence c = displayConfidence d → c = d := by decide
  exact ⟨hall _ a.confidence_mem _ b.confidence_mem, congrArg displayConfidence⟩

/-- The name of a rule type contains no `!`. -/
theorem notMem_asStr (t : RuleType) : '!' ∉ t.asStr := by
  cases t <;> decide

/-- Two admissions have the same scope exactly when they agree in all fields before the location,
and their locations and names agree when they are joined by `~`. -/
theorem scope_eq_iff (hE : E.Lawful) {parserVersion : Str} {a b : Admission E} :
    a.scope parserVersion = b.scope parserVersion ↔
      a.candidate.candidateId = b.candidate.candidateId ∧
      a.candidate.ruleType = b.candidate.ruleType ∧
      a.candidate.confidence = b.candidate.confidence ∧
      a.source.documentId = b.source.documentId ∧
      a.source.documentVersion = b.source.documentVersion ∧
      a.source.contentDigest = b.source.contentDigest ∧
      a.source.location ++ '~' :: a.name = b.source.location ++ '~' :: b.name := by
  have hid : ∀ u, '@' ∉ E.uuid.toStr u := fun u => hE.uuid.notMem_toStr u (by decide)
  have hdoc : ∀ u, '~' ∉ E.uuid.toStr u := fun u => hE.uuid.notMem_toStr u (by decide)
  have hver : ∀ n, '~' ∉ displayInt64 n := fun n => notMem_displayInt64 n (by decide)
  have hdig : ∀ bytes, '~' ∉ E.base64.encode bytes := fun bytes =>
    hE.base64.notMem_encode bytes (by decide)
  rw [scope, scope, admitScopeFor, admitScopeFor, append_cons_inj_iff (hid _) (hid _),
    List.append_cancel_left_eq, List.cons.injEq,
    append_cons_inj_iff (notMem_asStr _) (notMem_asStr _),
    append_cons_inj_iff a.displayConfidence_spec.2 b.displayConfidence_spec.2,
    append_cons_inj_iff (hdoc _) (hdoc _), append_cons_inj_iff (hver _) (hver _),
    append_cons_inj_iff (hdig _) (hdig _), hE.uuid.toStr_injective.eq_iff,
    hE.uuid.toStr_injective.eq_iff, RuleType.asStr_injective.eq_iff, displayConfidence_inj,
    displayInt64_injective.eq_iff, hE.base64.encode_injective.eq_iff,
    List.Vector.toList_injective.eq_iff]
  simp only [true_and]
  rfl

/-- A shifted admission has the same scope. -/
theorem Shifted.scope_eq (hE : E.Lawful) {parserVersion : Str} {a b : Admission E}
    (h : a.Shifted b) : a.scope parserVersion = b.scope parserVersion := by
  obtain ⟨part, hloc, hname⟩ := h.moved
  exact (scope_eq_iff hE).mpr ⟨h.candidateId, h.ruleType, h.confidence, h.documentId,
    h.documentVersion, h.contentDigest,
    append_cons_eq_append_cons_iff.mpr (Or.inr (Or.inl ⟨part, hloc, hname⟩))⟩

/-- A shifted admission has another location. -/
theorem Shifted.location_ne {a b : Admission E} (h : a.Shifted b) :
    a.source.location ≠ b.source.location := by
  obtain ⟨part, hloc, -⟩ := h.moved
  intro he
  have hlen := congrArg List.length (he.trans hloc)
  simp only [List.length_append, List.length_cons] at hlen
  omega

/-- The provenance is ambiguous between shifted admissions, and between no others: an equal scope
means an equal provenance exactly when neither admission is the other one shifted. -/
theorem sameProvenance_of_scope_eq_iff (hE : E.Lawful) (parserVersion : Str) (a b : Admission E) :
    (a.scope parserVersion = b.scope parserVersion → a.SameProvenance b) ↔
      ¬ (a.Shifted b ∨ b.Shifted a) := by
  constructor
  · rintro h (hs | hs)
    · exact hs.location_ne (h (hs.scope_eq hE)).location
    · exact hs.location_ne (h (hs.scope_eq hE).symm).location.symm
  · intro hns h
    obtain ⟨hid, hrt, hconf, hdoc, hver, hdig, htail⟩ := (scope_eq_iff hE).mp h
    rcases append_cons_eq_append_cons_iff.mp htail with ⟨hloc, hname⟩ | ⟨x, hb, ha⟩ | ⟨x, ha, hb⟩
    · exact ⟨hid, hrt, hdoc, hver, hdig, hloc, hname⟩
    · exact absurd (Or.inl ⟨hid, hrt, hconf, hdoc, hver, hdig, x, hb, ha⟩) hns
    · exact absurd (Or.inr ⟨hid.symm, hrt.symm, hconf.symm, hdoc.symm, hver.symm, hdig.symm, x,
        ha, hb⟩) hns

/-- The admission of the candidate of a text with a single block, under the given location. -/
def ofBlock (hE : E.Lawful) (location text : Str) (hne : location ≠ []) (hbang : '!' ∉ location)
    (hbar : '|' ∉ location) (htext : sourceBlocks text = [text]) : Admission E where
  source := ⟨1, 1, List.Vector.replicate 32 0, location, text⟩
  candidate := parseBlock E.caseTables 7 text
  source_parsed := ⟨_, parseInputScope_scopeParts hE hne hbang hbar⟩
  candidate_parsed := ⟨fun _ => 7, text, mem_parseCandidates_iff.mpr ⟨0, by simp [htext], by
    simp [htext]⟩⟩

/-- The name `b~c` found at the location `a`. -/
def nameWithTilde : Admission .reference :=
  ofBlock Externals.reference_lawful "a".toList "Name: b~c".toList (by decide) (by decide)
    (by decide)
    (by decide +kernel)

/-- The name `c` found at the location `a~b`. -/
def locationWithTilde : Admission .reference :=
  ofBlock Externals.reference_lawful "a~b".toList "Name: c".toList (by decide) (by decide)
    (by decide)
    (by decide +kernel)

/-- The two examples are shifted. -/
theorem nameWithTilde_shifted : nameWithTilde.Shifted locationWithTilde :=
  ⟨by decide +kernel, by decide +kernel, by decide +kernel, rfl, rfl, rfl, "b".toList, by decide,
    by decide +kernel⟩

/-- The scope of an admission does not determine its provenance. -/
theorem scope_ambiguous : ¬ ∀ a b : Admission .reference,
    a.scope cargoParserVersion = b.scope cargoParserVersion → a.SameProvenance b := fun h =>
  nameWithTilde_shifted.location_ne
    (h _ _ (nameWithTilde_shifted.scope_eq Externals.reference_lawful)).location

/-- Over the reference externals, the examples are ambiguous and each of them determines itself. -/
theorem sameProvenance_of_scope_eq_examples :
    ¬ (nameWithTilde.scope cargoParserVersion = locationWithTilde.scope cargoParserVersion →
      nameWithTilde.SameProvenance locationWithTilde) ∧
    (nameWithTilde.scope cargoParserVersion = nameWithTilde.scope cargoParserVersion →
      nameWithTilde.SameProvenance nameWithTilde) :=
  ⟨fun h => (sameProvenance_of_scope_eq_iff Externals.reference_lawful _ _ _).mp h
      (Or.inl nameWithTilde_shifted),
    (sameProvenance_of_scope_eq_iff Externals.reference_lawful _ _ _).mpr
      (not_or.mpr ⟨fun h => h.location_ne rfl, fun h => h.location_ne rfl⟩)⟩

/-! ## The length of a scope -/

/-- The characters of an admit scope: 144 for the layout, the two UUIDs, the parser version, the
confidence and the digest, and then the fields whose length varies. -/
theorem length_scope (hE : E.Lawful) (a : Admission E) :
    (a.scope cargoParserVersion).length =
      144 + (a.candidate.ruleType.asStr.length + (displayInt64 a.source.documentVersion).length +
        a.source.location.length + a.name.length) := by
  have hver : cargoParserVersion.length = 17 := by decide
  rw [scope, admitScopeFor]
  simp only [List.length_append, List.length_cons, hE.uuid.length_toStr, hE.base64.length_encode,
    a.displayConfidence_spec.1, hver, List.Vector.toList_length]
  rw [name]
  omega

end Admission

/-- The characters of the admit scope of a candidate of an accepted input scope. -/
theorem length_admitScopeFor (hE : E.Lawful) {scope : Str} {source : SourceReference}
    (hs : parseInputScope E scope = .ok source) {fresh : ℕ → Uuid} {candidate : Candidate}
    (hc : candidate ∈ parseCandidates E.caseTables fresh source.sourceText) :
    (admitScopeFor E cargoParserVersion source candidate).length =
      144 + (candidate.ruleType.asStr.length + (displayInt64 source.documentVersion).length +
        source.location.length + (candidate.name.getD []).length) :=
  Admission.length_scope hE
    { source, candidate, source_parsed := ⟨scope, hs⟩, candidate_parsed := ⟨fresh, _, hc⟩ }

/-- An admit scope respects the bound of the kernel exactly when the rule type, the document
version, the location and the name take at most 56 characters together. -/
theorem length_admitScopeFor_le_iff (hE : E.Lawful) {scope : Str} {source : SourceReference}
    (hs : parseInputScope E scope = .ok source) {fresh : ℕ → Uuid} {candidate : Candidate}
    (hc : candidate ∈ parseCandidates E.caseTables fresh source.sourceText) :
    (admitScopeFor E cargoParserVersion source candidate).length ≤ 200 ↔
      candidate.ruleType.asStr.length + (displayInt64 source.documentVersion).length +
        source.location.length + (candidate.name.getD []).length ≤ 56 := by
  rw [length_admitScopeFor hE hs hc]
  omega

/-- An untagged line at a location of 60 characters. -/
def longLocation : SourceReference :=
  ⟨1, 1, List.Vector.replicate 32 0, List.replicate 60 'p', "x".toList⟩

/-- The input scope of `longLocation` has 145 characters, and it is read back. -/
theorem parseInputScope_longLocation :
    (longLocation.scopeParts .reference).text.length ≤ 200 ∧
      parseInputScope .reference (longLocation.scopeParts .reference).text = .ok longLocation := by
  refine ⟨?_, parseInputScope_scopeParts Externals.reference_lawful (by decide) (by decide)
    (by decide)⟩
  have hv : (displayInt64 longLocation.documentVersion).length = 1 := by decide
  simp only [ScopeParts.text, SourceReference.scopeParts, List.length_append, List.length_cons,
    Externals.reference_lawful.uuid.length_toStr, Externals.reference_lawful.base64.length_encode,
    hv]
  simp [longLocation]

/-- The candidate of `longLocation`. -/
theorem mem_parseCandidates_longLocation :
    parseBlock .ascii 7 "x".toList ∈
      parseCandidates .ascii (fun _ => 7) longLocation.sourceText := by
  decide +kernel

/-- An accepted input scope within the bound of the kernel can lead to an admit scope beyond it. -/
theorem admitScope_over_limit : ¬ ∀ scope source fresh candidate, scope.length ≤ 200 →
    parseInputScope .reference scope = .ok source →
    candidate ∈ parseCandidates Externals.reference.caseTables fresh source.sourceText →
    (admitScopeFor .reference cargoParserVersion source candidate).length ≤ 200 := by
  intro h
  have hle := h _ _ _ _ parseInputScope_longLocation.1 parseInputScope_longLocation.2
    mem_parseCandidates_longLocation
  rw [length_admitScopeFor Externals.reference_lawful parseInputScope_longLocation.2
    mem_parseCandidates_longLocation] at hle
  exact absurd hle (by decide +kernel)

/-- The bound at `longLocation`. -/
theorem length_admitScopeFor_longLocation :
    ¬ (admitScopeFor .reference cargoParserVersion longLocation
      (parseBlock .ascii 7 "x".toList)).length ≤ 200 := by
  rw [length_admitScopeFor_le_iff Externals.reference_lawful parseInputScope_longLocation.2
    mem_parseCandidates_longLocation]
  decide +kernel

end Pf2eParser
