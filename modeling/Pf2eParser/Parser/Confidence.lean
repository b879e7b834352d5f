import Pf2eParser.Parser.Fields

/-!
# What the confidence in a candidate says

The confidence in a block is lowered when no line gives its type and when lines are left over.  Two
things are not taken into account: a type line with an unknown word counts as a type, and a value
that a later line with the same label overwrites is lost without a trace.  The two theorems of this
file say exactly when that makes a difference: `unclassified_confidence_iff` for unknown types and
`lineKept_iff` for overwritten values.
-/

namespace Pf2eParser

open Text

variable {U : CaseTables}

/-! ## The confidence in a block -/

/-- Some line of the block gives its type, whether the word is known or not. -/
def IsTyped (U : CaseTables) (block : Str) : Prop :=
  (openingType U block).isSome ∨ fieldValues U .type (labelLines U block) ≠ []

/-- The last type line of the block has an unknown word. -/
def HasUnknownType (U : CaseTables) (block : Str) : Prop :=
  ∃ value ∈ (fieldValues U .type (labelLines U block)).getLast?,
    typeOfValue U value = .unclassified

/-- The block gives a name, a trigger, an effect, or a list with an item. -/
def HasContent (U : CaseTables) (block : Str) : Prop :=
  (∃ field ∈ ([.name, .trigger, .effect] : List FieldLabel),
    fieldValues U field (labelLines U block) ≠ []) ∨
  ∃ field ∈ ([.traits, .requirements, .prerequisites] : List FieldLabel),
    ∃ value ∈ (fieldValues U field (labelLines U block)).getLast?, splitList value ≠ []

/-- A line of the block has no known label. -/
def HasLeftover (U : CaseTables) (block : Str) : Prop :=
  ∃ line ∈ labelLines U block, lineField U line = none

/-- A bare type is a known one. -/
theorem openingType_ne_unclassified (block : Str) :
    openingType U block ≠ some .unclassified := by
  intro h
  obtain ⟨line, -, hdetect⟩ := Option.bind_eq_some_iff.mp h
  unfold detectBareType at hdetect
  split at hdetect
  · simp at hdetect
  case h_2 hne => exact hne (Option.some.inj hdetect)

/-- The block has a type exactly when the loop has read one. -/
theorem ruleType_readLines_eq_none_iff (block : Str) :
    (readLines U block).ruleType = none ↔ ¬ IsTyped U block := by
  rw [readLines_eq]
  simp [IsTyped, and_comm]

/-- The type that the loop has read is unclassified exactly when a type line says so. -/
theorem ruleType_readLines_eq_unclassified_iff (block : Str) :
    (readLines U block).ruleType = some .unclassified ↔ HasUnknownType U block := by
  have hopening := @openingType_ne_unclassified U block
  rw [readLines_eq]
  simp only [List.getLast?_map, HasUnknownType]
  cases (fieldValues U .type (labelLines U block)).getLast? with
  | none => simpa using hopening
  | some value => simp

/-- A candidate without a known type: no line gives one, or the last type line is unknown. -/
theorem ruleType_getD_eq_unclassified_iff (block : Str) :
    (readLines U block).ruleType.getD .unclassified = .unclassified ↔
      (IsTyped U block → HasUnknownType U block) := by
  have hnone := ruleType_readLines_eq_none_iff (U := U) block
  rw [← ruleType_readLines_eq_unclassified_iff]
  cases htype : (readLines U block).ruleType with
  | none => simp [hnone.mp htype]
  | some type =>
    have htyped : IsTyped U block := by
      by_contra hnot
      simp [hnone.mpr hnot] at htype
    simp [htyped]

/-- The loop has read no field at all. -/
theorem isUnstructured_readLines_iff (block : Str) :
    (readLines U block).IsUnstructured ↔
      ¬ HasContent U block ∧ (IsTyped U block → HasUnknownType U block) := by
  have hlist : ∀ values : List Str, (values.map splitList).getLast?.getD [] = [] ↔
      ∀ value ∈ values.getLast?, splitList value = [] := by
    intro values
    rw [List.getLast?_map]
    cases values.getLast? <;> simp
  rw [BlockFields.IsUnstructured, ← ruleType_getD_eq_unclassified_iff]
  simp only [readLines_eq, hlist, HasContent, List.getLast?_eq_none_iff]
  simp only [List.mem_cons, List.not_mem_nil, or_false, not_or, not_exists, not_and, not_not,
    forall_eq_or_imp, forall_eq, and_assoc]

/-- Lines are left over exactly when a line has no known label. -/
theorem leftoverLines_readLines_eq_nil_iff (block : Str) :
    (readLines U block).leftoverLines = [] ↔ ¬ HasLeftover U block := by
  rw [readLines_eq]
  simp [HasLeftover, List.filter_eq_nil_iff]

open Classical in
/-- The confidence in a block, in terms of its lines. -/
theorem confidence_parseBlock_eq (candidateId : Uuid) (block : Str) :
    (parseBlock U candidateId block).confidence =
      if ¬ HasContent U block ∧ (IsTyped U block → HasUnknownType U block) then
        unclassifiedConfidence
      else baseConfidence - (if IsTyped U block then 0 else missingTypePenalty) -
        (if HasLeftover U block then leftoverPenalty else 0) := by
  have hunstructured := isUnstructured_readLines_iff (U := U) block
  have htyped := ruleType_readLines_eq_none_iff (U := U) block
  have hleftover := leftoverLines_readLines_eq_nil_iff (U := U) block
  simp only [parseBlock]
  by_cases hu : (readLines U block).IsUnstructured
  · rw [if_pos hu, if_pos (hunstructured.mp hu)]
  · rw [if_neg hu, if_neg (hunstructured.not.mp hu)]
    simp only [BlockFields.confidence, htyped, hleftover]
    split <;> split <;> simp_all <;> decide

/-! ## Unknown types -/

/-- The type of a candidate. -/
theorem ruleType_parseBlock (candidateId : Uuid) (block : Str) :
    (parseBlock U candidateId block).ruleType =
      (readLines U block).ruleType.getD .unclassified := by
  simp only [parseBlock]
  split
  case isTrue h => exact h.2.2.2.2.2.2.symm
  case isFalse => rfl

/-- An unclassified candidate pays for its missing type, unless its block has an unknown type and
some content. -/
theorem confidence_le_of_unclassified_iff (candidateId : Uuid) (block : Str) :
    ((parseBlock U candidateId block).ruleType = .unclassified →
        (parseBlock U candidateId block).confidence ≤ baseConfidence - missingTypePenalty) ↔
      ¬ (HasUnknownType U block ∧ HasContent U block) := by
  have htyped : HasUnknownType U block → IsTyped U block := by
    rintro ⟨value, hvalue, -⟩
    refine Or.inr fun hnil => ?_
    simp [hnil] at hvalue
  rw [ruleType_parseBlock, ruleType_getD_eq_unclassified_iff, confidence_parseBlock_eq]
  by_cases hcontent : HasContent U block <;> by_cases hunknown : HasUnknownType U block <;>
    by_cases ht : IsTyped U block <;> by_cases hleft : HasLeftover U block <;>
    simp [hcontent, hunknown, ht, hleft, baseConfidence, missingTypePenalty, leftoverPenalty,
      unclassifiedConfidence] at htyped ⊢

/-! ## Another type line -/

/-- A line with a colon is no bare type. -/
theorem detectBareType_eq_none_of_colon (hA : U.FollowsAscii) {line : Str} (h : ':' ∈ line) :
    detectBareType U line = none := by
  have htrim : ':' ∈ trim line := by
    rw [← List.singleton_infix_iff] at h ⊢
    exact (infix_trim_iff (by simp) (List.all_iff_forall_prop.mp (by decide))).mpr h
  have hcolon : ':' ∈ normalizeType U line := by
    have hlower := (hA.mem_toLowercase_iff (d := ':') (by decide) (by decide) (trim line)).mpr htrim
    exact List.mem_map.mpr ⟨':', hlower, by decide⟩
  have hparse : RuleType.parse (normalizeType U line) = .unclassified := by
    generalize normalizeType U line = word at hcolon
    unfold RuleType.parse
    split_ifs with h₁ h₂ h₃ h₄ h₅
    all_goals first | rfl | (subst_vars; exact absurd hcolon (by decide))
  unfold detectBareType
  rw [hparse]

/-- A labelled line has a colon. -/
theorem colon_mem_of_lineField {line : Str} {entry : FieldLabel × Str}
    (h : lineField U line = some entry) : ':' ∈ line := by
  obtain ⟨labelled, hsplit, -⟩ := Option.bind_eq_some_iff.mp h
  obtain ⟨⟨label, value⟩, hcut, -⟩ := Option.bind_eq_some_iff.mp hsplit
  rw [(splitOnce_singleton_iff.mp hcut).1]
  simp

/-- What an unknown type line changes in the lines of a block. -/
structure TypeLineAdded (U : CaseTables) (block block' value : Str) : Prop where
  /-- The values of the other labels are the same. -/
  fieldValues_eq : ∀ field, field ≠ .type →
    fieldValues U field (labelLines U block') = fieldValues U field (labelLines U block)
  /-- There is one more type value. -/
  types : ∃ front back, fieldValues U .type (labelLines U block) = front ++ back ∧
    fieldValues U .type (labelLines U block') = front ++ value :: back
  /-- Lines that are left over stay left over. -/
  leftover : HasLeftover U block → HasLeftover U block'
  /-- Nothing else is left over, unless the opening type has lost its place. -/
  leftover_of_not_isTyped : ¬ IsTyped U block → HasLeftover U block' → HasLeftover U block

/-- A type line among the lines behind the opening type. -/
theorem typeLineAdded_of_labelLines {block block' line value : Str} {front back : List Str}
    (hline : lineField U line = some (.type, value)) (h : labelLines U block = front ++ back)
    (h' : labelLines U block' = front ++ line :: back) : TypeLineAdded U block block' value := by
  refine ⟨fun field hne => ?_, ⟨fieldValues U .type front, fieldValues U .type back, ?_, ?_⟩,
    ?_, ?_⟩
  · rw [h, h', fieldValues_append, fieldValues_append, fieldValues_cons, hline]
    simp [hne.symm]
  · rw [h, fieldValues_append]
  · rw [h', fieldValues_append, fieldValues_cons, hline]
    simp
  · rintro ⟨l, hl, hnone⟩
    rw [h] at hl
    refine ⟨l, ?_, hnone⟩
    rw [h']
    rcases List.mem_append.mp hl with hl | hl
    · exact List.mem_append_left _ hl
    · exact List.mem_append_right _ (List.mem_cons_of_mem _ hl)
  · rintro - ⟨l, hl, hnone⟩
    rw [h'] at hl
    refine ⟨l, ?_, hnone⟩
    rw [h]
    rcases List.mem_append.mp hl with hl | hl
    · exact List.mem_append_left _ hl
    · rcases List.mem_cons.mp hl with rfl | hl
      · simp [hline] at hnone
      · exact List.mem_append_right _ hl

/-- A type line in front of the opening type: that one is left over from now on. -/
theorem typeLineAdded_of_opening {block block' line opening value : Str} {ls : List Str}
    (hline : lineField U line = some (.type, value)) (hopening : lineField U opening = none)
    (htyped : IsTyped U block) (h : labelLines U block = ls)
    (h' : labelLines U block' = line :: opening :: ls) : TypeLineAdded U block block' value := by
  refine ⟨fun field hne => ?_, ⟨[], fieldValues U .type ls, ?_, ?_⟩, fun _ => ?_,
    fun hnot => absurd htyped hnot⟩
  · rw [h, h', fieldValues_cons, fieldValues_cons, hline, hopening]
    simp [hne.symm]
  · rw [h, List.nil_append]
  · rw [h', fieldValues_cons, fieldValues_cons, hline, hopening]
    simp
  · exact ⟨opening, by simp [h'], hopening⟩

/-- The lines of a block that are read: trimmed, and without the blank ones. -/
def trimmedLines (ls : List Str) : List Str := (ls.map trim).filter fun line => !line.isEmpty

/-- The lines of a block, and of the block with one more line among them. -/
theorem blockLines_inserted {before after : List Str} {line : Str}
    (hlines : ∀ l ∈ before ++ line :: after, '\n' ∉ l) (hne : trim line ≠ []) :
    blockLines (['\n'].intercalate (before ++ after)) = trimmedLines before ++ trimmedLines after ∧
      blockLines (['\n'].intercalate (before ++ line :: after)) =
        trimmedLines before ++ trim line :: trimmedLines after := by
  constructor
  · rw [blockLines_joined _ fun l hl => hlines l (by
      rcases List.mem_append.mp hl with hl | hl <;> simp [hl])]
    simp [trimmedLines]
  · rw [blockLines_joined _ hlines]
    simp [trimmedLines, hne]

/-- A block opens with the type of its first line. -/
theorem openingType_eq (block : Str) :
    openingType U block = (blockLines block).head?.bind (detectBareType U) := rfl

/-- A type line that is inserted behind the first line of a block. -/
theorem typeLineAdded_of_cons {block block' line first value : Str} {front back : List Str}
    (hline : lineField U line = some (.type, value))
    (h : blockLines block = first :: (front ++ back))
    (h' : blockLines block' = first :: (front ++ line :: back)) :
    TypeLineAdded U block block' value := by
  have hfirst : openingType U block' = openingType U block := by
    rw [openingType_eq, openingType_eq, h, h', List.head?_cons, List.head?_cons]
  by_cases hsome : (openingType U block).isSome
  · apply @typeLineAdded_of_labelLines _ _ _ _ _ front back hline
    · rw [labelLines, if_pos hsome, h, List.tail_cons]
    · rw [labelLines, hfirst, if_pos hsome, h', List.tail_cons]
  · apply @typeLineAdded_of_labelLines _ _ _ _ _ (first :: front) back hline
    · rw [labelLines, if_neg hsome, h, List.cons_append]
    · rw [labelLines, hfirst, if_neg hsome, h', List.cons_append]

/-- A type line that is inserted in front of the lines of a block. -/
theorem typeLineAdded_of_head (hA : U.FollowsAscii) {block block' line value : Str}
    (hline : lineField U line = some (.type, value))
    (h' : blockLines block' = line :: blockLines block) : TypeLineAdded U block block' value := by
  have hnone : openingType U block' = none := by
    rw [openingType_eq, h', List.head?_cons, Option.bind_some]
    exact detectBareType_eq_none_of_colon hA (colon_mem_of_lineField hline)
  have hlabels' : labelLines U block' = line :: blockLines block := by
    rw [labelLines, hnone, if_neg (by simp), h']
  by_cases hsome : (openingType U block).isSome
  · obtain ⟨opening, ls, hfirst⟩ : ∃ opening ls, blockLines block = opening :: ls := by
      refine List.exists_cons_of_ne_nil fun hnil => ?_
      simp [openingType_eq, hnil] at hsome
    apply @typeLineAdded_of_opening _ _ _ _ opening _ ls hline
    · by_contra hlabelled
      obtain ⟨entry, hentry⟩ := Option.ne_none_iff_exists'.mp hlabelled
      have hbare := detectBareType_eq_none_of_colon hA (colon_mem_of_lineField hentry)
      simp [openingType_eq, hfirst, hbare] at hsome
    · exact Or.inl hsome
    · rw [labelLines, if_pos hsome, hfirst, List.tail_cons]
    · rw [hlabels', hfirst]
  · apply @typeLineAdded_of_labelLines _ _ _ _ _ [] (blockLines block) hline
    · rw [labelLines, if_neg hsome, List.nil_append]
    · rw [hlabels', List.nil_append]

/-- A type line that is inserted into a block. -/
theorem typeLineAdded_of_joined (hA : U.FollowsAscii) {before after : List Str}
    {typeLine value : Str} (hlines : ∀ line ∈ before ++ typeLine :: after, '\n' ∉ line)
    (htype : lineField U (trim typeLine) = some (.type, value)) :
    TypeLineAdded U (['\n'].intercalate (before ++ after))
      (['\n'].intercalate (before ++ typeLine :: after)) value := by
  have hne : trim typeLine ≠ [] := List.ne_nil_of_mem (colon_mem_of_lineField htype)
  obtain ⟨h, h'⟩ := blockLines_inserted hlines hne
  cases hfront : trimmedLines before with
  | cons first front =>
    rw [hfront] at h h'
    exact typeLineAdded_of_cons htype h h'
  | nil =>
    rw [hfront, List.nil_append] at h h'
    apply typeLineAdded_of_head hA htype
    rw [h, h']

/-- A further type line with an unknown word does not raise the confidence in a block, unless the
block has no type and some content. -/
theorem TypeLineAdded.confidence_le_iff {block block' value : Str}
    (h : TypeLineAdded U block block' value) (hvalue : typeOfValue U value = .unclassified)
    (id id' : Uuid) :
    (parseBlock U id' block').confidence ≤ (parseBlock U id block).confidence ↔
      (HasContent U block → IsTyped U block) := by
  obtain ⟨front, back, htypes, htypes'⟩ := h.types
  have hcontent : HasContent U block' ↔ HasContent U block := by
    simp [HasContent, h.fieldValues_eq]
  have htyped' : IsTyped U block' := by
    refine Or.inr ?_
    rw [htypes']
    simp
  have hunknown : (IsTyped U block → HasUnknownType U block) → HasUnknownType U block' := by
    intro hunknown
    unfold HasUnknownType at hunknown ⊢
    rw [htypes']
    rcases eq_or_ne back [] with rfl | hback
    · exact ⟨value, by simp, hvalue⟩
    · have hne : fieldValues U .type (labelLines U block) ≠ [] := by simp [htypes, hback]
      obtain ⟨last, hlast, hlastType⟩ := hunknown (Or.inr hne)
      rw [htypes, List.getLast?_append_of_ne_nil _ hback] at hlast
      refine ⟨last, ?_, hlastType⟩
      rwa [List.getLast?_append_of_ne_nil _ (by simp), List.getLast?_cons_of_ne_nil hback]
  have hleft := h.leftover
  have hleft' := h.leftover_of_not_isTyped
  rw [confidence_parseBlock_eq, confidence_parseBlock_eq, hcontent]
  by_cases hc : HasContent U block <;> by_cases ht : IsTyped U block <;>
    by_cases hu : HasUnknownType U block <;> by_cases hu' : HasUnknownType U block' <;>
    by_cases hl : HasLeftover U block <;> by_cases hl' : HasLeftover U block' <;>
    simp [hc, ht, htyped', hu, hu', hl, hl', baseConfidence, missingTypePenalty, leftoverPenalty,
      unclassifiedConfidence] at hunknown hleft hleft' ⊢

/-- Exactly when unclassified candidates pay for their missing type, and exactly when another type
line with an unknown word does not raise the confidence in a block. -/
theorem unclassified_confidence_iff (hA : U.FollowsAscii) (fresh : ℕ → Uuid) :
    (∀ sourceText : Str,
      (∀ candidate ∈ parseCandidates U fresh sourceText, candidate.ruleType = .unclassified →
          candidate.confidence ≤ baseConfidence - missingTypePenalty) ↔
        ∀ block ∈ sourceBlocks sourceText, ¬ (HasUnknownType U block ∧ HasContent U block)) ∧
    ∀ (before after : List Str) (typeLine value : Str) (id id' : Uuid),
      (∀ line ∈ before ++ typeLine :: after, '\n' ∉ line) →
      lineField U (trim typeLine) = some (.type, value) → typeOfValue U value = .unclassified →
      ((parseBlock U id' (['\n'].intercalate (before ++ typeLine :: after))).confidence ≤
          (parseBlock U id (['\n'].intercalate (before ++ after))).confidence ↔
        (HasContent U (['\n'].intercalate (before ++ after)) →
          IsTyped U (['\n'].intercalate (before ++ after)))) := by
  constructor
  · intro sourceText
    constructor
    · intro h block hblock
      obtain ⟨i, hi, rfl⟩ := List.mem_iff_getElem.mp hblock
      rw [← confidence_le_of_unclassified_iff (fresh i)]
      exact h _ (mem_parseCandidates_iff.mpr ⟨i, hi, rfl⟩)
    · intro h candidate hcandidate
      obtain ⟨i, hi, rfl⟩ := mem_parseCandidates_iff.mp hcandidate
      exact (confidence_le_of_unclassified_iff (fresh i) _).mpr (h _ (List.getElem_mem hi))
  · intro before after typeLine value id id' hlines htype hvalue
    exact (typeLineAdded_of_joined hA hlines htype).confidence_le_iff hvalue id id'

/-- A named rule of an unknown type. -/
def unknownTypeText : Str := "Name: Fireball\nType: spell".toList

/-- The unknown type is not paid for, and without its line the confidence is lower. -/
theorem unclassified_confidence_fails :
    (¬ ∀ (fresh : ℕ → Uuid) (sourceText : Str),
      ∀ candidate ∈ parseCandidates .ascii fresh sourceText, candidate.ruleType = .unclassified →
        candidate.confidence ≤ baseConfidence - missingTypePenalty) ∧
    ¬ ∀ (before after : List Str) (typeLine value : Str) (id id' : Uuid),
      (∀ line ∈ before ++ typeLine :: after, '\n' ∉ line) →
      lineField .ascii (trim typeLine) = some (.type, value) →
      typeOfValue .ascii value = .unclassified →
      (parseBlock .ascii id' (['\n'].intercalate (before ++ typeLine :: after))).confidence ≤
        (parseBlock .ascii id (['\n'].intercalate (before ++ after))).confidence := by
  constructor
  · intro h
    have hall := h (fun _ => 0) unknownTypeText
    revert hall
    decide +kernel
  · intro h
    have hle := h ["Name: Fireball".toList] [] "Type: spell".toList "spell".toList 0 0
      (by decide +kernel) (by decide +kernel) (by decide +kernel)
    revert hle
    decide +kernel

/-- With the ASCII tables, the named rule of an unknown type is the exception, and a feat does not
gain by another type line. -/
theorem unclassified_confidence_examples :
    (¬ ∀ block ∈ sourceBlocks unknownTypeText,
      ¬ (HasUnknownType .ascii block ∧ HasContent .ascii block)) ∧
    (HasContent .ascii "Feat\nName: Fireball".toList →
      IsTyped .ascii "Feat\nName: Fireball".toList) := by
  constructor
  · rw [← (unclassified_confidence_iff CaseTables.ascii_followsAscii (fun _ => 0)).1]
    decide +kernel
  · exact ((unclassified_confidence_iff CaseTables.ascii_followsAscii (fun _ => 0)).2
      ["Feat".toList] ["Name: Fireball".toList] "Type: spell".toList "spell".toList 0 0
      (by decide +kernel) (by decide +kernel) (by decide +kernel)).mp (by decide +kernel)

/-! ## Overwritten values -/

/-- The value is found in the field of its label. -/
def FieldLabel.Holds (candidate : Candidate) : FieldLabel → Str → Prop
  | .type, _ => False
  | .name, value => candidate.name = some value
  | .traits, value => ∀ item ∈ splitList value, item ∈ candidate.traits
  | .trigger, value => candidate.trigger = some value
  | .requirements, value => ∀ item ∈ splitList value, item ∈ candidate.requirements
  | .prerequisites, value => ∀ item ∈ splitList value, item ∈ candidate.prerequisites
  | .effect, value => candidate.effect = some value
  | .references, value => ∀ item ∈ splitList value, item ∈ candidate.references

/-- The line with the given lines before and behind it has not been lost: it is the opening type, it
is the last type line, or its value is in the candidate. -/
def LineKept (U : CaseTables) (block : Str) (candidate : Candidate) (before : List Str) (line : Str)
    (after : List Str) : Prop :=
  (before = [] ∧ (openingType U block).isSome) ∨
  (∃ value, lineField U line = some (.type, value) ∧ fieldValues U .type after = []) ∨
  ∃ field value, lineField U line = some (field, value) ∧ field.Holds candidate value

/-- No line takes away the value of an earlier line with its label: there is at most one type line,
all values of a scalar label are the same, and every item of a list is in the last list of its
label. -/
structure NothingOverwritten (U : CaseTables) (block : Str) : Prop where
  type : (fieldValues U .type (labelLines U block)).length ≤ 1
  scalar : ∀ field ∈ ([.name, .trigger, .effect] : List FieldLabel),
    ∀ value ∈ fieldValues U field (labelLines U block),
      ∀ last ∈ (fieldValues U field (labelLines U block)).getLast?, value = last
  list : ∀ field ∈ ([.traits, .requirements, .prerequisites] : List FieldLabel),
    ∀ value ∈ fieldValues U field (labelLines U block),
      ∀ last ∈ (fieldValues U field (labelLines U block)).getLast?,
        ∀ item ∈ splitList value, item ∈ splitList last

/-- At full confidence every line has a known label, and some field is recognized. -/
theorem of_confidence_eq_base {candidateId : Uuid} {block : Str}
    (h : (parseBlock U candidateId block).confidence = baseConfidence) :
    ¬ (readLines U block).IsUnstructured ∧ ¬ HasLeftover U block := by
  rw [isUnstructured_readLines_iff]
  rw [confidence_parseBlock_eq] at h
  split at h
  · exact absurd h (by decide)
  case isFalse hstructured =>
    refine ⟨hstructured, fun hleft => ?_⟩
    rw [if_pos hleft] at h
    split at h <;> exact absurd h (by decide)

/-- The value of a label is found in the candidate of a structured block exactly when the last value
of the label says the same. -/
theorem holds_parseBlock_iff {candidateId : Uuid} {block : Str}
    (h : ¬ (readLines U block).IsUnstructured) {field : FieldLabel} {value : Str}
    (hvalue : value ∈ fieldValues U field (labelLines U block)) :
    field.Holds (parseBlock U candidateId block) value ↔ match field with
      | .type => False
      | .name | .trigger | .effect =>
        ∀ last ∈ (fieldValues U field (labelLines U block)).getLast?, value = last
      | .traits | .requirements | .prerequisites =>
        ∀ last ∈ (fieldValues U field (labelLines U block)).getLast?,
          ∀ item ∈ splitList value, item ∈ splitList last
      | .references => True := by
  obtain ⟨last, hlast⟩ : ∃ last, (fieldValues U field (labelLines U block)).getLast? = some last :=
    Option.ne_none_iff_exists'.mp fun hnone => by
      rw [List.getLast?_eq_none_iff.mp hnone] at hvalue
      exact absurd hvalue List.not_mem_nil
  simp only [parseBlock, if_neg h]
  simp only [readLines_eq]
  cases field with
  | type => exact Iff.rfl
  | name => simp [FieldLabel.Holds, hlast, eq_comm]
  | traits => simp [FieldLabel.Holds, hlast]
  | trigger => simp [FieldLabel.Holds, hlast, eq_comm]
  | requirements => simp [FieldLabel.Holds, hlast]
  | prerequisites => simp [FieldLabel.Holds, hlast]
  | effect => simp [FieldLabel.Holds, hlast, eq_comm]
  | references =>
    refine iff_true_intro fun item hitem => List.mem_append_left _ ?_
    exact List.mem_flatMap.mpr ⟨value, hvalue, hitem⟩

/-- There is at most one value of a label exactly when no line with the label has another one behind
it. -/
theorem length_fieldValues_le_one_iff (field : FieldLabel) (ls : List Str) :
    (fieldValues U field ls).length ≤ 1 ↔ ∀ before line after value, ls = before ++ line :: after →
      lineField U line = some (field, value) → fieldValues U field after = [] := by
  constructor
  · rintro hlen before line after value rfl hline
    rw [fieldValues_append, fieldValues_cons, hline] at hlen
    simp only [if_true, List.length_append, List.length_singleton] at hlen
    exact List.length_eq_zero_iff.mp (by omega)
  · intro h
    induction ls with
    | nil => simp [fieldValues]
    | cons line ls ih =>
      have hrest := ih fun before l after value heq =>
        h (line :: before) l after value (by simp [heq])
      rw [fieldValues_cons]
      rcases hline : lineField U line with _ | ⟨field', value⟩
      · simpa using hrest
      · by_cases heq : field' = field
        · subst heq
          simp [h [] line ls value rfl hline]
        · simpa [heq] using hrest

/-- A line behind the opening type, among all lines of the block. -/
theorem exists_blockLines_eq {block line : Str} {before after : List Str}
    (h : labelLines U block = before ++ line :: after) :
    ∃ before', blockLines block = before' ++ line :: after ∧
      ¬ (before' = [] ∧ (openingType U block).isSome) := by
  rcases blockLines_eq (U := U) block with ⟨hnone, heq⟩ | ⟨-, opening, heq⟩
  · exact ⟨before, heq.trans h, by simp [hnone]⟩
  · exact ⟨opening :: before, by rw [heq, h, List.cons_append], by simp⟩

/-- A line of the block is the opening type, or it is among the lines behind it. -/
theorem labelLines_of_blockLines_eq {block line : Str} {before after : List Str}
    (h : blockLines block = before ++ line :: after) :
    (before = [] ∧ (openingType U block).isSome) ∨
      ∃ before', labelLines U block = before' ++ line :: after := by
  rcases blockLines_eq (U := U) block with ⟨-, heq⟩ | ⟨hsome, opening, heq⟩
  · exact Or.inr ⟨before, heq.symm.trans h⟩
  · cases before with
    | nil => exact Or.inl ⟨rfl, hsome⟩
    | cons first before =>
      rw [heq, List.cons_append] at h
      exact Or.inr ⟨before, (List.cons.inj h).2⟩

/-- A labelled line that is kept is the last type line, or its value is in the candidate. -/
theorem LineKept.holds {candidate : Candidate} {block line value : Str} {before after : List Str}
    {field : FieldLabel} (h : LineKept U block candidate before line after)
    (hlater : ¬ (before = [] ∧ (openingType U block).isSome))
    (hfield : lineField U line = some (field, value)) :
    (field = .type ∧ fieldValues U .type after = []) ∨ field.Holds candidate value := by
  rcases h with hopening | ⟨value', htype, hlast⟩ | ⟨field', value', hfield', hholds⟩
  · exact absurd hopening hlater
  · rw [hfield] at htype
    exact Or.inl ⟨(Prod.mk.inj (Option.some.inj htype)).1, hlast⟩
  · rw [hfield] at hfield'
    obtain ⟨rfl, rfl⟩ := Prod.mk.inj (Option.some.inj hfield')
    exact Or.inr hholds

/-- If every line of a structured block is kept, nothing is overwritten. -/
theorem nothingOverwritten_of_lineKept {candidateId : Uuid} {block : Str}
    (hstructured : ¬ (readLines U block).IsUnstructured)
    (hkept : ∀ before line after, blockLines block = before ++ line :: after →
      LineKept U block (parseBlock U candidateId block) before line after) :
    NothingOverwritten U block := by
  have hline : ∀ before line after field value, labelLines U block = before ++ line :: after →
      lineField U line = some (field, value) → (field = .type ∧ fieldValues U .type after = []) ∨
        field.Holds (parseBlock U candidateId block) value := by
    intro before line after field value heq hfield
    obtain ⟨before', heq', hlater⟩ := exists_blockLines_eq heq
    exact (hkept before' line after heq').holds hlater hfield
  have hholds : ∀ field value, field ≠ .type → value ∈ fieldValues U field (labelLines U block) →
      field.Holds (parseBlock U candidateId block) value := by
    intro field value hne hvalue
    obtain ⟨line, hmem, hfield⟩ := mem_fieldValues_iff.mp hvalue
    obtain ⟨before, after, heq⟩ := List.append_of_mem hmem
    exact (hline before line after field value heq hfield).resolve_left fun hlast => hne hlast.1
  refine ⟨?_, fun field hfield value hvalue => ?_, fun field hfield value hvalue => ?_⟩
  · rw [length_fieldValues_le_one_iff]
    intro before line after value heq hfield
    exact ((hline before line after .type value heq hfield).resolve_right id).2
  · have hne : field ≠ .type := by rintro rfl; simp at hfield
    have hiff := (holds_parseBlock_iff hstructured hvalue).mp (hholds field value hne hvalue)
    simp only [List.mem_cons, List.not_mem_nil, or_false] at hfield
    rcases hfield with rfl | rfl | rfl <;> exact hiff
  · have hne : field ≠ .type := by rintro rfl; simp at hfield
    have hiff := (holds_parseBlock_iff hstructured hvalue).mp (hholds field value hne hvalue)
    simp only [List.mem_cons, List.not_mem_nil, or_false] at hfield
    rcases hfield with rfl | rfl | rfl <;> exact hiff

/-- If nothing is overwritten, every line of a structured block without leftovers is kept. -/
theorem NothingOverwritten.lineKept {candidateId : Uuid} {block : Str}
    (hstructured : ¬ (readLines U block).IsUnstructured) (hleft : ¬ HasLeftover U block)
    (hnothing : NothingOverwritten U block) {before after : List Str} {line : Str}
    (heq : blockLines block = before ++ line :: after) :
    LineKept U block (parseBlock U candidateId block) before line after := by
  rcases labelLines_of_blockLines_eq (U := U) heq with hopening | ⟨before', heq'⟩
  · exact Or.inl hopening
  obtain ⟨⟨field, value⟩, hfield⟩ : ∃ entry, lineField U line = some entry := by
    refine Option.ne_none_iff_exists'.mp fun hnone => hleft ⟨line, ?_, hnone⟩
    rw [heq']
    simp
  have hvalue : value ∈ fieldValues U field (labelLines U block) :=
    mem_fieldValues_iff.mpr ⟨line, by rw [heq']; simp, hfield⟩
  refine Or.inr ?_
  by_cases htype : field = .type
  · subst htype
    exact Or.inl ⟨value, hfield, (length_fieldValues_le_one_iff .type _).mp hnothing.type before'
      line after value heq' hfield⟩
  · refine Or.inr ⟨field, value, hfield, (holds_parseBlock_iff hstructured hvalue).mpr ?_⟩
    cases field with
    | type => exact htype rfl
    | name | trigger | effect => exact hnothing.scalar _ (by simp) value hvalue
    | traits | requirements | prerequisites => exact hnothing.list _ (by simp) value hvalue
    | references => trivial

/-- In a block of full confidence no line is lost exactly when nothing is overwritten. -/
theorem lineKept_iff (candidateId : Uuid) (block : Str)
    (h : (parseBlock U candidateId block).confidence = baseConfidence) :
    (∀ before line after, blockLines block = before ++ line :: after →
        LineKept U block (parseBlock U candidateId block) before line after) ↔
      NothingOverwritten U block := by
  obtain ⟨hstructured, hleft⟩ := of_confidence_eq_base h
  constructor
  · intro hkept
    exact nothingOverwritten_of_lineKept hstructured hkept
  · intro hnothing before line after heq
    exact hnothing.lineKept hstructured hleft heq

/-- A feat with two names. -/
def renamedFeat : Str := "Feat\nName: Fireball\nName: Fire Bolt".toList

/-- The first of the two names is lost. -/
theorem not_lineKept_renamedFeat :
    ¬ LineKept .ascii renamedFeat (parseBlock .ascii 0 renamedFeat) ["Feat".toList]
      "Name: Fireball".toList ["Name: Fire Bolt".toList] := by
  have hname : lineField .ascii "Name: Fireball".toList = some (.name, "Fireball".toList) := by
    decide +kernel
  rintro (⟨hnil, -⟩ | ⟨value, htype, -⟩ | ⟨field, value, hfield, hholds⟩)
  · exact absurd hnil (by simp)
  · rw [hname] at htype
    exact absurd (Prod.mk.inj (Option.some.inj htype)).1 (by decide)
  · rw [hname] at hfield
    obtain ⟨rfl, rfl⟩ := Prod.mk.inj (Option.some.inj hfield)
    have hother : (parseBlock .ascii 0 renamedFeat).name = some "Fire Bolt".toList := by
      decide +kernel
    exact absurd (hother.symm.trans hholds) (by decide)

/-- A line can be lost at full confidence. -/
theorem lineKept_fails :
    ¬ ∀ (candidateId : Uuid) (block : Str),
      (parseBlock .ascii candidateId block).confidence = baseConfidence →
      ∀ before line after, blockLines block = before ++ line :: after →
        LineKept .ascii block (parseBlock .ascii candidateId block) before line after := fun h =>
  not_lineKept_renamedFeat
    (h 0 renamedFeat (by decide +kernel) _ _ _ (by decide +kernel))

/-- The name of a feat is kept if it has one name, and overwritten if it has two. -/
theorem lineKept_examples :
    LineKept .ascii "Feat\nName: Fireball".toList
      (parseBlock .ascii 0 "Feat\nName: Fireball".toList) ["Feat".toList] "Name: Fireball".toList
      [] ∧
    ¬ NothingOverwritten .ascii renamedFeat := by
  constructor
  · refine (lineKept_iff 0 "Feat\nName: Fireball".toList (by decide +kernel)).mpr ?_ _ _ _
      (by decide +kernel)
    refine ⟨?_, ?_, ?_⟩ <;> decide +kernel
  · rw [← lineKept_iff 0 renamedFeat (by decide +kernel)]
    exact fun h => not_lineKept_renamedFeat (h _ _ _ (by decide +kernel))

end Pf2eParser
