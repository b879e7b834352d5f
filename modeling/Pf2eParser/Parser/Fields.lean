import Pf2eParser.Parser

/-!
# What the line loop computes

The line loop of `parse_block` goes through the lines of a block and updates its accumulators.  Here
is what it comes to: the opening line may be a bare rule type, every other line carries one of eight
field labels or is left over, and each accumulator depends on the values of its own label only.  The
last value of a label wins, except that references are collected (`readLines_eq`).
-/

namespace Pf2eParser

open Text

/-! ## Labelled lines -/

/-- The labels that the parser knows. -/
inductive FieldLabel where
  | type
  | name
  | traits
  | trigger
  | requirements
  | prerequisites
  | effect
  | references
  deriving DecidableEq

/-- The field that a lower-case label names. -/
def fieldLabel (label : Str) : Option FieldLabel :=
  if label = "type".toList then some .type
  else if label = "name".toList then some .name
  else if label = "traits".toList then some .traits
  else if label = "trigger".toList then some .trigger
  else if label = "requirements".toList then some .requirements
  else if label = "prerequisites".toList then some .prerequisites
  else if label = "effect".toList then some .effect
  else if label = "see also".toList ∨ label = "references".toList then some .references
  else none

variable (U : CaseTables)

/-- The field and the value of a line with a known label. -/
def lineField (line : Str) : Option (FieldLabel × Str) :=
  (splitLabel U line).bind fun (label, value) => (fieldLabel label).map fun field => (field, value)

/-- The values of the lines with the given label, in order. -/
def fieldValues (field : FieldLabel) (lines : List Str) : List Str :=
  lines.filterMap fun line =>
    (lineField U line).bind fun entry => if entry.1 = field then some entry.2 else none

/-- The rule type of a type line. -/
def typeOfValue (value : Str) : RuleType := RuleType.parse (normalizeType U value)

/-- The bare rule type that opens a block. -/
def openingType (block : Str) : Option RuleType :=
  (blockLines block).head?.bind (detectBareType U)

/-- The lines of a block behind its opening type. -/
def labelLines (block : Str) : List Str :=
  if (openingType U block).isSome then (blockLines block).tail else blockLines block

/-- A value sets the field of its label. -/
def BlockFields.set (fields : BlockFields) : FieldLabel → Str → BlockFields
  | .type, value => { fields with ruleType := some (typeOfValue U value) }
  | .name, value => { fields with name := some value }
  | .traits, value => { fields with traits := splitList value }
  | .trigger, value => { fields with trigger := some value }
  | .requirements, value => { fields with requirements := splitList value }
  | .prerequisites, value => { fields with prerequisites := splitList value }
  | .effect, value => { fields with effect := some value }
  | .references, value => { fields with references := fields.references ++ splitList value }

variable {U}

/-- A labelled line, by the field that it names. -/
theorem label_eq_set (fields : BlockFields) (line label value : Str) :
    fields.label U line label value = match fieldLabel label with
      | some field => fields.set U field value
      | none => { fields with leftoverLines := fields.leftoverLines ++ [line] } := by
  unfold BlockFields.label fieldLabel
  split_ifs <;> rfl

/-- A line with a known label sets its field. -/
theorem labelledLine_of_lineField {fields : BlockFields} {line value : Str} {field : FieldLabel}
    (h : lineField U line = some (field, value)) :
    fields.labelledLine U line = fields.set U field value := by
  obtain ⟨⟨label, value'⟩, hsplit, hfield⟩ := Option.bind_eq_some_iff.mp h
  obtain ⟨field', hlabel, heq⟩ := Option.map_eq_some_iff.mp hfield
  obtain ⟨rfl, rfl⟩ := Prod.mk.inj heq
  simp only [BlockFields.labelledLine, hsplit, label_eq_set, hlabel]

/-- A line without a known label is left over. -/
theorem labelledLine_of_lineField_eq_none {fields : BlockFields} {line : Str}
    (h : lineField U line = none) :
    fields.labelledLine U line =
      { fields with leftoverLines := fields.leftoverLines ++ [line] } := by
  cases hsplit : splitLabel U line with
  | none => simp only [BlockFields.labelledLine, hsplit]
  | some entry =>
    have hlabel : fieldLabel entry.1 = none := by simpa [lineField, hsplit] using h
    simp only [BlockFields.labelledLine, hsplit, label_eq_set, hlabel]

/-! ## The loop -/

/-- Behind the opening line, the index of a line does not matter. -/
theorem foldl_zipIdx_line (fields : BlockFields) (ls : List Str) (k : ℕ) :
    (ls.zipIdx (k + 1)).foldl (fun fields entry => fields.line U entry.2 entry.1) fields =
      ls.foldl (fun fields line => fields.labelledLine U line) fields := by
  induction ls generalizing fields k with
  | nil => rfl
  | cons line ls ih =>
    rw [List.zipIdx_cons, List.foldl_cons, List.foldl_cons, ih]
    rfl

/-- The line loop, with the opening type taken apart. -/
theorem readLines_eq_foldl (block : Str) :
    readLines U block =
      (labelLines U block).foldl (fun fields line => fields.labelledLine U line)
        { ruleType := openingType U block } := by
  unfold readLines labelLines openingType
  cases blockLines block with
  | nil => rfl
  | cons line ls =>
    rw [List.zipIdx_cons, List.foldl_cons, foldl_zipIdx_line]
    cases hdetect : detectBareType U line with
    | none => simp [BlockFields.line, hdetect]
    | some detected => simp [BlockFields.line, hdetect]

/-- What one line adds to the values of a label. -/
theorem fieldValues_cons (field : FieldLabel) (line : Str) (ls : List Str) :
    fieldValues U field (line :: ls) =
      (match lineField U line with
        | some (field', value) => if field' = field then [value] else []
        | none => []) ++ fieldValues U field ls := by
  cases hline : lineField U line with
  | none => simp [fieldValues, hline]
  | some entry =>
    by_cases heq : entry.1 = field
    · simp [fieldValues, hline, heq]
    · simp [fieldValues, hline, heq]

/-- The loop over labelled lines: the last value of each label wins, and references are collected.
-/
theorem foldl_labelledLine (fields : BlockFields) (ls : List Str) :
    ls.foldl (fun fields line => fields.labelledLine U line) fields =
      { ruleType := ((fieldValues U .type ls).map (typeOfValue U)).getLast?.or fields.ruleType
        name := (fieldValues U .name ls).getLast?.or fields.name
        traits := ((fieldValues U .traits ls).map splitList).getLast?.getD fields.traits
        trigger := (fieldValues U .trigger ls).getLast?.or fields.trigger
        requirements :=
          ((fieldValues U .requirements ls).map splitList).getLast?.getD fields.requirements
        prerequisites :=
          ((fieldValues U .prerequisites ls).map splitList).getLast?.getD fields.prerequisites
        effect := (fieldValues U .effect ls).getLast?.or fields.effect
        references := fields.references ++ (fieldValues U .references ls).flatMap splitList
        leftoverLines :=
          fields.leftoverLines ++ ls.filter fun line => (lineField U line).isNone } := by
  induction ls generalizing fields with
  | nil => simp [fieldValues]
  | cons line ls ih =>
    rw [List.foldl_cons, ih]
    cases hline : lineField U line with
    | none =>
      rw [labelledLine_of_lineField_eq_none hline]
      simp [fieldValues_cons, hline]
    | some entry =>
      rw [labelledLine_of_lineField hline]
      cases hfield : entry.1 <;>
        simp [fieldValues_cons, hline, hfield, BlockFields.set, List.getLast?_cons]

/-- What the line loop computes of a block. -/
theorem readLines_eq (block : Str) :
    readLines U block =
      { ruleType := ((fieldValues U .type (labelLines U block)).map (typeOfValue U)).getLast?.or
          (openingType U block)
        name := (fieldValues U .name (labelLines U block)).getLast?
        traits := ((fieldValues U .traits (labelLines U block)).map splitList).getLast?.getD []
        trigger := (fieldValues U .trigger (labelLines U block)).getLast?
        requirements :=
          ((fieldValues U .requirements (labelLines U block)).map splitList).getLast?.getD []
        prerequisites :=
          ((fieldValues U .prerequisites (labelLines U block)).map splitList).getLast?.getD []
        effect := (fieldValues U .effect (labelLines U block)).getLast?
        references := (fieldValues U .references (labelLines U block)).flatMap splitList
        leftoverLines := (labelLines U block).filter fun line => (lineField U line).isNone } := by
  rw [readLines_eq_foldl, foldl_labelledLine]
  simp

/-! ## Lines and values -/

/-- The values of a label in two runs of lines. -/
theorem fieldValues_append (field : FieldLabel) (ls ls' : List Str) :
    fieldValues U field (ls ++ ls') = fieldValues U field ls ++ fieldValues U field ls' :=
  List.filterMap_append

/-- A value of a label is the value of a line with that label. -/
theorem mem_fieldValues_iff {field : FieldLabel} {ls : List Str} {value : Str} :
    value ∈ fieldValues U field ls ↔ ∃ line ∈ ls, lineField U line = some (field, value) := by
  unfold fieldValues
  rw [List.mem_filterMap]
  refine exists_congr fun line => and_congr_right fun _ => ?_
  rw [Option.bind_eq_some_iff]
  constructor
  · rintro ⟨⟨field', value'⟩, hline, hvalue⟩
    split at hvalue
    case isTrue heq =>
      obtain rfl := Option.some.inj hvalue
      simpa [← heq] using hline
    case isFalse => simp at hvalue
  · exact fun hline => ⟨_, hline, if_pos rfl⟩

/-- The lines of a block are its opening type line, if there is one, and the other lines. -/
theorem blockLines_eq (block : Str) :
    ((openingType U block).isSome = false ∧ blockLines block = labelLines U block) ∨
      ((openingType U block).isSome = true ∧
        ∃ line, blockLines block = line :: labelLines U block) := by
  unfold labelLines
  split
  case isTrue h =>
    refine Or.inr ⟨h, ?_⟩
    unfold openingType at h
    cases hlines : blockLines block with
    | nil => simp [hlines] at h
    | cons line ls => exact ⟨line, rfl⟩
  case isFalse h => exact Or.inl ⟨Bool.not_eq_true _ ▸ h, rfl⟩

/-- The trimmed nonblank lines of a block, whatever ends its lines. -/
theorem blockLines_eq_filter (block : Str) :
    blockLines block = ((block.splitOn '\n').map trim).filter fun line => !line.isEmpty := by
  have hstrip : ∀ line : Str, trim (stripCarriageReturn line) = trim line := by
    intro line
    unfold stripCarriageReturn
    split
    case isTrue h =>
      have hreturn : ∀ c ∈ ['\r'], isWhitespace c = true := List.all_iff_forall_prop.mp (by decide)
      have heq : line.dropLast ++ ['\r'] = line := List.dropLast_append_getLast? _ h
      conv_rhs => rw [← heq]
      simpa using (@trim_append [] line.dropLast ['\r'] (by simp) hreturn).symm
    case isFalse => rfl
  have hlast : ∀ rest : Str,
      (([rest].filter fun rest => !rest.isEmpty).map trim).filter (fun line => !line.isEmpty) =
        ([rest].map trim).filter fun line => !line.isEmpty := by
    intro rest
    cases rest with
    | nil => rfl
    | cons c rest => rfl
  obtain ⟨front, rest, hsplit⟩ : ∃ front rest, block.splitOn '\n' = front ++ [rest] :=
    (List.eq_nil_or_concat' _).resolve_left (List.splitOnP_ne_nil _ _)
  simp only [blockLines, lines, hsplit, List.dropLast_concat, List.getLast?_concat,
    Option.toList_some, List.map_append, List.filter_append, List.map_map, hlast]
  congr 2
  exact List.map_congr_left fun line _ => hstrip line

/-- The nonblank lines of a block that is put together from lines. -/
theorem blockLines_joined (ls : List Str) (h : ∀ line ∈ ls, '\n' ∉ line) :
    blockLines (['\n'].intercalate ls) = (ls.map trim).filter fun line => !line.isEmpty := by
  rw [blockLines_eq_filter]
  rcases eq_or_ne ls [] with rfl | hne
  · rfl
  · rw [List.splitOn_intercalate '\n' h hne]

/-- The fields of a candidate that come from the last value of a label. -/
theorem fields_parseBlock (candidateId : Uuid) (block : Str) :
    (parseBlock U candidateId block).trigger =
        (fieldValues U .trigger (labelLines U block)).getLast? ∧
      (parseBlock U candidateId block).requirements =
        ((fieldValues U .requirements (labelLines U block)).map splitList).getLast?.getD [] ∧
      (parseBlock U candidateId block).effect =
        (fieldValues U .effect (labelLines U block)).getLast? := by
  have hread := readLines_eq (U := U) block
  simp only [parseBlock]
  split
  case isTrue hnone =>
    obtain ⟨-, htrigger, heffect, -, hrequirements, -, -⟩ := hnone
    rw [hread] at htrigger heffect hrequirements
    exact ⟨htrigger.symm, hrequirements.symm, heffect.symm⟩
  case isFalse =>
    rw [hread]
    exact ⟨rfl, rfl, rfl⟩

/-- The traits of a parsed block are read off the last value of their label. -/
theorem traits_parseBlock (candidateId : Uuid) (block : Str) :
    (parseBlock U candidateId block).traits =
      ((fieldValues U .traits (labelLines U block)).map splitList).getLast?.getD [] := by
  have hread : (readLines U block).traits =
      ((fieldValues U .traits (labelLines U block)).map splitList).getLast?.getD [] := by
    rw [readLines_eq]
  rw [← hread, parseBlock]
  split
  case isTrue hnone => exact hnone.2.2.2.1.symm
  case isFalse => rfl

end Pf2eParser
