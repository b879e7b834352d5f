import Pf2eParser.Parser.Confidence

/-!
# Normalized fields come from labels

The module documentation of `parser.rs` promises that the normalized fields are populated only from
explicitly labelled lines.  `ReadFrom` says what that means without the line loop: each field is the
value of the last line that carries its label.  `fields_from_labels` shows it of every block, on
both return paths, and concludes that lines without these labels do not matter.
-/

namespace Pf2eParser

open Text

/-! ## The last line with a label -/

/-- The line carries the label: in front of its first colon there are 1 to 32 characters, trimmed,
that are the label up to letter case, and behind the colon there is the value. -/
def CarriesLabel (U : CaseTables) (label line value : Str) : Prop :=
  ∃ front back, line = front ++ ':' :: back ∧ ':' ∉ front ∧ 1 ≤ (trim front).length ∧
    (trim front).length ≤ 32 ∧ U.toLowercase (trim front) = label ∧ trim back = value

/-- The value of the last line that carries the label, or none if no line carries it. -/
def LastValue (U : CaseTables) (label : Str) (ls : List Str) : Option Str → Prop
  | none => ∀ line ∈ ls, ∀ value, ¬ CarriesLabel U label line value
  | some value => ∃ before line after, ls = before ++ line :: after ∧
      CarriesLabel U label line value ∧
        ∀ later ∈ after, ∀ value', ¬ CarriesLabel U label later value'

/-- The labels of the normalized fields. -/
def normalizedLabels : List Str :=
  ["type".toList, "name".toList, "traits".toList, "trigger".toList, "requirements".toList,
    "prerequisites".toList, "effect".toList]

/-- The line carries the label of a normalized field. -/
def IsNormalizedLine (U : CaseTables) (line : Str) : Prop :=
  ∃ label ∈ normalizedLabels, ∃ value, CarriesLabel U label line value

/-- The normalized fields of a candidate. -/
structure NormalizedFields where
  ruleType : RuleType
  name : Option Str
  traits : List Str
  trigger : Option Str
  requirements : List Str
  prerequisites : List Str
  effect : Option Str
  deriving DecidableEq

/-- The normalized fields of a candidate. -/
def Candidate.normalized (candidate : Candidate) : NormalizedFields where
  ruleType := candidate.ruleType
  name := candidate.name
  traits := candidate.traits
  trigger := candidate.trigger
  requirements := candidate.requirements
  prerequisites := candidate.prerequisites
  effect := candidate.effect

/-- The fields are what the last lines with their labels say; the rule type may also be the bare
type word in the first line. -/
structure NormalizedFields.ReadFrom (U : CaseTables) (fields : NormalizedFields) (ls : List Str) :
    Prop where
  ruleType : ∃ value, LastValue U "type".toList ls value ∧ fields.ruleType = match value with
    | some value => RuleType.parse (normalizeType U value)
    | none => (ls.head?.bind (detectBareType U)).getD .unclassified
  name : LastValue U "name".toList ls fields.name
  traits : ∃ value, LastValue U "traits".toList ls value ∧
    fields.traits = (value.map splitList).getD []
  trigger : LastValue U "trigger".toList ls fields.trigger
  requirements : ∃ value, LastValue U "requirements".toList ls value ∧
    fields.requirements = (value.map splitList).getD []
  prerequisites : ∃ value, LastValue U "prerequisites".toList ls value ∧
    fields.prerequisites = (value.map splitList).getD []
  effect : LastValue U "effect".toList ls fields.effect

/-! ## Labels and values -/

variable {U : CaseTables}

/-- A line carries the label that it is split at. -/
theorem carriesLabel_iff {label line value : Str} :
    CarriesLabel U label line value ↔ splitLabel U line = some (label, value) := by
  unfold CarriesLabel splitLabel
  rw [Option.bind_eq_some_iff]
  constructor
  · rintro ⟨front, back, hline, hcolon, hpos, hlen, hlabel, hvalue⟩
    refine ⟨(front, back), splitOnce_singleton_iff.mpr ⟨hline, hcolon⟩, ?_⟩
    have hne : trim front ≠ [] := List.length_pos_iff.mp hpos
    simp [hne, Nat.not_lt.mpr hlen, hlabel, hvalue]
  · rintro ⟨⟨front, back⟩, hcut, hread⟩
    obtain ⟨hline, hcolon⟩ := splitOnce_singleton_iff.mp hcut
    dsimp only at hread
    split at hread
    case isTrue => simp at hread
    case isFalse hok =>
      obtain ⟨hlabel, hvalue⟩ := Prod.mk.inj (Option.some.inj hread)
      simp only [Bool.or_eq_true, List.isEmpty_iff, decide_eq_true_eq, not_or, Nat.not_lt] at hok
      exact ⟨front, back, hline, hcolon, List.length_pos_iff.mpr hok.1, hok.2, hlabel, hvalue⟩

instance (line : Str) : Decidable (IsNormalizedLine U line) :=
  decidable_of_iff ((splitLabel U line).any fun entry => normalizedLabels.contains entry.1) <| by
    simp only [IsNormalizedLine, carriesLabel_iff, Option.any_eq_true, List.contains_iff_mem]
    constructor
    · rintro ⟨⟨label, value⟩, hline, hlabel⟩
      exact ⟨label, hlabel, value, hline⟩
    · rintro ⟨label, hlabel, value, hline⟩
      exact ⟨(label, value), hline, hlabel⟩

/-- The word of a label; the references have two, and no normalized field. -/
def FieldLabel.word : FieldLabel → Option Str
  | .type => some "type".toList
  | .name => some "name".toList
  | .traits => some "traits".toList
  | .trigger => some "trigger".toList
  | .requirements => some "requirements".toList
  | .prerequisites => some "prerequisites".toList
  | .effect => some "effect".toList
  | .references => none

/-- A normalized field is named by its word only. -/
theorem fieldLabel_eq_some_iff {field : FieldLabel} {word label : Str}
    (h : field.word = some word) : fieldLabel label = some field ↔ label = word := by
  unfold fieldLabel
  constructor
  · intro hlabel
    split_ifs at hlabel <;> obtain rfl := Option.some.inj hlabel <;>
      simp_all [FieldLabel.word]
  · rintro rfl
    cases field <;> simp only [FieldLabel.word, Option.some.injEq, reduceCtorEq] at h <;>
      subst h <;> decide

/-- A line carries the word of a normalized field exactly when it sets that field. -/
theorem carriesLabel_iff_lineField {field : FieldLabel} {word line value : Str}
    (h : field.word = some word) :
    CarriesLabel U word line value ↔ lineField U line = some (field, value) := by
  rw [carriesLabel_iff, lineField, Option.bind_eq_some_iff]
  constructor
  · intro hline
    exact ⟨(word, value), hline, by simp [(fieldLabel_eq_some_iff h).mpr]⟩
  · rintro ⟨⟨label, value'⟩, hline, hfield⟩
    obtain ⟨field', hlabel, heq⟩ := Option.map_eq_some_iff.mp hfield
    obtain ⟨rfl, rfl⟩ := Prod.mk.inj heq
    rw [hline, (fieldLabel_eq_some_iff h).mp hlabel]

/-- A line without the label adds nothing to its values. -/
theorem fieldValues_singleton_eq_nil {field : FieldLabel} {line : Str}
    (h : ∀ value, lineField U line ≠ some (field, value)) : fieldValues U field [line] = [] := by
  refine List.eq_nil_iff_forall_not_mem.mpr fun value hvalue => ?_
  obtain ⟨l, hl, hfield⟩ := mem_fieldValues_iff.mp hvalue
  exact h value (List.mem_singleton.mp hl ▸ hfield)

/-- The last value of a normalized field. -/
theorem lastValue_getLast? {field : FieldLabel} {word : Str} (h : field.word = some word)
    (ls : List Str) : LastValue U word ls (fieldValues U field ls).getLast? := by
  induction ls using List.reverseRecOn with
  | nil => exact fun line hline => absurd hline List.not_mem_nil
  | append_singleton ls line ih =>
    rw [fieldValues_append]
    by_cases hcarries : ∃ value, CarriesLabel U word line value
    · obtain ⟨value, hvalue⟩ := hcarries
      rw [fieldValues_cons, (carriesLabel_iff_lineField h).mp hvalue]
      simp only [if_true, fieldValues, List.filterMap_nil, List.append_nil, List.getLast?_append,
        List.getLast?_singleton, Option.some_or]
      exact ⟨ls, line, [], rfl, hvalue, by simp⟩
    · rw [not_exists] at hcarries
      rw [fieldValues_singleton_eq_nil fun value hline =>
        hcarries value ((carriesLabel_iff_lineField h).mpr hline), List.append_nil]
      cases hlast : (fieldValues U field ls).getLast? with
      | none =>
        rw [hlast] at ih
        intro l hl
        rcases List.mem_append.mp hl with hl | hl
        · exact ih l hl
        · exact List.mem_singleton.mp hl ▸ hcarries
      | some last =>
        rw [hlast] at ih
        obtain ⟨before, l, after, heq, hl, hafter⟩ := ih
        refine ⟨before, l, after ++ [line], by simp [heq], hl, fun later hlater => ?_⟩
        rcases List.mem_append.mp hlater with hlater | hlater
        · exact hafter later hlater
        · exact List.mem_singleton.mp hlater ▸ hcarries

/-- The values of a field are read off the lines that set a normalized field. -/
theorem fieldValues_filter {field : FieldLabel} {word : Str} (h : field.word = some word)
    (ls : List Str) :
    fieldValues U field (ls.filter fun line => IsNormalizedLine U line) =
      fieldValues U field ls := by
  have hword : word ∈ normalizedLabels := by
    cases field <;> simp only [FieldLabel.word, Option.some.injEq, reduceCtorEq] at h <;>
      subst h <;> decide
  induction ls with
  | nil => rfl
  | cons line ls ih =>
    by_cases hline : IsNormalizedLine U line
    · rw [List.filter_cons_of_pos (by simpa using hline), fieldValues_cons, fieldValues_cons, ih]
    · rw [List.filter_cons_of_neg (by simpa using hline), ih, fieldValues_cons]
      rcases hfield : lineField U line with _ | ⟨field', value⟩
      · rfl
      · have hne : field' ≠ field := by
          rintro rfl
          exact hline ⟨word, hword, value, (carriesLabel_iff_lineField h).mpr hfield⟩
        simp [hne]

/-! ## The normalized fields of a block -/

/-- Both return paths give the normalized fields that the line loop has read. -/
theorem normalized_parseBlock (candidateId : Uuid) (block : Str) :
    (parseBlock U candidateId block).normalized =
      let fields := readLines U block
      { ruleType := fields.ruleType.getD .unclassified, name := fields.name, traits := fields.traits
        trigger := fields.trigger, requirements := fields.requirements
        prerequisites := fields.prerequisites, effect := fields.effect } := by
  simp only [parseBlock]
  split
  case isTrue h =>
    obtain ⟨hname, htrigger, heffect, htraits, hrequirements, hprerequisites, htype⟩ := h
    simp only [Candidate.normalized, hname, htrigger, heffect, htraits, hrequirements,
      hprerequisites, htype]
  case isFalse => rfl

/-- The opening type of a block carries no label. -/
theorem fieldValues_labelLines (hA : U.FollowsAscii) (field : FieldLabel) (block : Str) :
    fieldValues U field (labelLines U block) = fieldValues U field (blockLines block) := by
  rcases blockLines_eq (U := U) block with ⟨-, heq⟩ | ⟨hopening, line, heq⟩
  · rw [heq]
  · have hnone : lineField U line = none := by
      by_contra hfield
      obtain ⟨entry, hentry⟩ := Option.ne_none_iff_exists'.mp hfield
      have hbare := detectBareType_eq_none_of_colon hA (colon_mem_of_lineField hentry)
      rw [openingType_eq, heq, List.head?_cons, Option.bind_some, hbare] at hopening
      exact absurd hopening (by simp)
    rw [heq, fieldValues_cons, hnone, List.nil_append]

/-- The normalized fields of a block, by the values of the labels in all of its lines. -/
theorem normalized_eq_fieldValues (hA : U.FollowsAscii) (candidateId : Uuid) (block : Str) :
    (parseBlock U candidateId block).normalized =
      let value field := (fieldValues U field (blockLines block)).getLast?
      { ruleType := ((value .type).map (typeOfValue U)).getD
          (((blockLines block).head?.bind (detectBareType U)).getD .unclassified)
        name := value .name, traits := ((value .traits).map splitList).getD []
        trigger := value .trigger, requirements := ((value .requirements).map splitList).getD []
        prerequisites := ((value .prerequisites).map splitList).getD []
        effect := value .effect } := by
  rw [normalized_parseBlock, readLines_eq]
  simp only [fieldValues_labelLines hA, List.getLast?_map, openingType_eq]
  cases (fieldValues U .type (blockLines block)).getLast? <;> rfl

/-- The normalized fields of a block are what the last lines with their labels say.  Lines that
carry none of these labels do not matter, apart from the first line. -/
theorem fields_from_labels (hA : U.FollowsAscii) (candidateId : Uuid) (block : Str) :
    (parseBlock U candidateId block).normalized.ReadFrom U (blockLines block) ∧
    ∀ (candidateId' : Uuid) (block' : Str),
      (blockLines block').head? = (blockLines block).head? →
      (blockLines block').filter (fun line => IsNormalizedLine U line) =
        (blockLines block).filter (fun line => IsNormalizedLine U line) →
      (parseBlock U candidateId' block').normalized =
        (parseBlock U candidateId block).normalized := by
  constructor
  · rw [normalized_eq_fieldValues hA]
    have hlast : ∀ {field : FieldLabel} {word : Str}, field.word = some word →
        LastValue U word (blockLines block) (fieldValues U field (blockLines block)).getLast? :=
      fun h => lastValue_getLast? h _
    refine ⟨⟨_, @hlast .type _ rfl, ?_⟩, @hlast .name _ rfl, ⟨_, @hlast .traits _ rfl, rfl⟩,
      @hlast .trigger _ rfl, ⟨_, @hlast .requirements _ rfl, rfl⟩,
      ⟨_, @hlast .prerequisites _ rfl, rfl⟩, @hlast .effect _ rfl⟩
    dsimp only
    cases (fieldValues U .type (blockLines block)).getLast? <;> rfl
  · intro candidateId' block' hhead hkept
    have hvalues : ∀ field : FieldLabel, field ≠ .references →
        fieldValues U field (blockLines block') = fieldValues U field (blockLines block) := by
      intro field hne
      obtain ⟨word, hword⟩ : ∃ word, field.word = some word := by
        cases field <;> first | exact ⟨_, rfl⟩ | exact absurd rfl hne
      rw [← fieldValues_filter hword, hkept, fieldValues_filter hword]
    rw [normalized_eq_fieldValues hA, normalized_eq_fieldValues hA, hhead]
    simp (disch := decide) only [hvalues]

/-- A reaction with two names and a remark. -/
def remarkedReaction : Str :=
  "Reaction\nName: Strike\nSee also: Parry\nname : Riposte\nNice.".toList

/-- The last name counts, and without the remark the fields are the same. -/
theorem fields_from_labels_example :
    (parseBlock .ascii 0 remarkedReaction).normalized.ReadFrom .ascii
        (blockLines remarkedReaction) ∧
      (parseBlock .ascii 0 "Reaction\nName: Strike\nname : Riposte".toList).normalized =
        (parseBlock .ascii 0 remarkedReaction).normalized := by
  obtain ⟨hread, hremark⟩ := fields_from_labels CaseTables.ascii_followsAscii 0 remarkedReaction
  exact ⟨hread, hremark 0 _ (by decide +kernel) (by decide +kernel)⟩

end Pf2eParser
