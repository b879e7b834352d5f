import Pf2eParser.BookAdapter.Reparse
import Pf2eParser.Parser.Fields

/-!
# What the block parser reads from rendered blocks

Whatever a page says, a rendered block is a bare rule type followed by lines that start with a label
of the renderer; the text of the page stands behind the first colon of a line.  So the block parser
finds the fields that the renderer wrote and nothing else (`parseBlock_rendered`).  What the text
must not bring in is a line feed, and no line of a page has one.
-/

namespace Pf2eParser

open Text

variable {U : CaseTables}

/-! ## Labelled lines -/

/-- A text that starts with an ASCII label and a colon has this label. -/
theorem splitLabel_append (hA : U.FollowsAscii) {label : Str} (hascii : ∀ c ∈ label, c.toNat < 128)
    (hcolon : ':' ∉ label) (htrim : trim label = label) (hne : label ≠ [])
    (hlen : label.length ≤ 32) (rest : Str) :
    splitLabel U (label ++ ':' :: rest) = some (label.map Char.toLower, trim rest) := by
  have hcut : splitOnce [':'] (label ++ ':' :: rest) = some (label, rest) :=
    splitOnce_singleton_iff.mpr ⟨rfl, hcolon⟩
  have hshort : ¬ 32 < label.length := by omega
  simp [splitLabel, hcut, htrim, hne, hshort, hA.toLowercase_eq_map hascii]

/-- A line of the renderer: its label, a colon, a space and a value. -/
theorem lineField_append (hA : U.FollowsAscii) {label : Str} {field : FieldLabel}
    (hascii : ∀ c ∈ label, c.toNat < 128) (hcolon : ':' ∉ label) (htrim : trim label = label)
    (hlen : label.length ≤ 32) (hfield : fieldLabel (label.map Char.toLower) = some field)
    {value : Str} (hvalue : IsSolid value) :
    lineField U (label ++ ": ".toList ++ value) = some (field, value) := by
  have hne : label ≠ [] := by
    rintro rfl
    exact absurd hfield.symm (by decide +revert)
  have hsplit := splitLabel_append hA hascii hcolon htrim hne hlen (' ' :: value)
  rw [trim_cons_space hvalue] at hsplit
  rw [List.append_assoc, lineField, show ": ".toList ++ value = ':' :: ' ' :: value from rfl,
    hsplit]
  simp [hfield]

/-- The label is read as the field, with the text behind it as its value. -/
def ReadsAs (U : CaseTables) (label : String) (field : FieldLabel) : Prop :=
  ∀ value, IsSolid value → lineField U (label.toList ++ value) = some (field, value)

/-- The five labels that the renderer writes are read as their fields. -/
theorem renderedLabels (hA : U.FollowsAscii) :
    ReadsAs U "Name: " .name ∧ ReadsAs U "Traits: " .traits ∧
      ReadsAs U "Trigger: " .trigger ∧ ReadsAs U "Requirements: " .requirements ∧
      ReadsAs U "Effect: " .effect := by
  have hmain : ∀ (label : String) (field : FieldLabel),
      label.toList.all (fun c => decide (c.toNat < 128)) = true → ':' ∉ label.toList →
      trim label.toList = label.toList → label.toList.length ≤ 32 →
      fieldLabel (label.toList.map Char.toLower) = some field →
      ReadsAs U (String.ofList (label.toList ++ ": ".toList)) field := by
    intro label field hascii hcolon htrim hlen hfield value hvalue
    rw [String.toList_ofList]
    exact lineField_append hA (List.all_iff_forall_prop.mp hascii) hcolon htrim hlen hfield hvalue
  refine ⟨hmain "Name" _ ?_ ?_ ?_ ?_ ?_, hmain "Traits" _ ?_ ?_ ?_ ?_ ?_,
    hmain "Trigger" _ ?_ ?_ ?_ ?_ ?_, hmain "Requirements" _ ?_ ?_ ?_ ?_ ?_,
    hmain "Effect" _ ?_ ?_ ?_ ?_ ?_⟩ <;> decide

/-- The values of a rendered list. -/
theorem fieldValues_listLine {label joint : String} {field : FieldLabel}
    (h : ReadsAs U label field) {items : List Str} (hitems : ∀ item ∈ items, IsSolid item)
    (field' : FieldLabel) :
    fieldValues U field' (listLine label joint items) =
      if field = field' ∧ items ≠ [] then [joint.toList.intercalate items] else [] := by
  unfold listLine
  rcases eq_or_ne items [] with rfl | hne
  · simp [fieldValues]
  · have hsolid := isSolid_intercalate joint.toList hne hitems
    rw [if_neg (by simpa using hne), fieldValues_cons, h _ hsolid]
    simp [hne, fieldValues]

/-- The values of a rendered value. -/
theorem fieldValues_valueLine {label : String} {field : FieldLabel} (h : ReadsAs U label field)
    {value : Option Str} (hvalue : ∀ text ∈ value, IsSolid text) (field' : FieldLabel) :
    fieldValues U field' (valueLine label value) =
      if field = field' then value.toList else [] := by
  cases value with
  | none => simp [valueLine, fieldValues]
  | some text =>
    rw [valueLine, Option.toList_some, List.map_singleton, fieldValues_cons,
      h _ (hvalue text rfl)]
    simp [fieldValues]

/-- The line of a rendered list has the label. -/
theorem lineField_of_mem_listLine {label joint : String} {field : FieldLabel}
    (h : ReadsAs U label field) {items : List Str} (hitems : ∀ item ∈ items, IsSolid item) :
    ∀ line ∈ listLine label joint items, (lineField U line).isSome := by
  intro line hline
  unfold listLine at hline
  split at hline
  case isTrue => simp at hline
  case isFalse hne =>
    rw [List.mem_singleton.mp hline, h _ (isSolid_intercalate _ (by simpa using hne) hitems)]
    rfl

/-- The line of a rendered value has the label. -/
theorem lineField_of_mem_valueLine {label : String} {field : FieldLabel}
    (h : ReadsAs U label field) {value : Option Str} (hvalue : ∀ text ∈ value, IsSolid text) :
    ∀ line ∈ valueLine label value, (lineField U line).isSome := by
  intro line hline
  obtain ⟨text, htext, rfl⟩ := List.mem_map.mp hline
  rw [h _ (hvalue text (by simpa using htext))]
  rfl

/-! ## Rendered blocks -/

/-- The lines behind the bare rule type of a rendered block. -/
theorem labelLines_rendered {typeLine : Str} {ruleType : RuleType} {ls : List Str}
    (htype : detectBareType U typeLine = some ruleType) (hline : IsLine typeLine)
    (hls : ∀ line ∈ ls, IsLine line) :
    openingType U (['\n'].intercalate (typeLine :: ls)) = some ruleType ∧
      labelLines U (['\n'].intercalate (typeLine :: ls)) = ls := by
  have hall : ∀ line ∈ typeLine :: ls, IsLine line := by simpa using ⟨hline, hls⟩
  have hblock : blockLines (['\n'].intercalate (typeLine :: ls)) = typeLine :: ls := by
    rw [blockLines_joined _ fun line hl => (hall line hl).feed_notMem,
      List.map_congr_left (g := id) fun line hl => (hall line hl).trim_eq, List.map_id,
      List.filter_eq_self.mpr fun line hl => by simp [(hall line hl).ne_nil]]
  have hopening : openingType U (['\n'].intercalate (typeLine :: ls)) = some ruleType := by
    rw [openingType, hblock, List.head?_cons, Option.bind_some, htype]
  refine ⟨hopening, ?_⟩
  rw [labelLines, hopening, if_pos Option.isSome_some, hblock, List.tail_cons]

/-- An empty value has no items. -/
@[simp] theorem splitList_nil : splitList [] = [] := by decide

/-- A comma separates the items on its two sides. -/
theorem splitList_append_comma (a b : Str) :
    splitList (a ++ ',' :: b) = splitList a ++ splitList b := by
  rw [splitList, List.splitOn_append_cons_self, List.map_append, List.filter_append]
  rfl

/-- A space in front of a list does not matter. -/
theorem splitList_cons_space (s : Str) : splitList (' ' :: s) = splitList s := by
  have hspace : ∀ c ∈ [' '], isWhitespace c = true := List.all_iff_forall_prop.mp (by decide)
  obtain ⟨first, rest, hsplit⟩ := List.exists_cons_of_ne_nil (List.splitOn_ne_nil ',' s)
  have hpieces : (' ' :: s).splitOn ',' = (' ' :: first) :: rest := by
    rw [List.splitOn, List.splitOnP_cons_eq_if_modifyHead, if_neg (by decide), ← List.splitOn,
      hsplit, List.modifyHead_cons]
  have htrim : trim (' ' :: first) = trim first := by
    simpa using @trim_append [' '] first [] hspace (by simp)
  rw [splitList, hpieces, List.map_cons, htrim, splitList, hsplit, List.map_cons]

/-- The items of a rendered list are those of the texts it was rendered from. -/
theorem splitList_joined (items : List Str) :
    splitList (", ".toList.intercalate items) = items.flatMap splitList := by
  induction items with
  | nil => exact splitList_nil
  | cons item items ih =>
    cases items with
    | nil => simp
    | cons next items =>
      have hjoin : ", ".toList.intercalate (item :: next :: items) =
          item ++ ',' :: ' ' :: ", ".toList.intercalate (next :: items) := by
        rw [List.intercalate_cons_cons, List.append_assoc]
        rfl
      rw [hjoin, splitList_append_comma, splitList_cons_space, ih]
      simp only [List.flatMap_cons]

/-- A solid text without a comma is a list of one item. -/
theorem splitList_of_notMem {item : Str} (hsolid : IsSolid item) (hcomma : ',' ∉ item) :
    splitList item = [item] := by
  rw [splitList, List.splitOn_eq_singleton hcomma, List.map_singleton, hsolid.trim_eq]
  simp [hsolid.ne_nil]

/-- A rendered list is read back, if its items have no comma. -/
theorem splitList_intercalate {items : List Str} (hsolid : ∀ item ∈ items, IsSolid item)
    (hcomma : ∀ item ∈ items, ',' ∉ item) :
    splitList (", ".toList.intercalate items) = items := by
  have hitem : ∀ item ∈ items, splitList item = [item] := fun item hmem =>
    splitList_of_notMem (hsolid item hmem) (hcomma item hmem)
  rw [splitList_joined, List.flatMap_congr hitem, List.flatMap_singleton']

/-- What the three renderers write: conditions and feats have neither trigger nor requirements. -/
structure RenderedParts where
  typeLine : Str
  name : Str
  traits : List Str := []
  trigger : Option Str := none
  requirements : Option Str := none
  effectParts : List Str := []

namespace RenderedParts

/-- The lines that are written behind the rule type. -/
def labelled (parts : RenderedParts) : List Str :=
  ["Name: ".toList ++ parts.name] ++ listLine "Traits: " ", " parts.traits ++
    valueLine "Trigger: " parts.trigger ++ valueLine "Requirements: " parts.requirements ++
    listLine "Effect: " " " parts.effectParts

/-- The block that is written. -/
def block (parts : RenderedParts) : Str := ['\n'].intercalate (parts.typeLine :: parts.labelled)

/-- All parts are single lines, and the first one is a rule type. -/
structure WellFormed (U : CaseTables) (parts : RenderedParts) (ruleType : RuleType) : Prop where
  typeLine : IsLine parts.typeLine
  detect : detectBareType U parts.typeLine = some ruleType
  name : IsLine parts.name
  traits : ∀ word ∈ parts.traits, IsLine word
  trigger : ∀ text ∈ parts.trigger, IsLine text
  requirements : ∀ text ∈ parts.requirements, IsLine text
  effectParts : ∀ part ∈ parts.effectParts, IsLine part

/-- What the block parser makes of the block. -/
def candidate (parts : RenderedParts) (ruleType : RuleType) (candidateId : Uuid) : Candidate where
  candidateId := candidateId
  ruleType := ruleType
  name := some parts.name
  traits := splitList (", ".toList.intercalate parts.traits)
  trigger := parts.trigger
  requirements := (parts.requirements.map splitList).getD []
  effect := if parts.effectParts = [] then none else some ([' '].intercalate parts.effectParts)
  prerequisites := []
  references := extractBracketedReferences parts.block
  sourceText := parts.block
  inferences := []
  confidence := baseConfidence

end RenderedParts

/-- A label in front of a line makes a line. -/
theorem isLine_append {label value : Str} {c : Char} (hlabel : label.head? = some c)
    (hc : isWhitespace c = false) (hfeed : '\n' ∉ label) (hvalue : IsLine value) :
    IsLine (label ++ value) where
  toIsSolid := isSolid_append hlabel hc hvalue.toIsSolid
  feed_notMem hmem := (List.mem_append.mp hmem).elim hfeed hvalue.feed_notMem

/-- The lines of a rendered block are lines. -/
theorem RenderedParts.WellFormed.isLine {parts : RenderedParts} {ruleType : RuleType}
    (h : parts.WellFormed U ruleType) : ∀ line ∈ parts.typeLine :: parts.labelled, IsLine line := by
  have hlist : ∀ {label joint : String} {c : Char} {items : List Str},
      label.toList.head? = some c → isWhitespace c = false → '\n' ∉ label.toList →
      '\n' ∉ joint.toList → (∀ item ∈ items, IsLine item) →
      ∀ line ∈ listLine label joint items, IsLine line := by
    intro label joint c items hlabel hc hfeed hjoint hitems line hline
    unfold listLine at hline
    split at hline
    case isTrue => simp at hline
    case isFalse hne =>
      rw [List.mem_singleton.mp hline]
      exact isLine_append hlabel hc hfeed (isLine_intercalate hjoint (by simpa using hne) hitems)
  have hvalue : ∀ {label : String} {c : Char} {value : Option Str},
      label.toList.head? = some c → isWhitespace c = false → '\n' ∉ label.toList →
      (∀ text ∈ value, IsLine text) → ∀ line ∈ valueLine label value, IsLine line := by
    intro label c value hlabel hc hfeed htext line hline
    obtain ⟨text, hmem, rfl⟩ := List.mem_map.mp hline
    exact isLine_append hlabel hc hfeed (htext text (by simpa using hmem))
  intro line hline
  simp only [RenderedParts.labelled, List.mem_append, List.mem_cons, List.not_mem_nil, or_false]
    at hline
  rcases hline with rfl | (((rfl | hline) | hline) | hline) | hline
  · exact h.typeLine
  · exact isLine_append rfl (by decide) (by decide) h.name
  · exact hlist rfl (by decide) (by decide) (by decide) h.traits line hline
  · exact hvalue rfl (by decide) (by decide) h.trigger line hline
  · exact hvalue rfl (by decide) (by decide) h.requirements line hline
  · exact hlist rfl (by decide) (by decide) (by decide) h.effectParts line hline

/-- The values of each label in a rendered block. -/
theorem RenderedParts.WellFormed.fieldValues_labelled (hA : U.FollowsAscii) {parts : RenderedParts}
    {ruleType : RuleType} (h : parts.WellFormed U ruleType) (field : FieldLabel) :
    fieldValues U field parts.labelled =
      (if .name = field then [parts.name] else []) ++
      (if .traits = field ∧ parts.traits ≠ [] then [", ".toList.intercalate parts.traits]
        else []) ++
      (if .trigger = field then parts.trigger.toList else []) ++
      (if .requirements = field then parts.requirements.toList else []) ++
      (if .effect = field ∧ parts.effectParts ≠ [] then [" ".toList.intercalate parts.effectParts]
        else []) := by
  obtain ⟨hname, htraits, htrigger, hrequirements, heffect⟩ := renderedLabels hA
  simp only [RenderedParts.labelled, fieldValues_append]
  rw [fieldValues_listLine htraits fun item hitem => (h.traits item hitem).toIsSolid,
    fieldValues_valueLine htrigger fun text ht => (h.trigger text ht).toIsSolid,
    fieldValues_valueLine hrequirements fun text ht => (h.requirements text ht).toIsSolid,
    fieldValues_listLine heffect fun item hitem => (h.effectParts item hitem).toIsSolid,
    fieldValues_cons, hname _ h.name.toIsSolid]
  simp [fieldValues]

/-- Every line of a rendered block behind the rule type has a label. -/
theorem RenderedParts.WellFormed.lineField_isSome (hA : U.FollowsAscii) {parts : RenderedParts}
    {ruleType : RuleType} (h : parts.WellFormed U ruleType) :
    ∀ line ∈ parts.labelled, (lineField U line).isSome := by
  obtain ⟨hname, htraits, htrigger, hrequirements, heffect⟩ := renderedLabels hA
  intro line hline
  simp only [RenderedParts.labelled, List.mem_append, List.mem_singleton] at hline
  rcases hline with (((rfl | hline) | hline) | hline) | hline
  · rw [hname _ h.name.toIsSolid]
    rfl
  · exact lineField_of_mem_listLine htraits (fun _ hw => (h.traits _ hw).toIsSolid) line hline
  · exact lineField_of_mem_valueLine htrigger (fun _ ht => (h.trigger _ ht).toIsSolid) line hline
  · exact lineField_of_mem_valueLine hrequirements (fun _ ht => (h.requirements _ ht).toIsSolid)
      line
      hline
  · exact lineField_of_mem_listLine heffect (fun _ hp => (h.effectParts _ hp).toIsSolid) line hline

/-- The block parser reads a rendered block as it was meant. -/
theorem RenderedParts.WellFormed.parseBlock_eq (hA : U.FollowsAscii) {parts : RenderedParts}
    {ruleType : RuleType} (h : parts.WellFormed U ruleType) (candidateId : Uuid) :
    parseBlock U candidateId parts.block = parts.candidate ruleType candidateId := by
  obtain ⟨hopening, hlabels⟩ := labelLines_rendered h.detect h.typeLine fun line hline =>
    h.isLine line (List.mem_cons_of_mem _ hline)
  have hleft : parts.labelled.filter (fun line => (lineField U line).isNone) = [] :=
    List.filter_eq_nil_iff.mpr fun line hline => by
      simp [Option.isSome_iff_ne_none.mp (h.lineField_isSome hA line hline)]
  have hread : readLines U parts.block =
      { ruleType := some ruleType, name := some parts.name
        traits := splitList (", ".toList.intercalate parts.traits)
        trigger := parts.trigger
        requirements := (parts.requirements.map splitList).getD []
        effect := if parts.effectParts = [] then none
          else some ([' '].intercalate parts.effectParts) } := by
    rw [readLines_eq, RenderedParts.block, hopening, hlabels]
    simp only [h.fieldValues_labelled hA, hleft]
    cases parts.trigger <;> cases parts.requirements <;>
      by_cases parts.traits = [] <;> by_cases parts.effectParts = [] <;> simp_all
  have hstructured : ¬ (readLines U parts.block).IsUnstructured := fun hnone => by
    rw [hread] at hnone
    exact absurd hnone.1 (by simp)
  rw [parseBlock, if_neg hstructured, hread, RenderedParts.candidate]
  simp [BlockFields.confidence, baseConfidence]

/-! ## Rendered blocks that are cut -/

/-- The effect is written last. -/
theorem RenderedParts.labelled_eq (parts : RenderedParts) :
    parts.labelled = RenderedParts.labelled { parts with effectParts := [] } ++
      listLine "Effect: " " " parts.effectParts := by
  have hnone : listLine "Effect: " " " [] = [] := rfl
  unfold RenderedParts.labelled
  rw [hnone, List.append_nil]

/-- A block with one more line at its end. -/
theorem RenderedParts.block_concat (parts : RenderedParts) (line : Str) :
    ['\n'].intercalate (parts.typeLine :: (parts.labelled ++ [line])) =
      parts.block ++ '\n' :: line := by
  rw [← List.cons_append, intercalate_append _ (by simp) (by simp), ← RenderedParts.block,
    List.intercalate_singleton, List.append_assoc, List.singleton_append]

/-- The values of each label in a rendered block with a line for the effect at its end. -/
theorem RenderedParts.WellFormed.fieldValues_concat {parts : RenderedParts} {ruleType : RuleType}
    (h : parts.WellFormed U ruleType) {line value : Str} (hline : IsLine line)
    (hfield : lineField U line = some (.effect, value)) (field : FieldLabel) :
    fieldValues U field (labelLines U (parts.block ++ '\n' :: line)) =
      fieldValues U field parts.labelled ++ if .effect = field then [value] else [] := by
  have hlines : ∀ l ∈ parts.labelled ++ [line], IsLine l := by
    intro l hl
    rcases List.mem_append.mp hl with hl | hl
    · exact h.isLine l (List.mem_cons_of_mem _ hl)
    · exact List.mem_singleton.mp hl ▸ hline
  obtain ⟨-, hlabels⟩ := labelLines_rendered h.detect h.typeLine hlines
  rw [parts.block_concat] at hlabels
  rw [hlabels, fieldValues_append, fieldValues_cons, hfield]
  simp [fieldValues]

/-- What the block parser reads from a rendered block with a line for the effect at its end. -/
theorem RenderedParts.WellFormed.fields_concat (hA : U.FollowsAscii) {parts : RenderedParts}
    {ruleType : RuleType} (h : parts.WellFormed U ruleType) (hnone : parts.effectParts = [])
    {line value : Str} (hline : IsLine line) (hfield : lineField U line = some (.effect, value))
    (candidateId : Uuid) :
    (parseBlock U candidateId (parts.block ++ '\n' :: line)).trigger = parts.trigger ∧
      (parseBlock U candidateId (parts.block ++ '\n' :: line)).requirements =
        (parts.requirements.map splitList).getD [] ∧
      (parseBlock U candidateId (parts.block ++ '\n' :: line)).effect = some value := by
  obtain ⟨htrigger, hrequirements, heffect⟩ :=
    @fields_parseBlock U candidateId (parts.block ++ '\n' :: line)
  rw [htrigger, hrequirements, heffect]
  simp only [h.fieldValues_concat hline hfield, h.fieldValues_labelled hA, hnone]
  refine ⟨?_, ?_, by simp⟩
  · cases parts.trigger <;> simp
  · cases parts.requirements <;> simp

/-- A line for the effect at the end of a rendered block does not change the traits. -/
theorem RenderedParts.WellFormed.traits_concat (hA : U.FollowsAscii) {parts : RenderedParts}
    {ruleType : RuleType} (h : parts.WellFormed U ruleType) {line value : Str} (hline : IsLine line)
    (hfield : lineField U line = some (.effect, value)) (candidateId : Uuid) :
    (parseBlock U candidateId (parts.block ++ '\n' :: line)).traits =
      splitList (", ".toList.intercalate parts.traits) := by
  rw [traits_parseBlock, h.fieldValues_concat hline hfield, h.fieldValues_labelled hA]
  by_cases htraits : parts.traits = [] <;> simp [htraits]

/-- The label of the effect with any text behind it that ends without whitespace. -/
theorem effectLine_spec (hA : U.FollowsAscii) {body : Str}
    (hbody : ∀ c ∈ body.getLast?, isWhitespace c = false) (hfeed : '\n' ∉ body) :
    IsLine ("Effect".toList ++ ':' :: body) ∧
      lineField U ("Effect".toList ++ ':' :: body) = some (.effect, trim body) := by
  have hlabel : IsSolid "Effect:".toList := isSolid_of_ends (by decide) (by decide) (by decide)
  have hsplit := @splitLabel_append U hA "Effect".toList (List.all_iff_forall_prop.mp (by decide))
    (by decide) (by decide) (by decide) (by decide) body
  refine ⟨⟨hlabel.append_of_last hbody, ?_⟩, ?_⟩
  · rw [List.mem_append, List.mem_cons]
    rintro (hmem | hmem | hmem)
    · exact absurd hmem (by decide)
    · exact absurd hmem (by decide)
    · exact hfeed hmem
  · rw [lineField, hsplit]
    rfl

/-- A rendered block that is cut at a separator with nothing behind it: the separator is in the
effect, and the lines in front of the effect are whole. -/
theorem RenderedParts.WellFormed.cut {parts : RenderedParts} {ruleType : RuleType}
    (h : parts.WellFormed U ruleType) (hne : parts.effectParts ≠ []) {a b : Str}
    (hcut : parts.block = a ++ (blockSeparator ++ b)) (hnone : sourceBlocks b = []) :
    ∃ body, trim a = RenderedParts.block { parts with effectParts := [] } ++
        '\n' :: ("Effect".toList ++ ':' :: body) ∧
      (∀ c ∈ body.getLast?, isWhitespace c = false) ∧ '\n' ∉ body ∧
        body.length < ([' '].intercalate parts.effectParts).length := by
  set front : RenderedParts := { parts with effectParts := [] } with hfront
  set effect : Str := [' '].intercalate parts.effectParts with htext
  have hlabelled : parts.labelled = front.labelled ++ ["Effect: ".toList ++ effect] := by
    rw [parts.labelled_eq, listLine, if_neg (by simpa using hne)]
    rfl
  have hwhole : parts.block = (front.block ++ "\nEffect".toList) ++ ':' :: ' ' :: effect := by
    rw [RenderedParts.block, hlabelled, List.append_assoc]
    exact front.block_concat _
  -- there is no colon behind the separator, so the label of the effect is in front of it
  have hcolon : ':' ∉ blockSeparator ++ b := by
    intro hmem
    rcases List.mem_append.mp hmem with hmem | hmem
    · exact absurd hmem (by decide)
    · have hspace := isWhitespace_of_sourceBlocks_eq_nil hnone ':' hmem (by decide)
      exact absurd hspace (by decide)
  obtain ⟨x, rfl, hx⟩ := eq_append_cons_of_notMem hcolon (hcut.symm.trans hwhole)
  obtain ⟨body, back, rfl, hbody, hback⟩ := exists_eq_append_back x
  refine ⟨body, ?_, hbody, ?_, ?_⟩
  · have hsolid : IsSolid (front.block ++ '\n' :: ("Effect".toList ++ ':' :: body)) := by
      have hfrontSolid : IsSolid front.block := isSolid_intercalate _ (List.cons_ne_nil _ _)
        fun l hl => (h.isLine l (by
          rw [parts.labelled_eq]
          exact (List.mem_cons.mp hl).elim (fun heq => heq ▸ List.mem_cons_self) fun hl =>
            List.mem_cons_of_mem _ (List.mem_append_left _ hl))).toIsSolid
      have hlabel : IsSolid "Effect:".toList := isSolid_of_ends (by decide) (by decide) (by decide)
      simpa using hfrontSolid.append (hlabel.append_of_last hbody) ['\n']
    simpa using @trim_pad [] _ back hsolid (by simp) hback
  · have hline := h.isLine ("Effect: ".toList ++ effect) (by simp [hlabelled])
    intro hmem
    have hin : '\n' ∈ ' ' :: effect := by simp [hx, hmem]
    exact hline.feed_notMem (List.mem_append_right _ (List.mem_of_ne_of_mem (by decide) hin))
  · have hlength := congrArg List.length hx
    have hthree : blockSeparator.length = 3 := rfl
    simp only [List.length_cons, List.length_append] at hlength
    omega

/-- A rendered block that is one block after it was cut at its separators is whole, or it is cut in
the effect. -/
theorem RenderedParts.WellFormed.piece_cases {parts : RenderedParts} {ruleType : RuleType}
    (h : parts.WellFormed U ruleType) (hdash : '-' ∉ parts.typeLine) (hne : parts.effectParts ≠ [])
    {piece : Str} (hpiece : sourceBlocks parts.block = [piece]) :
    (¬ HasSeparator parts.block ∧ piece = parts.block) ∨
      (HasSeparator parts.block ∧ ∃ body,
        piece = RenderedParts.block { parts with effectParts := [] } ++
          '\n' :: ("Effect".toList ++ ':' :: body) ∧
        (∀ c ∈ body.getLast?, isWhitespace c = false) ∧ '\n' ∉ body ∧
          body.length < ([' '].intercalate parts.effectParts).length) := by
  have hsolid : IsSolid parts.block :=
    isSolid_intercalate _ (by simp) fun line hline => (h.isLine line hline).toIsSolid
  obtain ⟨c, rest, htype⟩ := List.exists_cons_of_ne_nil h.typeLine.ne_nil
  have hhead : parts.block.head? = some c := by
    have hlabelled : parts.labelled ≠ [] := by simp [RenderedParts.labelled]
    rw [RenderedParts.block, htype, List.intercalate_cons_of_ne_nil hlabelled]
    rfl
  have hsep : c ∉ blockSeparator := by
    have hall : ∀ d ∈ blockSeparator, d = '-' := List.all_iff_forall_prop.mp (by decide)
    intro hmem
    rw [htype, hall c hmem] at hdash
    exact hdash List.mem_cons_self
  rcases sourceBlocks_eq_singleton_cases hhead (hsolid.head c hhead) hsep hpiece with
    ⟨hclean, rfl⟩ | ⟨a, b, hcut, rfl, hnone⟩
  · exact Or.inl ⟨hclean, hsolid.trim_eq⟩
  · exact Or.inr ⟨⟨a, b, by rw [hcut, List.append_assoc]⟩, h.cut hne hcut hnone⟩

/-- Without its effect a rendered block is well formed as well. -/
theorem RenderedParts.WellFormed.without_effect {parts : RenderedParts} {ruleType : RuleType}
    (h : parts.WellFormed U ruleType) :
    RenderedParts.WellFormed U { parts with effectParts := [] } ruleType :=
  ⟨h.typeLine, h.detect, h.name, h.traits, h.trigger, h.requirements, nofun⟩

/-- A rendered block that is one block after it was cut at its separators: the fields in front of
the effect are kept, and the effect is kept as a whole only if there is no separator in the block.
-/
theorem RenderedParts.WellFormed.of_sourceBlocks_eq (hA : U.FollowsAscii) {parts : RenderedParts}
    {ruleType : RuleType} (h : parts.WellFormed U ruleType) (hdash : '-' ∉ parts.typeLine)
    (hne : parts.effectParts ≠ []) {piece : Str} (hpiece : sourceBlocks parts.block = [piece])
    (candidateId : Uuid) :
    (parseBlock U candidateId piece).trigger = parts.trigger ∧
      (parseBlock U candidateId piece).requirements =
        (parts.requirements.map splitList).getD [] ∧
      ∃ text, (parseBlock U candidateId piece).effect = some text ∧
        (text = [' '].intercalate parts.effectParts ↔ ¬ HasSeparator parts.block) := by
  rcases h.piece_cases hdash hne hpiece with
    ⟨hclean, rfl⟩ | ⟨hseparator, body, rfl, hbody, hfeed, hshorter⟩
  · rw [h.parseBlock_eq hA, RenderedParts.candidate]
    exact ⟨rfl, rfl, _, if_neg hne, iff_of_true rfl hclean⟩
  · obtain ⟨hline, hfield⟩ := effectLine_spec hA hbody hfeed
    obtain ⟨htrigger, hrequirements, heffect⟩ :=
      h.without_effect.fields_concat hA rfl hline hfield candidateId
    refine ⟨htrigger, hrequirements, trim body, heffect, iff_of_false (fun heq => ?_) ?_⟩
    · have htrim := (trim_isInfix body).length_le
      rw [heq] at htrim
      omega
    · exact not_not.mpr hseparator

/-- A rendered block that is one block after it was cut at its separators keeps its traits. -/
theorem RenderedParts.WellFormed.traits_of_sourceBlocks_eq (hA : U.FollowsAscii)
    {parts : RenderedParts} {ruleType : RuleType} (h : parts.WellFormed U ruleType)
    (hdash : '-' ∉ parts.typeLine) (hne : parts.effectParts ≠ []) {piece : Str}
    (hpiece : sourceBlocks parts.block = [piece]) (candidateId : Uuid) :
    (parseBlock U candidateId piece).traits = splitList (", ".toList.intercalate parts.traits) := by
  rcases h.piece_cases hdash hne hpiece with
    ⟨-, rfl⟩ | ⟨-, body, rfl, hbody, hfeed, -⟩
  · rw [h.parseBlock_eq hA, RenderedParts.candidate]
  · obtain ⟨hline, hfield⟩ := effectLine_spec hA hbody hfeed
    exact h.without_effect.traits_concat hA hline hfield candidateId

/-! ## Entries on single lines -/

/-- What the splitter for actions makes of the lines of a page. -/
structure RawEntry.OnLines (entry : RawEntry) : Prop where
  name : IsLine entry.name
  ruleTypeLabel : entry.ruleTypeLabel ∈ actionCostMarkers.map Prod.snd
  bodyLines : ∀ line ∈ entry.bodyLines, IsTrimmed line ∧ '\n' ∉ line

/-- What the splitter for feats makes of the lines of a page. -/
structure RawFeatEntry.OnLines (entry : RawFeatEntry) : Prop where
  name : IsLine entry.name
  traits : ∀ word ∈ entry.traits, IsLine word
  bodyLines : ∀ line ∈ entry.bodyLines, IsTrimmed line ∧ '\n' ∉ line

/-- What the splitter for conditions makes of the lines of a page. -/
structure RawConditionEntry.OnLines (entry : RawConditionEntry) : Prop where
  name : IsLine entry.name
  bodyLines : ∀ line ∈ entry.bodyLines, '\n' ∉ line

/-- The lines of a page are trimmed before they are read, and have no line feed. -/
theorem onLine_of_mem {text line : Str} (h : line ∈ (lines text).map trim) :
    IsTrimmed line ∧ '\n' ∉ line := by
  refine ⟨isTrimmed_of_mem h, ?_⟩
  obtain ⟨rawLine, hraw, rfl⟩ := List.mem_map.mp h
  exact fun hfeed => feed_notMem_of_mem_lines hraw (mem_of_mem_trim hfeed)

/-- The lines of a page without the separator do not have it. -/
theorem not_hasSeparator_of_mem_lines {text : Str} (h : ¬ HasSeparator text) :
    ∀ line ∈ (lines text).map trim, ¬ HasSeparator line := by
  intro line hline hsep
  obtain ⟨rawLine, hraw, rfl⟩ := List.mem_map.mp hline
  exact h (((hasSeparator_trim_iff rawLine).mp hsep).trans (infix_of_mem_lines hraw))

/-- Lower-casing keeps lines single. -/
theorem isLine_toLowercase (hU : U.KeepsSpacing) (hA : U.FollowsAscii) {s : Str} (hs : IsLine s) :
    IsLine (U.toLowercase s) where
  toIsSolid := hU.isSolid_toLowercase hs.toIsSolid
  feed_notMem hfeed := hs.feed_notMem ((hA.mem_toLowercase_iff (by decide) (by decide) s).mp hfeed)

/-- The actions of a page are on single lines. -/
theorem onLines_of_mem_splitEntries (hU : U.KeepsSpacing) (text : Str) :
    ∀ entry ∈ splitEntries U text, entry.OnLines := by
  refine splitEntries_induction text (fun line _ name label hheading => ?_)
    fun line hline e he => ?_
  · obtain ⟨hname, hlabel⟩ := detectHeading_spec hU hheading
    exact ⟨hname, hlabel, by simp⟩
  · exact ⟨he.name, he.ruleTypeLabel, List.forall_mem_append.mpr
      ⟨he.bodyLines, List.forall_mem_singleton.mpr (onLine_of_mem hline)⟩⟩

/-- The feats of a page are on single lines. -/
theorem onLines_of_mem_splitFeatEntries (hU : U.KeepsSpacing) (hA : U.FollowsAscii) (text : Str) :
    ∀ entry ∈ splitFeatEntries U text, entry.OnLines := by
  refine splitFeatEntries_induction text (fun index name traits next hread => ?_)
    fun line hline e he => ?_
  · obtain ⟨⟨line, hline, hne, rfl⟩, htraits⟩ := tryReadHeadingBlock_spec hread
    refine ⟨isLine_titleCase hU ⟨isTrimmed_of_mem hline, hne⟩, fun word hword => ?_, by simp⟩
    obtain ⟨line', hline', hne', rfl⟩ := htraits word hword
    exact isLine_toLowercase hU hA ⟨⟨(onLine_of_mem hline').1, hne'⟩, (onLine_of_mem hline').2⟩
  · exact ⟨he.name, he.traits, List.forall_mem_append.mpr
      ⟨he.bodyLines, List.forall_mem_singleton.mpr (onLine_of_mem hline)⟩⟩

/-- The conditions of a page are on single lines. -/
theorem onLines_of_mem_splitConditionEntries (text : Str) :
    ∀ entry ∈ splitConditionEntries U text, entry.OnLines := by
  refine splitConditionEntries_induction text (fun line hline hne => ?_) fun line hline e he => ?_
  · obtain ⟨htrimmed, hfeed⟩ := onLine_of_mem hline
    exact ⟨⟨⟨htrimmed, by simpa using hne⟩, hfeed⟩, by simp⟩
  · exact ⟨he.name, List.forall_mem_append.mpr
      ⟨he.bodyLines, List.forall_mem_singleton.mpr (onLine_of_mem hline).2⟩⟩

/-- The paragraphs of lines are lines. -/
theorem isLine_of_mem_groupParagraphs {ls : List Str}
    (h : ∀ line ∈ ls, IsTrimmed line ∧ '\n' ∉ line) :
    ∀ paragraph ∈ groupParagraphs ls, IsLine paragraph := by
  intro paragraph hparagraph
  obtain ⟨part, hne, hpart, rfl⟩ := exists_of_mem_groupParagraphs hparagraph
  refine isLine_intercalate (by decide) hne fun line hline => ?_
  obtain ⟨hmem, hne⟩ := hpart line hline
  exact ⟨⟨(h line hmem).1, hne⟩, (h line hmem).2⟩

/-- The parts of a clause on one line are on one line. -/
theorem isLine_clause {index : ℕ} {paragraph value : Str} {label : BookLabel}
    {leftover : Option Str} (h : paragraphRole U index paragraph = .clause label value leftover)
    (hp : IsLine paragraph) : IsLine value ∧ ∀ rest ∈ leftover, IsLine rest := by
  obtain ⟨hvalue, hleftover⟩ := isSolid_clause h hp.toIsSolid
  obtain ⟨clause, rest, hparagraph, rfl, rfl⟩ :=
    extractBookLabel_eq_some (extractBookLabel_of_role h)
  have hsub : (∀ c ∈ clause, c ∈ paragraph) ∧ ∀ c ∈ rest, c ∈ paragraph := by
    rcases hparagraph with ⟨rfl, rfl⟩ | ⟨rfl, -⟩ <;> simp +contextual
  refine ⟨⟨hvalue, fun hfeed => hp.feed_notMem (hsub.1 _ (mem_of_mem_trim hfeed))⟩,
    fun text htext => ⟨hleftover text htext, fun hfeed => ?_⟩⟩
  split at htext
  · simp at htext
  · obtain rfl := Option.mem_some_iff.mp htext
    exact hp.feed_notMem (hsub.2 _ (mem_of_mem_trim hfeed))

/-! ## The three renderers -/

/-- The rule types that the converter for actions writes. -/
def actionRuleTypes : List (Str × RuleType) :=
  [("Action".toList, .action), ("Free Action".toList, .freeAction), ("Reaction".toList, .reaction)]

/-- An ASCII line is recognised as a rule type whatever the tables say about other characters. -/
theorem detectBareType_eq (hA : U.FollowsAscii) {line : Str} (h : ∀ c ∈ line, c.toNat < 128) :
    detectBareType U line = detectBareType .ascii line := by
  have htrim : ∀ c ∈ trim line, c.toNat < 128 := fun c hc => h c (mem_of_mem_trim hc)
  rw [detectBareType, detectBareType, normalizeType, normalizeType, hA.toLowercase_eq_map htrim,
    CaseTables.ascii_followsAscii.toLowercase_eq_map htrim]

/-- The rule types that the three converters write are recognised. -/
theorem detectBareType_rendered (hA : U.FollowsAscii) {label : Str} {ruleType : RuleType}
    (h : (label, ruleType) ∈ actionRuleTypes ++
      [("Feat".toList, RuleType.feat), ("Condition".toList, RuleType.condition)]) :
    IsLine label ∧ detectBareType U label = some ruleType := by
  have hall : ∀ entry ∈ actionRuleTypes ++
      [("Feat".toList, RuleType.feat), ("Condition".toList, RuleType.condition)],
      (entry.1 ≠ [] ∧ entry.1.head?.all (fun c => !isWhitespace c) = true ∧
        entry.1.getLast?.all (fun c => !isWhitespace c) = true) ∧ '\n' ∉ entry.1 ∧
      entry.1.all (fun c => decide (c.toNat < 128)) = true ∧
        detectBareType .ascii entry.1 = some entry.2 :=
    List.all_iff_forall_prop.mp (by decide)
  obtain ⟨⟨hne, hhead, hlast⟩, hfeed, hascii, hdetect⟩ := hall _ h
  exact ⟨⟨isSolid_of_ends hne hhead hlast, hfeed⟩,
    detectBareType_eq hA (List.all_iff_forall_prop.mp hascii) ▸ hdetect⟩

/-- What is written of an action. -/
def RawEntry.parts (U : CaseTables) (entry : RawEntry) : RenderedParts :=
  let parts := readParagraphs U (groupParagraphs entry.bodyLines)
  { typeLine := entry.ruleTypeLabel, name := entry.name, traits := parts.traits
    trigger := parts.trigger, requirements := parts.requirements, effectParts := parts.effectParts }

/-- What is written of a feat. -/
def RawFeatEntry.parts (entry : RawFeatEntry) : RenderedParts where
  typeLine := "Feat".toList
  name := entry.name
  traits := entry.traits
  effectParts := groupParagraphs entry.bodyLines

/-- What is written of a condition. -/
def RawConditionEntry.parts (entry : RawConditionEntry) : RenderedParts where
  typeLine := "Condition".toList
  name := entry.name
  effectParts := [trim ([' '].intercalate entry.bodyLines)].filter fun effect => !effect.isEmpty

/-- The block of an action, by its parts. -/
theorem RawEntry.block_parts (entry : RawEntry) : (entry.parts U).block = renderBlock U entry := by
  rw [RenderedParts.block, renderBlock, RenderedParts.labelled, entryBlockLines, RawEntry.parts]
  rfl

/-- The block of a feat, by its parts. -/
theorem RawFeatEntry.block_parts (entry : RawFeatEntry) :
    entry.parts.block = renderFeatBlock entry := by
  simp [RenderedParts.block, RenderedParts.labelled, RawFeatEntry.parts, valueLine, renderFeatBlock,
    featBlockLines]

/-- The block of a condition, by its parts. -/
theorem RawConditionEntry.block_parts (entry : RawConditionEntry) :
    entry.parts.block = renderConditionBlock entry := by
  have hlines : entry.parts.typeLine :: entry.parts.labelled = conditionBlockLines entry := by
    unfold RenderedParts.labelled conditionBlockLines RawConditionEntry.parts
    generalize trim ([' '].intercalate entry.bodyLines) = effect
    cases effect <;> simp [valueLine, listLine]
  exact congrArg _ hlines

/-- The parts of an action that is on single lines. -/
theorem RawEntry.OnLines.wellFormed_parts (hU : U.KeepsSpacing) (hA : U.FollowsAscii)
    {entry : RawEntry} (h : entry.OnLines) :
    ∃ ruleType, (entry.ruleTypeLabel, ruleType) ∈ actionRuleTypes ∧
      (entry.parts U).WellFormed U ruleType := by
  have hlabel : ∀ label ∈ actionCostMarkers.map Prod.snd, ∃ typed ∈ actionRuleTypes,
      typed.1 = label := List.all_iff_forall_prop.mp (by decide)
  obtain ⟨⟨label, ruleType⟩, hmem, rfl⟩ := hlabel _ h.ruleTypeLabel
  obtain ⟨hline, hdetect⟩ := detectBareType_rendered hA (List.mem_append_left _ hmem)
  have htexts : ∀ text ∈ (readParagraphs U (groupParagraphs entry.bodyLines)).texts, IsLine text :=
    forall_mem_texts (isLine_of_mem_groupParagraphs h.bodyLines)
      (fun _ hp => isLine_toLowercase hU hA hp) fun _ _ _ _ _ hp hrole => isLine_clause hrole hp
  simp only [BlockParts.texts, List.mem_append, Option.mem_toList] at htexts
  refine ⟨ruleType, hmem, hline, hdetect, h.name, fun word hword => ?_, fun text ht => ?_,
    fun text ht => ?_, fun part hpart => ?_⟩
  · exact htexts word (Or.inl (Or.inl (Or.inl hword)))
  · exact htexts text (Or.inl (Or.inl (Or.inr ht)))
  · exact htexts text (Or.inl (Or.inr ht))
  · exact htexts part (Or.inr hpart)

/-- The parts of a feat that is on single lines. -/
theorem RawFeatEntry.OnLines.wellFormed_parts (hA : U.FollowsAscii) {entry : RawFeatEntry}
    (h : entry.OnLines) : entry.parts.WellFormed U .feat := by
  obtain ⟨hline, hdetect⟩ := @detectBareType_rendered U hA "Feat".toList .feat (by decide)
  exact ⟨hline, hdetect, h.name, h.traits, nofun, nofun,
    isLine_of_mem_groupParagraphs h.bodyLines⟩

/-- The parts of a condition that is on single lines. -/
theorem RawConditionEntry.OnLines.wellFormed_parts (hA : U.FollowsAscii)
    {entry : RawConditionEntry} (h : entry.OnLines) : entry.parts.WellFormed U .condition := by
  obtain ⟨hline, hdetect⟩ := @detectBareType_rendered U hA "Condition".toList .condition (by decide)
  refine ⟨hline, hdetect, h.name, nofun, nofun, nofun, fun part hpart => ?_⟩
  obtain ⟨hmem, hne⟩ := List.mem_filter.mp hpart
  obtain rfl := List.mem_singleton.mp hmem
  refine ⟨isSolid_trim (by simpa using hne), fun hfeed => ?_⟩
  rcases mem_of_mem_intercalate (mem_of_mem_trim hfeed) with hfeed | ⟨line, hline, hfeed⟩
  · exact absurd hfeed (by decide)
  · exact h.bodyLines line hline hfeed

/-- Whatever a page says, the block of every entry is parsed into the fields that were rendered, at
full confidence. -/
theorem parseBlock_rendered (hU : U.KeepsSpacing) (hA : U.FollowsAscii) (candidateId : Uuid)
    (text : Str) :
    (∀ entry ∈ splitEntries U text, ∃ ruleType, (entry.ruleTypeLabel, ruleType) ∈ actionRuleTypes ∧
      let parts := readParagraphs U (groupParagraphs entry.bodyLines)
      parseBlock U candidateId (renderBlock U entry) =
        { candidateId, ruleType, name := some entry.name
          traits := splitList (", ".toList.intercalate parts.traits)
          trigger := parts.trigger
          requirements := (parts.requirements.map splitList).getD []
          effect := if parts.effectParts = [] then none
            else some ([' '].intercalate parts.effectParts)
          prerequisites := [], references := extractBracketedReferences (renderBlock U entry)
          sourceText := renderBlock U entry, inferences := [], confidence := baseConfidence }) ∧
    (∀ entry ∈ splitFeatEntries U text,
      parseBlock U candidateId (renderFeatBlock entry) =
        { candidateId, ruleType := .feat, name := some entry.name
          traits := splitList (", ".toList.intercalate entry.traits)
          trigger := none, requirements := []
          effect := if groupParagraphs entry.bodyLines = [] then none
            else some ([' '].intercalate (groupParagraphs entry.bodyLines))
          prerequisites := [], references := extractBracketedReferences (renderFeatBlock entry)
          sourceText := renderFeatBlock entry, inferences := [], confidence := baseConfidence }) ∧
    (∀ entry ∈ splitConditionEntries U text,
      let effect := trim ([' '].intercalate entry.bodyLines)
      parseBlock U candidateId (renderConditionBlock entry) =
        { candidateId, ruleType := .condition, name := some entry.name, traits := []
          trigger := none, requirements := []
          effect := if effect.isEmpty then none else some effect
          prerequisites := [], references := extractBracketedReferences (renderConditionBlock entry)
          sourceText := renderConditionBlock entry, inferences := []
          confidence := baseConfidence }) := by
  refine ⟨fun entry hentry => ?_, fun entry hentry => ?_, fun entry hentry => ?_⟩
  · obtain ⟨ruleType, hmem, hparts⟩ :=
      (onLines_of_mem_splitEntries hU text entry hentry).wellFormed_parts hU hA
    exact ⟨ruleType, hmem, hparts.parseBlock_eq hA candidateId⟩
  · have hparts := (onLines_of_mem_splitFeatEntries hU hA text entry hentry).wellFormed_parts hA
    rw [← RawFeatEntry.block_parts, hparts.parseBlock_eq hA candidateId]
    rfl
  · have hparts := (onLines_of_mem_splitConditionEntries text entry hentry).wellFormed_parts hA
    have hparse := hparts.parseBlock_eq hA candidateId
    unfold RenderedParts.candidate at hparse
    rw [RawConditionEntry.block_parts] at hparse
    unfold RawConditionEntry.parts at hparse
    rw [hparse]
    generalize trim ([' '].intercalate entry.bodyLines) = effect
    cases effect <;> simp

/-- A page with an action whose text has labels, a colon and a rule type. -/
def pageWithLabels : Str :=
  "STEP [one-action]\nMOVE\n\nRequirements You stand. Name: Run\n\nFeat\nType: spell".toList

/-- The action of that page. -/
def entryWithLabels : RawEntry where
  name := "Step".toList
  ruleTypeLabel := "Action".toList
  bodyLines := ["MOVE".toList, [], "Requirements You stand. Name: Run".toList, [], "Feat".toList,
    "Type: spell".toList]

/-- With the ASCII tables, the labels in the text of the action stay in its effect. -/
theorem parseBlock_rendered_example :
    (parseBlock .ascii 0 (renderBlock .ascii entryWithLabels)).name = some "Step".toList ∧
      (parseBlock .ascii 0 (renderBlock .ascii entryWithLabels)).effect =
        some "Name: Run Feat Type: spell".toList ∧
      (parseBlock .ascii 0 (renderBlock .ascii entryWithLabels)).confidence = baseConfidence := by
  obtain ⟨ruleType, -, hparse⟩ := (parseBlock_rendered CaseTables.ascii_keepsSpacing
    CaseTables.ascii_followsAscii 0 pageWithLabels).1 entryWithLabels (by decide +kernel)
  have heffect : [' '].intercalate (readParagraphs .ascii
      (groupParagraphs entryWithLabels.bodyLines)).effectParts =
        "Name: Run Feat Type: spell".toList := by decide +kernel
  have hne : (readParagraphs .ascii
      (groupParagraphs entryWithLabels.bodyLines)).effectParts ≠ [] := by decide +kernel
  simp only [if_neg hne, heffect] at hparse
  rw [hparse]
  exact ⟨rfl, rfl, rfl⟩

end Pf2eParser
