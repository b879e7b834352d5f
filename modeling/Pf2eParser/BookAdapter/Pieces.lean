import Pf2eParser.BookAdapter.Rendered
import Pf2eParser.Parser.Explicit
import Pf2eParser.Parser.Layout

/-!
# What the pieces of a rendered block say

A rendered block is one label to a line, and the block parser cuts it wherever one of its texts has
the separator.  A line that is cut ends one piece and begins another one, so that a text behind a
separator is read as a line of its own, whatever it says.

`forall_sourceBlocks_iff` describes the pieces by their lines.  From it we get what all pieces of a
rendered block together say under the label of the name (`RenderedParts.WellFormed.forall_name_iff`)
and under the label of the traits (`RenderedParts.WellFormed.forall_traits_iff`), where the last
line with the label wins.
-/

namespace Pf2eParser

open Text

variable {U : CaseTables}

/-- What stands in front of the first separator of a text. -/
def upToSeparator (s : Str) : Str := trim (firstPiece blockSeparator s)

/-- The texts behind the separators of a text. -/
def behindSeparator (s : Str) : List Str := laterPieces blockSeparator s

/-- A text is the part in front of the first separator and the texts behind the separators. -/
theorem split_blockSeparator (s : Str) :
    split blockSeparator s = firstPiece blockSeparator s :: behindSeparator s :=
  split_eq_cons (by decide) s

/-- A solid text without the separator stands in front of it as a whole. -/
theorem pieces_of_not_hasSeparator {s : Str} (hs : IsTrimmed s) (h : ¬ HasSeparator s) :
    upToSeparator s = s ∧ behindSeparator s = [] := by
  obtain ⟨hfirst, hlater⟩ := pieces_of_unmatched h
  refine ⟨?_, hlater⟩
  unfold upToSeparator
  rw [hfirst]
  rcases eq_or_ne s [] with rfl | hne
  · rfl
  · exact IsSolid.trim_eq ⟨hs, hne⟩

/-- The lines of joined lines. -/
theorem blockLines_intercalate (ls : List Str) :
    blockLines (['\n'].intercalate ls) = ls.flatMap blockLines := by
  induction ls with
  | nil => rfl
  | cons line ls ih =>
    cases ls with
    | nil => simp
    | cons line' ls =>
      rw [List.intercalate_cons_cons, List.append_assoc, List.singleton_append,
        blockLines_append_feed, ih, List.flatMap_cons (x := line)]

/-- The pieces of a block, by their lines. -/
theorem forall_sourceBlocks_iff {P : List Str → Prop} (hnil : P []) {ls : List Str}
    (hne : ls ≠ []) :
    (∀ piece ∈ sourceBlocks (['\n'].intercalate ls), P (blockLines piece)) ↔
      ∀ piece ∈ linePieces blockSeparator ls, P (piece.flatMap blockLines) := by
  have hpiece : ∀ piece : List Str, piece.flatMap blockLines =
      blockLines (trim (['\n'].intercalate piece)) := fun piece => by
    rw [blockLines_trim, blockLines_intercalate]
  unfold sourceBlocks
  rw [split_intercalate (by decide) (by decide) hne]
  simp only [List.mem_filter, List.mem_map, exists_exists_and_eq_and, hpiece]
  constructor
  · intro h piece hmem
    by_cases hblank : trim (['\n'].intercalate piece) = []
    · rw [hblank]
      exact hnil
    · exact h _ ⟨⟨piece, hmem, rfl⟩, by simpa using hblank⟩
  · rintro h _ ⟨⟨piece, hmem, rfl⟩, -⟩
    exact h piece hmem

/-! ## Line by line -/

section Lines

variable {Q : List Str → Prop} {ls : List Str}

/-- The pieces of lines behind the lines that a piece has already: the first line that is cut ends
the piece. -/
theorem forall_linePieces_cons (line : Str) (ls carry : List Str) :
    (∀ piece ∈ (linePieces blockSeparator (line :: ls)).modifyHead (carry ++ ·), Q piece) ↔
      match (behindSeparator line).getLast? with
      | none => ∀ piece ∈ (linePieces blockSeparator ls).modifyHead
          ((carry ++ [firstPiece blockSeparator line]) ++ ·), Q piece
      | some last => Q (carry ++ [firstPiece blockSeparator line]) ∧
          (∀ text ∈ (behindSeparator line).dropLast, Q [text]) ∧
            ∀ piece ∈ (linePieces blockSeparator ls).modifyHead ([last] ++ ·), Q piece := by
  have hsplit := split_blockSeparator line
  rw [linePieces, hsplit, behindSeparator]
  rcases List.eq_nil_or_concat' (laterPieces blockSeparator line) with hnil | ⟨front, last, hconcat⟩
  · rw [hnil]
    cases linePieces blockSeparator ls <;> simp
  · rw [hconcat, ← List.cons_append, List.dropLast_concat, List.getLast?_concat,
      List.getLast?_concat, List.dropLast_concat, List.map_cons, List.cons_append,
      List.modifyHead_cons, List.forall_mem_cons, List.forall_mem_append, List.forall_mem_map]
    simp

/-- A line in front of lines that say `rest` however the piece in front of them begins. -/
theorem forall_linePieces_step (line : Str) {rest : Prop}
    (h : ∀ carry, (∀ piece ∈ (linePieces blockSeparator ls).modifyHead (carry ++ ·), Q piece) ↔
      Q carry ∧ rest) (carry : List Str) :
    (∀ piece ∈ (linePieces blockSeparator (line :: ls)).modifyHead (carry ++ ·), Q piece) ↔
      Q (carry ++ [firstPiece blockSeparator line]) ∧ (∀ text ∈ behindSeparator line, Q [text]) ∧
        rest := by
  rw [forall_linePieces_cons]
  rcases List.eq_nil_or_concat' (behindSeparator line) with hnil | ⟨front, last, hconcat⟩
  · simp only [hnil, List.getLast?_nil, h, List.not_mem_nil, false_implies, implies_true, true_and]
  · simp only [hconcat, List.getLast?_concat, List.dropLast_concat, h, List.forall_mem_append,
      List.forall_mem_singleton, and_assoc]

/-- Lines whose beginnings say nothing that matters. -/
theorem forall_linePieces_plain
    (h : ∀ l ∈ ls, ∀ carry, Q (carry ++ [firstPiece blockSeparator l]) ↔ Q carry)
    (carry : List Str) :
    (∀ piece ∈ (linePieces blockSeparator ls).modifyHead (carry ++ ·), Q piece) ↔
      Q carry ∧ ∀ l ∈ ls, ∀ text ∈ behindSeparator l, Q [text] := by
  induction ls generalizing carry with
  | nil => simp [linePieces]
  | cons line ls ih =>
    rw [forall_linePieces_step line (ih fun l hl => h l (List.mem_cons_of_mem _ hl)),
      h line List.mem_cons_self, List.forall_mem_cons]

/-- A line in front of lines that say `rest` whatever stands in front of them, if nothing is to be
found in the piece that the line ends. -/
theorem forall_linePieces_replaced (line : Str) {rest : Prop} (carry : List Str)
    (h : ∀ carry, (∀ piece ∈ (linePieces blockSeparator ls).modifyHead (carry ++ ·), Q piece) ↔
      rest) (hcarry : Q (carry ++ [firstPiece blockSeparator line])) :
    (∀ piece ∈ (linePieces blockSeparator (line :: ls)).modifyHead (carry ++ ·), Q piece) ↔
      (∀ text ∈ (behindSeparator line).dropLast, Q [text]) ∧ rest := by
  rw [forall_linePieces_cons]
  rcases List.eq_nil_or_concat' (behindSeparator line) with hnil | ⟨front, last, hconcat⟩
  · simp only [hnil, List.getLast?_nil, h, List.dropLast_nil, List.not_mem_nil, false_implies,
      implies_true, true_and]
  · simp only [hconcat, List.getLast?_concat, h, hcarry, true_and]

end Lines

/-! ## Labels -/

/-- However the text behind the label is cut, the label is read as the field. -/
def ReadsCutAs (U : CaseTables) (label : String) (field : FieldLabel) : Prop :=
  '-' ∉ label.toList ∧ ∀ text, '\n' ∉ text → ∃ line,
    blockLines (label.toList ++ text) = [line] ∧ lineField U line = some (field, trim text)

/-- The five labels that the renderer writes are read as their fields. -/
theorem renderedLabels_cut (hA : U.FollowsAscii) :
    ReadsCutAs U "Name: " .name ∧ ReadsCutAs U "Traits: " .traits ∧
      ReadsCutAs U "Trigger: " .trigger ∧ ReadsCutAs U "Requirements: " .requirements ∧
      ReadsCutAs U "Effect: " .effect := by
  have hmain : ∀ (label : String) (field : FieldLabel),
      label.toList.all (fun c => decide (c.toNat < 128)) = true → ':' ∉ label.toList →
      '-' ∉ label.toList → '\n' ∉ label.toList → trim label.toList = label.toList →
      label.toList ≠ [] → label.toList.length ≤ 32 →
      fieldLabel (label.toList.map Char.toLower) = some field →
      ReadsCutAs U (String.ofList (label.toList ++ ": ".toList)) field := by
    intro label field hascii hcolon hdash hfeed htrim hne hlen hfield
    refine ⟨by simp [hdash], fun text htext => ?_⟩
    have hlabel : IsSolid label.toList := htrim ▸ isSolid_trim (htrim.symm ▸ hne)
    obtain ⟨body, back, heq, hbody, hback⟩ := exists_eq_append_back (' ' :: text)
    have hsolid : IsSolid (label.toList ++ ':' :: body) := by
      have hcolonSolid : IsSolid (label.toList ++ [':']) :=
        hlabel.append_of_last fun c hc => Option.some.inj hc ▸ by decide
      simpa using hcolonSolid.append_of_last hbody
    have hvalue : trim body = trim text := by
      have hspace : ∀ c ∈ [' '], isWhitespace c = true :=
        List.forall_mem_singleton.mpr (by decide)
      have hfront := @trim_append [' '] text [] hspace (by simp)
      have hend := @trim_append [] body back (by simp) hback
      rw [List.nil_append, ← heq] at hend
      simpa using hend.symm.trans (by simpa using hfront)
    have hline : label.toList ++ ": ".toList ++ text = label.toList ++ ':' :: body ++ back := by
      simp [heq]
    refine ⟨label.toList ++ ':' :: body, ?_, ?_⟩
    · have hnone : '\n' ∉ label.toList ++ ": ".toList ++ text := by simp [hfeed, htext]
      have htrimmed := @trim_pad [] _ back hsolid (by simp) hback
      rw [List.nil_append] at htrimmed
      rw [String.toList_ofList, blockLines_of_notMem hnone, trimmedLines, List.map_singleton, hline,
        htrimmed]
      simp
    · have hsplit := splitLabel_append hA (List.all_iff_forall_prop.mp hascii) hcolon htrim hne hlen
        body
      simp [lineField, hsplit, hfield, hvalue]
  refine ⟨hmain "Name" _ ?_ ?_ ?_ ?_ ?_ ?_ ?_ ?_, hmain "Traits" _ ?_ ?_ ?_ ?_ ?_ ?_ ?_ ?_,
    hmain "Trigger" _ ?_ ?_ ?_ ?_ ?_ ?_ ?_ ?_, hmain "Requirements" _ ?_ ?_ ?_ ?_ ?_ ?_ ?_ ?_,
    hmain "Effect" _ ?_ ?_ ?_ ?_ ?_ ?_ ?_ ?_⟩ <;> decide

/-- The last value of a field in the lines, if there is one, is as it should be. -/
def LastSays (U : CaseTables) (field : FieldLabel) (R : Str → Prop) (ls : List Str) : Prop :=
  ∀ value ∈ (fieldValues U field ls).getLast?, R value

/-- The texts that a line without line feeds is cut into have none either. -/
theorem feed_notMem_pieces {text : Str} (hfeed : '\n' ∉ text) :
    '\n' ∉ firstPiece blockSeparator text ∧ ∀ piece ∈ behindSeparator text, '\n' ∉ piece := by
  have hsplit := split_blockSeparator text
  have hpieces : ∀ piece ∈ split blockSeparator text, '\n' ∉ piece := fun piece hpiece hmem =>
    hfeed ((infix_of_mem_split (by decide) hpiece).subset hmem)
  rw [hsplit] at hpieces
  exact List.forall_mem_cons.mp hpieces

/-- A label with a text behind it is cut where the text is. -/
theorem pieces_label {label : String} (hdash : '-' ∉ label.toList) (text : Str) :
    firstPiece blockSeparator (label.toList ++ text) =
        label.toList ++ firstPiece blockSeparator text ∧
      behindSeparator (label.toList ++ text) = behindSeparator text := by
  have hall : ∀ c ∈ blockSeparator, c ∉ label.toList := by
    have heq : ∀ c ∈ blockSeparator, c = '-' := List.all_iff_forall_prop.mp (by decide)
    exact fun c hc => heq c hc ▸ hdash
  have hsplit := split_append_of_notMem (by decide) hall text
  have hpieces := split_blockSeparator text
  rw [hpieces, List.modifyHead_cons] at hsplit
  simp [firstPiece, behindSeparator, laterPieces, hsplit]

/-- The beginning of a labelled line says its text as far as the first separator. -/
theorem lastSays_firstPiece_iff {label : String} {field : FieldLabel}
    (h : ReadsCutAs U label field) {text : Str} (hfeed : '\n' ∉ text) (field' : FieldLabel)
    (R : Str → Prop) (carry : List Str) :
    LastSays U field' R ((carry ++ [firstPiece blockSeparator (label.toList ++ text)]).flatMap
        blockLines) ↔
      if field = field' then R (upToSeparator text)
      else LastSays U field' R (carry.flatMap blockLines) := by
  obtain ⟨line, hline, hfield⟩ := h.2 _ (feed_notMem_pieces hfeed).1
  have hnil : fieldValues U field' [] = [] := rfl
  rw [(pieces_label h.1 text).1, List.flatMap_append, List.flatMap_singleton, hline, LastSays,
    fieldValues_append, fieldValues_cons, hfield, hnil]
  dsimp only
  split_ifs with heq
  · rw [List.append_nil, List.getLast?_concat]
    simp [upToSeparator]
  · rw [List.append_nil, List.append_nil, LastSays]

/-- A text behind a separator says what it is labelled with. -/
theorem lastSays_singleton_iff {field : FieldLabel} {word piece : Str} (h : field.word = some word)
    (hfeed : '\n' ∉ piece) (R : Str → Prop) :
    LastSays U field R ([piece].flatMap blockLines) ↔
      ∀ value, CarriesLabel U word (trim piece) value → R value := by
  have hvalues : fieldValues U field ([piece].flatMap blockLines) =
      fieldValues U field [trim piece] := by
    rw [List.flatMap_singleton, blockLines_of_notMem hfeed, trimmedLines, List.map_singleton]
    cases hpiece : trim piece with
    | nil => rfl
    | cons c rest => rfl
  simp only [LastSays, hvalues, carriesLabel_iff_lineField h]
  rw [fieldValues_cons]
  cases hline : lineField U (trim piece) with
  | none => simp [fieldValues]
  | some entry =>
    obtain ⟨field', value⟩ := entry
    by_cases heq : field' = field <;> simp [fieldValues, heq]

/-! ## Rendered blocks -/

/-- A text that is written with a label, and the field that the label is read as. -/
structure RenderedField where
  label : String
  field : FieldLabel
  text : Str

namespace RenderedField

/-- The line of a text with its label. -/
def line (rendered : RenderedField) : Str := rendered.label.toList ++ rendered.text

/-- The label is read as the field, and the text is on one line. -/
structure WellFormed (U : CaseTables) (rendered : RenderedField) : Prop where
  reads : ReadsCutAs U rendered.label rendered.field
  feed_notMem : '\n' ∉ rendered.text

/-- A line is cut where its text is. -/
theorem WellFormed.behindSeparator_line {rendered : RenderedField} (h : rendered.WellFormed U) :
    behindSeparator rendered.line = behindSeparator rendered.text := (pieces_label h.reads.1 _).2

/-- The beginning of a line says its text as far as the first separator. -/
theorem WellFormed.lastSays_iff {rendered : RenderedField} (h : rendered.WellFormed U)
    (field : FieldLabel) (R : Str → Prop) (carry : List Str) :
    LastSays U field R
        ((carry ++ [firstPiece blockSeparator rendered.line]).flatMap blockLines) ↔
      if rendered.field = field then R (upToSeparator rendered.text)
      else LastSays U field R (carry.flatMap blockLines) :=
  lastSays_firstPiece_iff h.reads h.feed_notMem field R carry

/-- Lines with other labels than the one in question: what is said stands behind their separators.
-/
theorem forall_linePieces_iff {rendered : List RenderedField} {field : FieldLabel}
    (h : ∀ r ∈ rendered, r.WellFormed U ∧ r.field ≠ field) (R : Str → Prop) (carry : List Str) :
    (∀ piece ∈ (linePieces blockSeparator (rendered.map line)).modifyHead (carry ++ ·),
        LastSays U field R (piece.flatMap blockLines)) ↔
      LastSays U field R (carry.flatMap blockLines) ∧
        ∀ r ∈ rendered, ∀ piece ∈ behindSeparator r.text,
          LastSays U field R ([piece].flatMap blockLines) := by
  have hplain : ∀ l ∈ rendered.map line, ∀ carry,
      LastSays U field R ((carry ++ [firstPiece blockSeparator l]).flatMap blockLines) ↔
        LastSays U field R (carry.flatMap blockLines) := by
    refine List.forall_mem_map.mpr fun r hr carry => ?_
    obtain ⟨hr, hne⟩ := h r hr
    rw [hr.lastSays_iff, if_neg hne]
  rw [forall_linePieces_plain (Q := fun piece => LastSays U field R (piece.flatMap blockLines))
    hplain, List.forall_mem_map]
  refine and_congr_right fun _ => forall₂_congr fun r hr => ?_
  rw [(h r hr).1.behindSeparator_line]

end RenderedField

namespace RenderedParts

/-- The name with its label. -/
def nameField (parts : RenderedParts) : RenderedField := ⟨"Name: ", .name, parts.name⟩

/-- The traits with their label. -/
def traitField (parts : RenderedParts) : RenderedField :=
  ⟨"Traits: ", .traits, ", ".toList.intercalate parts.traits⟩

/-- What is written behind the name and the traits. -/
def laterFields (parts : RenderedParts) : List RenderedField :=
  parts.trigger.toList.map (⟨"Trigger: ", .trigger, ·⟩) ++
    parts.requirements.toList.map (⟨"Requirements: ", .requirements, ·⟩) ++
    if parts.effectParts = [] then []
    else [⟨"Effect: ", .effect, " ".toList.intercalate parts.effectParts⟩]

/-- The lines of a rendered block. -/
theorem lines_eq (parts : RenderedParts) :
    parts.labelled = parts.nameField.line ::
      ((if parts.traits = [] then [] else [parts.traitField]) ++ parts.laterFields).map
        RenderedField.line := by
  have hlist : ∀ (label joint : String) (items : List Str), listLine label joint items =
      if items = [] then [] else [label.toList ++ joint.toList.intercalate items] := by
    intro label joint items
    cases items <;> rfl
  unfold labelled laterFields nameField traitField
  rw [hlist, hlist]
  cases parts.trigger <;> cases parts.requirements <;> split_ifs <;>
    simp [valueLine, RenderedField.line]

variable {parts : RenderedParts} {ruleType : RuleType}

/-- What is written of an entry is well formed. -/
theorem WellFormed.fields (hA : U.FollowsAscii) (h : parts.WellFormed U ruleType) :
    parts.nameField.WellFormed U ∧ (parts.traits ≠ [] → parts.traitField.WellFormed U) ∧
      ∀ r ∈ parts.laterFields, r.WellFormed U ∧ r.field ≠ .name ∧ r.field ≠ .traits := by
  have hfeed : ∀ r : RenderedField, r.line ∈ parts.labelled → '\n' ∉ r.text := fun r hr hmem =>
    (h.isLine _ (List.mem_cons_of_mem _ hr)).feed_notMem (List.mem_append_right _ hmem)
  rw [lines_eq] at hfeed
  obtain ⟨hname, htraits, htrigger, hrequirements, heffect⟩ := renderedLabels_cut hA
  refine ⟨⟨hname, hfeed _ List.mem_cons_self⟩, fun hne => ⟨htraits, hfeed _ (by simp [hne])⟩,
    fun r hr => ?_⟩
  have hline : '\n' ∉ r.text :=
    hfeed r (List.mem_cons_of_mem _ (List.mem_map_of_mem (List.mem_append_right _ hr)))
  simp only [laterFields, List.mem_append, List.mem_map] at hr
  rcases hr with (⟨_, -, rfl⟩ | ⟨_, -, rfl⟩) | hr
  · exact ⟨⟨htrigger, hline⟩, by simp, by simp⟩
  · exact ⟨⟨hrequirements, hline⟩, by simp, by simp⟩
  · split at hr
    · exact absurd hr List.not_mem_nil
    · obtain rfl := List.mem_singleton.mp hr
      exact ⟨⟨heffect, hline⟩, by simp, by simp⟩

/-- The rule type in front of a block says nothing else. -/
theorem WellFormed.lastSays_typeLine (hA : U.FollowsAscii) (h : parts.WellFormed U ruleType)
    (field : FieldLabel) (R : Str → Prop) :
    LastSays U field R ([parts.typeLine].flatMap blockLines) := by
  have hnone : lineField U parts.typeLine = none := by
    by_contra hfield
    obtain ⟨entry, hentry⟩ := Option.ne_none_iff_exists'.mp hfield
    have hbare := detectBareType_eq_none_of_colon hA (colon_mem_of_lineField hentry)
    exact absurd (hbare.symm.trans h.detect) (by simp)
  have hline : blockLines parts.typeLine = [parts.typeLine] := by
    rw [blockLines_of_notMem h.typeLine.feed_notMem, trimmedLines, List.map_singleton,
      h.typeLine.toIsSolid.trim_eq]
    simp [h.typeLine.ne_nil]
  intro value hvalue
  rw [List.flatMap_singleton, hline, fieldValues_cons, hnone] at hvalue
  simp [fieldValues] at hvalue

/-- The pieces of a rendered block are those of its labelled lines, the first one with the rule type
in front. -/
theorem forall_sourceBlocks_iff (hdash : '-' ∉ parts.typeLine) (field : FieldLabel)
    (R : Str → Prop) :
    (∀ piece ∈ sourceBlocks parts.block, LastSays U field R (blockLines piece)) ↔
      ∀ piece ∈ (linePieces blockSeparator parts.labelled).modifyHead ([parts.typeLine] ++ ·),
        LastSays U field R (piece.flatMap blockLines) := by
  have hclean : ¬ HasSeparator parts.typeLine := fun hsep => hdash (hsep.subset (by decide))
  have hnil : LastSays U field R [] := fun value hvalue => by simp [fieldValues] at hvalue
  rw [block, Pf2eParser.forall_sourceBlocks_iff hnil (List.cons_ne_nil _ _)]
  have hstep := forall_linePieces_cons (Q := fun piece => LastSays U field R
    (piece.flatMap blockLines)) parts.typeLine parts.labelled []
  obtain ⟨hfirst, hlater⟩ := pieces_of_unmatched hclean
  unfold behindSeparator at hstep
  rw [hlater, List.getLast?_nil] at hstep
  simp only [List.nil_append, hfirst] at hstep
  rw [← hstep]
  cases linePieces blockSeparator (parts.typeLine :: parts.labelled) <;> rfl

/-- What the pieces of a rendered block say under the label of the name. -/
theorem WellFormed.forall_name_iff (hA : U.FollowsAscii) (h : parts.WellFormed U ruleType)
    (hdash : '-' ∉ parts.typeLine) (R : Str → Prop) :
    (∀ piece ∈ sourceBlocks parts.block, LastSays U .name R (blockLines piece)) ↔
      R (upToSeparator parts.name) ∧
        (∀ piece ∈ behindSeparator parts.name, LastSays U .name R ([piece].flatMap blockLines)) ∧
        ∀ r ∈ (if parts.traits = [] then [] else [parts.traitField]) ++ parts.laterFields,
          ∀ piece ∈ behindSeparator r.text, LastSays U .name R ([piece].flatMap blockLines) := by
  obtain ⟨hname, htraits, hlater⟩ := h.fields hA
  have hothers : ∀ r ∈ (if parts.traits = [] then [] else [parts.traitField]) ++ parts.laterFields,
      r.WellFormed U ∧ r.field ≠ .name := by
    intro r hr
    rcases List.mem_append.mp hr with hr | hr
    · split at hr
      · exact absurd hr List.not_mem_nil
      case isFalse hne =>
        obtain rfl := List.mem_singleton.mp hr
        exact ⟨htraits hne, by simp [traitField]⟩
    · exact ⟨(hlater r hr).1, (hlater r hr).2.1⟩
  rw [forall_sourceBlocks_iff hdash, lines_eq,
    forall_linePieces_step (Q := fun piece => LastSays U .name R (piece.flatMap blockLines)) _
      (RenderedField.forall_linePieces_iff hothers R),
    hname.lastSays_iff, hname.behindSeparator_line]
  exact Iff.rfl

/-- What the pieces of a rendered block say under the label of the traits.  Where traits are
written, what the last text behind the name says is replaced by them. -/
theorem WellFormed.forall_traits_iff (hA : U.FollowsAscii) (h : parts.WellFormed U ruleType)
    (hdash : '-' ∉ parts.typeLine) (R : Str → Prop) :
    (∀ piece ∈ sourceBlocks parts.block, LastSays U .traits R (blockLines piece)) ↔
      (parts.traits ≠ [] → R (upToSeparator parts.traitField.text)) ∧
        (∀ piece ∈ if parts.traits = [] then behindSeparator parts.name
            else (behindSeparator parts.name).dropLast,
          LastSays U .traits R ([piece].flatMap blockLines)) ∧
        ∀ r ∈ (if parts.traits = [] then [] else [parts.traitField]) ++ parts.laterFields,
          ∀ piece ∈ behindSeparator r.text, LastSays U .traits R ([piece].flatMap blockLines) := by
  obtain ⟨hname, htraits, hlater⟩ := h.fields hA
  have hothers := RenderedField.forall_linePieces_iff (fun r hr =>
    ⟨(hlater r hr).1, (hlater r hr).2.2⟩) R
  have htype := h.lastSays_typeLine hA .traits R
  have hcarry : LastSays U .traits R
      (([parts.typeLine] ++ [firstPiece blockSeparator parts.nameField.line]).flatMap
        blockLines) := by
    rw [hname.lastSays_iff, if_neg (by simp [nameField])]
    exact htype
  have hbehind : behindSeparator parts.nameField.line = behindSeparator parts.name :=
    hname.behindSeparator_line
  rw [forall_sourceBlocks_iff hdash, lines_eq]
  by_cases hnone : parts.traits = []
  · have hpieces := forall_linePieces_step (Q := fun piece => LastSays U .traits R
      (piece.flatMap blockLines)) parts.nameField.line hothers [parts.typeLine]
    rw [hbehind] at hpieces
    simp only [if_pos hnone, List.nil_append]
    exact hpieces.trans ⟨fun ⟨_, hrest⟩ => ⟨fun hne => absurd hnone hne, hrest⟩,
      fun ⟨_, hrest⟩ => ⟨hcarry, hrest⟩⟩
  · have htrait := htraits hnone
    have hbegins : ∀ carry : List Str, LastSays U .traits R
        ((carry ++ [firstPiece blockSeparator parts.traitField.line]).flatMap blockLines) ↔
          R (upToSeparator parts.traitField.text) := by
      intro carry
      rw [htrait.lastSays_iff, if_pos (by rfl)]
    have hrest := fun carry => (forall_linePieces_step (Q := fun piece => LastSays U .traits R
      (piece.flatMap blockLines)) parts.traitField.line hothers carry).trans
        (and_congr_left' (hbegins carry))
    have hpieces := forall_linePieces_replaced (Q := fun piece => LastSays U .traits R
      (piece.flatMap blockLines)) parts.nameField.line [parts.typeLine] hrest hcarry
    rw [hbehind, htrait.behindSeparator_line] at hpieces
    rw [if_neg hnone, if_neg hnone, List.singleton_append, List.map_cons, hpieces,
      List.forall_mem_cons, and_left_comm, imp_iff_right hnone]

end RenderedParts

end Pf2eParser
