import Pf2eParser.BookAdapter.ActionLines
import Pf2eParser.BookAdapter.FeatLines
import Pf2eParser.BookAdapter.MarkerWords

/-!
# Level markers

A line `FEAT <level>` marks the level of a feat.  It is in capitals, as the names and traits of the
book are, and the converter for feats takes care not to read it as one.  `markers_hidden_iff` says
for each converter, by the lines of the page, when no marker of a page comes out as a name or as a
trait: for conditions and feats always, but for odd spellings and for texts behind three hyphens,
and for actions unless a marker is the opening paragraph of an action.

What is read of an entry is in front of the first three hyphens of its texts, and every text behind
such hyphens is read as a line of its own (`RenderedParts.WellFormed.hidesMarkers_iff`).  The odd
spellings are those of `SpellsMarker.spaced_oddly` and `comma_mem_of_isMarkerOf`; on a page without
them, the levels of feats never come out (`feat_markers_hidden`).
-/

namespace Pf2eParser

open Text

variable {U : CaseTables}

/-! ## Markers in candidates -/

/-- The name or a trait of the candidate is a level marker of the page. -/
def Candidate.ShowsMarker (candidate : Candidate) (text : Str) : Prop :=
  (∃ name ∈ candidate.name, IsMarkerOf text name) ∨ ∃ word ∈ candidate.traits, IsMarkerOf text word

/-- No level marker of the page comes out as the name or as a trait of a candidate. -/
def MarkersHidden (U : CaseTables) (fresh : ℕ → Uuid) (text converted : Str) : Prop :=
  ∀ candidate ∈ parseCandidates U fresh converted, ¬ candidate.ShowsMarker text

/-! ## Markers in lines -/

/-- As a line of its own, the text is a label for the name with a marker of the page. -/
def SpellsName (U : CaseTables) (text piece : Str) : Prop :=
  ∃ value, CarriesLabel U "name".toList (trim piece) value ∧ IsMarkerOf text value

/-- As a line of its own, the text is a label for the traits with a list that has a marker of the
page. -/
def SpellsTrait (U : CaseTables) (text piece : Str) : Prop :=
  ∃ value, CarriesLabel U "traits".toList (trim piece) value ∧
    ∃ item ∈ splitList value, IsMarkerOf text item

/-- The traits of an entry have no marker of the page, and no text behind a separator spells one. -/
structure TextsHideMarkers (U : CaseTables) (text name : Str) (traits later : List Str) : Prop where
  in_traits : ∀ item ∈ splitList (upToSeparator (", ".toList.intercalate traits)),
    ¬ IsMarkerOf text item
  name_behind_name : ∀ piece ∈ behindSeparator name, ¬ SpellsName U text piece
  /-- The traits of the entry replace what the last text behind the name says. -/
  traits_behind_name : ∀ piece ∈ if traits = [] then behindSeparator name
    else (behindSeparator name).dropLast, ¬ SpellsTrait U text piece
  behind_texts : ∀ s ∈ ", ".toList.intercalate traits :: later, ∀ piece ∈ behindSeparator s,
    ¬ SpellsName U text piece ∧ ¬ SpellsTrait U text piece

/-- The name line does not spell a marker of the page, and neither do the traits and the texts
behind separators. -/
def HidesMarkers (U : CaseTables) (text nameLine : Str) (traits later : List Str) : Prop :=
  ¬ SpellsMarker U text (upToSeparator nameLine) ∧
    TextsHideMarkers U text (titleCase U nameLine) traits later

/-! ## Blocks -/

/-- What a parsed block shows is in its last name and its last traits. -/
theorem not_showsMarker_parseBlock (hA : U.FollowsAscii) (candidateId : Uuid) (text block : Str) :
    ¬ (parseBlock U candidateId block).ShowsMarker text ↔
      (∀ value ∈ (fieldValues U .name (blockLines block)).getLast?, ¬ IsMarkerOf text value) ∧
      ∀ value ∈ (fieldValues U .traits (blockLines block)).getLast?,
        ∀ item ∈ splitList value, ¬ IsMarkerOf text item := by
  have hread := normalized_eq_fieldValues hA candidateId block
  have hname : (parseBlock U candidateId block).name =
      (fieldValues U .name (blockLines block)).getLast? := congrArg NormalizedFields.name hread
  have htraits : (parseBlock U candidateId block).traits =
      ((fieldValues U .traits (blockLines block)).getLast?.map splitList).getD [] :=
    congrArg NormalizedFields.traits hread
  unfold Candidate.ShowsMarker
  rw [hname, htraits, not_or]
  refine and_congr (by simp) ?_
  cases (fieldValues U .traits (blockLines block)).getLast? <;> simp

/-- The candidates of joined blocks are those of the pieces of the blocks. -/
theorem markersHidden_joined_iff (hA : U.FollowsAscii) (fresh : ℕ → Uuid) (text : Str)
    (blocks : List Str) :
    MarkersHidden U fresh text (blockJoint.intercalate blocks) ↔ ∀ block ∈ blocks,
      ∀ piece ∈ sourceBlocks block, ¬ (parseBlock U 0 piece).ShowsMarker text := by
  rw [← List.forall_mem_flatMap, ← sourceBlocks_joined]
  constructor
  · intro h piece hpiece
    obtain ⟨i, hi, rfl⟩ := List.getElem_of_mem hpiece
    rw [not_showsMarker_parseBlock hA 0, ← not_showsMarker_parseBlock hA (fresh i)]
    exact h _ (mem_parseCandidates_iff.mpr ⟨i, hi, rfl⟩)
  · intro h candidate hcandidate
    obtain ⟨i, hi, rfl⟩ := mem_parseCandidates_iff.mp hcandidate
    rw [not_showsMarker_parseBlock hA (fresh i), ← not_showsMarker_parseBlock hA 0]
    exact h _ (List.getElem_mem hi)

/-- A text behind a separator that names no marker. -/
theorem lastSays_name_iff {piece : Str} (hfeed : '\n' ∉ piece) (text : Str) :
    LastSays U .name (fun value => ¬ IsMarkerOf text value) ([piece].flatMap blockLines) ↔
      ¬ SpellsName U text piece := by
  rw [lastSays_singleton_iff (by rfl) hfeed, SpellsName]
  simp only [not_exists, not_and]

/-- A text behind a separator that lists no marker. -/
theorem lastSays_traits_iff {piece : Str} (hfeed : '\n' ∉ piece) (text : Str) :
    LastSays U .traits (fun value => ∀ item ∈ splitList value, ¬ IsMarkerOf text item)
        ([piece].flatMap blockLines) ↔ ¬ SpellsTrait U text piece := by
  rw [lastSays_singleton_iff (by rfl) hfeed, SpellsTrait]
  simp only [not_exists, not_and]

/-- The texts that are written behind the traits of an entry. -/
def RenderedParts.laterTexts (parts : RenderedParts) : List Str :=
  parts.trigger.toList ++ parts.requirements.toList ++ [[' '].intercalate parts.effectParts]

/-- What is written behind the name, by its texts. -/
theorem RenderedParts.forall_behind_iff {parts : RenderedParts} {P : Str → Prop} :
    (∀ r ∈ (if parts.traits = [] then [] else [parts.traitField]) ++ parts.laterFields,
        ∀ piece ∈ behindSeparator r.text, P piece) ↔
      ∀ s ∈ ", ".toList.intercalate parts.traits :: parts.laterTexts,
        ∀ piece ∈ behindSeparator s, P piece := by
  have hnil : behindSeparator [] = [] := by decide
  unfold laterFields laterTexts traitField
  cases htraits : parts.traits <;> cases heffect : parts.effectParts <;>
    cases parts.trigger <;> cases parts.requirements <;> simp [hnil]

/-- The texts behind the separators of a rendered block are on single lines. -/
theorem RenderedParts.WellFormed.feed_notMem_behind (hA : U.FollowsAscii) {parts : RenderedParts}
    {ruleType : RuleType} (h : parts.WellFormed U ruleType) :
    (∀ piece ∈ behindSeparator parts.name, '\n' ∉ piece) ∧
      ∀ s ∈ ", ".toList.intercalate parts.traits :: parts.laterTexts,
        ∀ piece ∈ behindSeparator s, '\n' ∉ piece := by
  obtain ⟨hname, htraits, hlater⟩ := h.fields hA
  refine ⟨(feed_notMem_pieces hname.feed_notMem).2,
    RenderedParts.forall_behind_iff.mp fun r hr => ?_⟩
  rcases List.mem_append.mp hr with hr | hr
  · split at hr
    · exact absurd hr List.not_mem_nil
    case isFalse hne =>
      obtain rfl := List.mem_singleton.mp hr
      exact (feed_notMem_pieces (htraits hne).feed_notMem).2
  · exact (feed_notMem_pieces (hlater r hr).1.feed_notMem).2

/-- No piece of a rendered block shows a marker of the page exactly if the name is none and the
texts hide them. -/
theorem RenderedParts.WellFormed.hidesMarkers_iff (hA : U.FollowsAscii) {parts : RenderedParts}
    {ruleType : RuleType} (h : parts.WellFormed U ruleType) (hdash : '-' ∉ parts.typeLine)
    (text : Str) :
    (∀ piece ∈ sourceBlocks parts.block, ¬ (parseBlock U 0 piece).ShowsMarker text) ↔
      ¬ IsMarkerOf text (upToSeparator parts.name) ∧
        TextsHideMarkers U text parts.name parts.traits parts.laterTexts := by
  obtain ⟨hname, htexts⟩ := h.feed_notMem_behind hA
  have hnames := h.forall_name_iff hA hdash fun value => ¬ IsMarkerOf text value
  have hlists := h.forall_traits_iff hA hdash fun value =>
    ∀ item ∈ splitList value, ¬ IsMarkerOf text item
  -- what stands behind a separator is a line of its own
  have hlast : ∀ piece ∈ if parts.traits = [] then behindSeparator parts.name
      else (behindSeparator parts.name).dropLast, '\n' ∉ piece := by
    split
    · exact hname
    · exact fun piece hpiece => hname piece (List.mem_of_mem_dropLast hpiece)
  rw [RenderedParts.forall_behind_iff] at hnames hlists
  rw [forall₂_congr fun piece hpiece => lastSays_name_iff (U := U) (hname piece hpiece) text,
    forall₂_congr fun s hs => forall₂_congr fun piece hpiece =>
      lastSays_name_iff (U := U) (htexts s hs piece hpiece) text] at hnames
  rw [forall₂_congr fun piece hpiece => lastSays_traits_iff (U := U) (hlast piece hpiece) text,
    forall₂_congr fun s hs => forall₂_congr fun piece hpiece =>
      lastSays_traits_iff (U := U) (htexts s hs piece hpiece) text] at hlists
  have hnone : parts.traits = [] → ∀ item ∈ splitList (upToSeparator
      (", ".toList.intercalate parts.traits)), ¬ IsMarkerOf text item := by
    intro hnil item hitem
    have hlist : splitList (upToSeparator []) = [] := by decide
    rw [hnil, List.intercalate_nil, hlist] at hitem
    exact absurd hitem List.not_mem_nil
  simp only [not_showsMarker_parseBlock hA 0 text]
  simp only [imp_and, forall_and]
  refine (and_congr hnames hlists).trans ?_
  constructor
  · rintro ⟨⟨hfirst, hnameBehind, hnameTexts⟩, hin, htraitBehind, htraitTexts⟩
    refine ⟨hfirst, ?_, hnameBehind, htraitBehind, fun s hs piece hpiece =>
      ⟨hnameTexts s hs piece hpiece, htraitTexts s hs piece hpiece⟩⟩
    exact (eq_or_ne parts.traits []).elim hnone hin
  · rintro ⟨hfirst, hin, hnameBehind, htraitBehind, hboth⟩
    exact ⟨⟨hfirst, hnameBehind, fun s hs piece hpiece => (hboth s hs piece hpiece).1⟩,
      fun _ => hin, htraitBehind, fun s hs piece hpiece => (hboth s hs piece hpiece).2⟩

/-! ## Actions -/

/-- No level marker of the page comes out of its actions exactly if the lines of every action hide
the markers. -/
theorem action_markers_hidden_iff (hU : U.KeepsSpacing) (hA : U.FollowsAscii) (fresh : ℕ → Uuid)
    (text : Str) :
    MarkersHidden U fresh text (convertPage U text) ↔
      ∀ before heading rest, pageLines text = before ++ heading :: rest →
        ∀ name, IsActionHeading U heading name →
          HidesMarkers U text name (openingTrait U (actionPreface U rest))
            (actionTexts U (actionPreface U rest)) := by
  have hentry : ∀ entry ∈ splitEntries U text,
      ((∀ piece ∈ sourceBlocks (renderBlock U entry), ¬ (parseBlock U 0 piece).ShowsMarker text) ↔
        ¬ IsMarkerOf text (upToSeparator entry.name) ∧ TextsHideMarkers U text entry.name
          (openingTrait U entry.bodyLines) (actionTexts U entry.bodyLines)) := by
    intro entry hmem
    have hlines := onLines_of_mem_splitEntries hU text entry hmem
    obtain ⟨ruleType, -, hparts⟩ := hlines.wellFormed_parts hU hA
    have hdash : '-' ∉ (entry.parts U).typeLine := by
      have hall : ∀ label ∈ actionCostMarkers.map Prod.snd, '-' ∉ label := by decide
      exact hall _ hlines.ruleTypeLabel
    rw [← RawEntry.block_parts, hparts.hidesMarkers_iff hA hdash, RawEntry.traits_parts,
      RenderedParts.laterTexts, RawEntry.texts_parts]
    rfl
  rw [convertPage, markersHidden_joined_iff hA, List.forall_mem_map, forall₂_congr hentry,
    forall_splitEntries_iff]
  refine forall₄_congr fun before heading rest _ => ?_
  simp only [HidesMarkers, ← isMarkerOf_titleCase_iff hU hA]
  constructor
  · rintro h name ⟨cost, hcost, hline, hshouty⟩
    exact h _ _ (detectHeading_eq_some_iff.mpr ⟨name, cost, hcost, hline, hshouty, rfl, rfl⟩)
  · intro h title label hheading
    obtain ⟨name, cost, hcost, hline, hshouty, rfl, rfl⟩ := detectHeading_eq_some_iff.mp hheading
    exact h name ⟨cost, hcost, hline, hshouty⟩

/-! ## Feats -/

/-- No level marker of the page comes out of its feats exactly if the lines of every feat hide the
markers. -/
theorem feat_markers_hidden_iff (hU : U.KeepsSpacing) (hA : U.FollowsAscii) (fresh : ℕ → Uuid)
    {text : Str} {feats : List FeatLines} (h : IsFeatPage U (pageLines text) feats) :
    MarkersHidden U fresh text (convertFeatPage U text) ↔ ∀ feat ∈ feats,
      HidesMarkers U text feat.nameLine ((feat.traitLines U).map U.toLowercase).eraseDups
        [[' '].intercalate (visibleLines feat.bodyLines)] := by
  have hfeat : ∀ feat ∈ feats,
      ((∀ piece ∈ sourceBlocks (renderFeatBlock (feat.entry U)),
          ¬ (parseBlock U 0 piece).ShowsMarker text) ↔
        HidesMarkers U text feat.nameLine ((feat.traitLines U).map U.toLowercase).eraseDups
          [[' '].intercalate (visibleLines feat.bodyLines)]) := by
    intro feat hmem
    have hentry : feat.entry U ∈ splitFeatEntries U text :=
      splitFeatEntries_of_isFeatPage h ▸ List.mem_map_of_mem hmem
    have hparts := (onLines_of_mem_splitFeatEntries hU hA text _ hentry).wellFormed_parts hA
    have htexts : (feat.entry U).parts.laterTexts =
        [[' '].intercalate (visibleLines feat.bodyLines)] := by
      have hjoined := intercalate_groupParagraphs (visibleLines feat.bodyLines)
      unfold visibleLines at hjoined
      rw [List.filter_filter] at hjoined
      simpa [RenderedParts.laterTexts, RawFeatEntry.parts, FeatLines.entry, visibleLines]
        using hjoined
    have hdash : '-' ∉ "Feat".toList := by decide
    rw [← RawFeatEntry.block_parts, hparts.hidesMarkers_iff hA hdash, htexts, HidesMarkers,
      ← isMarkerOf_titleCase_iff hU hA, ← distinctTraits_eq]
    rfl
  rw [convertFeatPage, markersHidden_joined_iff hA, splitFeatEntries_of_isFeatPage h, List.map_map,
    List.forall_mem_map]
  exact forall₂_congr hfeat

/-! ## Conditions -/

/-- No part of a heading of the glossary is a level marker, since the level is no word in title
case. -/
theorem not_isMarkerOf_of_isConditionHeading (hA : U.FollowsAscii) {text name word : Str}
    (h : isConditionHeading U name = true) (hword : word <:+: name) : ¬ IsMarkerOf text word := by
  intro hmarker
  obtain ⟨feat, level, rfl, -, hne, hdigits⟩ := hmarker.exists_level
  obtain ⟨digit, rest, rfl⟩ := List.exists_cons_of_ne_nil hne
  obtain ⟨front, back, rfl⟩ := hword
  obtain ⟨hascii, -, hupper, -, hspace⟩ :=
    CaseTables.digit_spec (hdigits digit List.mem_cons_self)
  obtain ⟨tail, words, hwords⟩ : ∃ tail words, splitWhitespace (digit :: (rest ++ back)) =
      (digit :: tail) :: words := by
    obtain ⟨first, others, hsplit⟩ :=
      List.exists_cons_of_ne_nil (List.splitOnP_ne_nil isWhitespace (rest ++ back))
    refine ⟨first, others.filter fun word => !word.isEmpty, ?_⟩
    rw [splitWhitespace, List.splitOnP_cons_eq_if_modifyHead, if_neg (by simp [hspace]), hsplit,
      List.modifyHead_cons, List.filter_cons_of_pos (by simp)]
  have hsplit : front ++ (feat ++ ' ' :: digit :: rest) ++ back =
      front ++ feat ++ ' ' :: digit :: (rest ++ back) := by simp
  simp only [isConditionHeading, Bool.and_eq_true, List.all_eq_true] at h
  have htitle := h.2 (digit :: tail) (by
    rw [hsplit, splitWhitespace_append_cons (front ++ feat) (by decide), hwords]
    simp)
  rw [isStrictTitleCase, hA.isUppercase digit hascii, hupper, Bool.false_and] at htitle
  exact absurd htitle (by decide)

/-- What a text is labelled with is a part of it. -/
theorem CarriesLabel.value_isInfix {label line value : Str}
    (h : CarriesLabel U label (trim line) value) : value <:+: line := by
  obtain ⟨front, back, heq, -, -, -, -, rfl⟩ := h
  refine (trim_isInfix back).trans (List.IsInfix.trans ⟨front ++ [':'], [], ?_⟩ (trim_isInfix line))
  rw [heq]
  simp

/-- Every item of a list is a part of it. -/
theorem infix_of_mem_splitList {value item : Str} (h : item ∈ splitList value) :
    item <:+: value := by
  obtain ⟨piece, hpiece, rfl⟩ := List.mem_map.mp (List.mem_of_mem_filter h)
  exact (trim_isInfix piece).trans (infix_of_mem_splitOnP hpiece)

/-- No part of a heading of the glossary spells a marker. -/
theorem not_spells_of_isConditionHeading (hA : U.FollowsAscii) {text name piece : Str}
    (h : isConditionHeading U name = true) (hpiece : piece ∈ behindSeparator name) :
    ¬ SpellsName U text piece ∧ ¬ SpellsTrait U text piece := by
  have hpart : piece <:+: name := by
    have hmem : piece ∈ split blockSeparator name := by
      rw [split_blockSeparator]
      exact List.mem_cons_of_mem _ hpiece
    exact infix_of_mem_split (by decide) hmem
  constructor
  · rintro ⟨value, hlabel, hmarker⟩
    exact not_isMarkerOf_of_isConditionHeading hA h (hlabel.value_isInfix.trans hpart) hmarker
  · rintro ⟨value, hlabel, item, hitem, hmarker⟩
    exact not_isMarkerOf_of_isConditionHeading hA h
      (((infix_of_mem_splitList hitem).trans hlabel.value_isInfix).trans hpart) hmarker

/-- The lines of the glossary are solid. -/
theorem isSolid_of_mem_glossaryLines {text line : Str} (h : line ∈ glossaryLines text) :
    IsSolid line := by
  obtain ⟨htail, hvisible⟩ := List.mem_filter.mp h
  have hpage : line ∈ (lines text).map trim :=
    (List.dropWhile_sublist _).subset (List.mem_of_mem_tail htail)
  refine ⟨isTrimmed_of_mem hpage, ?_⟩
  rintro rfl
  exact absurd hvisible (by decide)

/-- The description of a condition is written with its lines joined by spaces. -/
theorem laterTexts_condition {text heading : Str} {before rest : List Str}
    (h : glossaryLines text = before ++ heading :: rest) :
    (RawConditionEntry.parts ⟨heading, descriptionOf U rest⟩).laterTexts =
      [[' '].intercalate (descriptionOf U rest)] := by
  have hsolid : ∀ line ∈ descriptionOf U rest, IsSolid line := by
    intro line hline
    have hrest : line ∈ rest := (List.takeWhile_sublist _).subset hline
    have hmem : line ∈ glossaryLines text := by
      rw [h]
      exact List.mem_append_right _ (List.mem_cons_of_mem _ hrest)
    exact isSolid_of_mem_glossaryLines hmem
  have htrim : trim ([' '].intercalate (descriptionOf U rest)) =
      [' '].intercalate (descriptionOf U rest) := by
    rcases eq_or_ne (descriptionOf U rest) [] with hnil | hne
    · simp [hnil, trim]
    · exact (isSolid_intercalate _ hne hsolid).trim_eq
  have heffect : ∀ effect : Str,
      [' '].intercalate ([effect].filter fun effect => !effect.isEmpty) = effect := by
    intro effect
    cases effect <;> simp
  have hread := heffect (trim ([' '].intercalate (descriptionOf U rest)))
  exact congrArg (fun effect => [effect]) (hread.trans htrim)

/-- No level marker of the page comes out of its conditions exactly if no text behind a separator in
a description spells one. -/
theorem condition_markers_hidden_iff (hA : U.FollowsAscii) (fresh : ℕ → Uuid) (text : Str) :
    MarkersHidden U fresh text (convertConditionPage U text) ↔
      ∀ before heading rest, glossaryLines text = before ++ heading :: rest →
        isConditionHeading U heading = true →
          ∀ piece ∈ behindSeparator ([' '].intercalate (descriptionOf U rest)),
            ¬ SpellsName U text piece ∧ ¬ SpellsTrait U text piece := by
  rw [convertConditionPage, markersHidden_joined_iff hA, List.forall_mem_map,
    forall_splitConditionEntries_iff]
  refine forall₃_congr fun before heading rest => forall₂_congr fun hlines hheading => ?_
  have honLines := (forall_splitConditionEntries_iff text).mp
    (onLines_of_mem_splitConditionEntries (U := U) text) before heading rest hlines hheading
  have hname := fun piece => @not_spells_of_isConditionHeading U hA text heading piece hheading
  have hdash : '-' ∉ "Condition".toList := by decide
  rw [← RawConditionEntry.block_parts, (honLines.wellFormed_parts hA).hidesMarkers_iff hA hdash,
    laterTexts_condition hlines]
  have hnil : behindSeparator [] = [] := by decide
  have hlist : splitList (upToSeparator []) = [] := by decide
  constructor
  · rintro ⟨-, htexts⟩ piece hpiece
    exact htexts.behind_texts _ (by simp) piece hpiece
  · intro h
    refine ⟨not_isMarkerOf_of_isConditionHeading hA hheading ?_, fun item hitem => ?_,
      fun piece hpiece => (hname piece hpiece).1, fun piece hpiece => (hname piece ?_).2,
      fun s hs piece hpiece => ?_⟩
    · exact (trim_isInfix _).trans (firstPiece_isPrefix (by decide) heading).isInfix
    · change item ∈ splitList (upToSeparator []) at hitem
      rw [hlist] at hitem
      exact absurd hitem List.not_mem_nil
    · rwa [if_pos (by rfl)] at hpiece
    · rcases List.mem_cons.mp hs with rfl | hs
      · change piece ∈ behindSeparator [] at hpiece
        rw [hnil] at hpiece
        exact absurd hpiece List.not_mem_nil
      · obtain rfl := List.mem_singleton.mp hs
        exact h piece hpiece

/-! ## The three converters -/

/-- For each converter, no level marker of a page comes out as a name or as a trait exactly if the
lines of the page do not bring one there. -/
theorem markers_hidden_iff (hU : U.KeepsSpacing) (hA : U.FollowsAscii) (fresh : ℕ → Uuid)
    (text : Str) :
    (MarkersHidden U fresh text (convertPage U text) ↔
      ∀ before heading rest, pageLines text = before ++ heading :: rest →
        ∀ name, IsActionHeading U heading name →
          HidesMarkers U text name (openingTrait U (actionPreface U rest))
            (actionTexts U (actionPreface U rest))) ∧
    (MarkersHidden U fresh text (convertFeatPage U text) ↔
      ∃ feats, IsFeatPage U (pageLines text) feats ∧ ∀ feat ∈ feats,
        HidesMarkers U text feat.nameLine ((feat.traitLines U).map U.toLowercase).eraseDups
          [[' '].intercalate (visibleLines feat.bodyLines)]) ∧
    (MarkersHidden U fresh text (convertConditionPage U text) ↔
      ∀ before heading rest, glossaryLines text = before ++ heading :: rest →
        isConditionHeading U heading = true →
          ∀ piece ∈ behindSeparator ([' '].intercalate (descriptionOf U rest)),
            ¬ SpellsName U text piece ∧ ¬ SpellsTrait U text piece) := by
  refine ⟨action_markers_hidden_iff hU hA fresh text, ⟨fun h => ?_, ?_⟩,
    condition_markers_hidden_iff hA fresh text⟩
  · obtain ⟨feats, hfeats⟩ := exists_isFeatPage U (pageLines text)
    exact ⟨feats, hfeats, (feat_markers_hidden_iff hU hA fresh hfeats).mp h⟩
  · rintro ⟨feats, hfeats, h⟩
    exact (feat_markers_hidden_iff hU hA fresh hfeats).mpr h

/-- The line is spelled as usual: ASCII characters, single spaces, and no comma. -/
def IsPlainLine (line : Str) : Prop :=
  (∀ c ∈ line, c.toNat < 128) ∧ line = [' '].intercalate (splitWhitespace line) ∧ ',' ∉ line

instance (line : Str) : Decidable (IsPlainLine line) :=
  decidable_of_iff ((line.all fun c => decide (c.toNat < 128)) = true ∧
    line = [' '].intercalate (splitWhitespace line) ∧ ',' ∉ line)
    (and_congr_left' List.all_iff_forall_prop)

/-- A feat whose heading lines are spelled as usual hides the markers of the page, if there is no
separator in it. -/
theorem FeatLines.hidesMarkers_of_plain (hU : U.KeepsSpacing) (hA : U.FollowsAscii) (text : Str)
    {feat : FeatLines} (hname : isHeadingLine U feat.nameLine = true)
    (hsolid : ∀ line ∈ feat.lines, IsTrimmed line ∧ ¬ HasSeparator line)
    (hplain : ∀ line ∈ feat.lines, isHeadingLine U line = true → IsPlainLine line) :
    HidesMarkers U text feat.nameLine ((feat.traitLines U).map U.toLowercase).eraseDups
      [[' '].intercalate (visibleLines feat.bodyLines)] := by
  have hfirst : feat.nameLine ∈ feat.lines := List.mem_cons_self
  obtain ⟨hascii, hspaced, -⟩ := hplain _ hfirst hname
  have htrait : ∀ word ∈ ((feat.traitLines U).map U.toLowercase).eraseDups,
      ∃ line ∈ feat.lines, isHeadingLine U line = true ∧ word = U.toLowercase line := by
    intro word hword
    obtain ⟨line, hline, rfl⟩ := List.mem_map.mp (List.mem_eraseDups.mp hword)
    obtain ⟨hmem, hheading⟩ := List.mem_filter.mp hline
    exact ⟨line, List.mem_cons_of_mem _ (List.mem_append_left _ hmem), hheading, rfl⟩
  have hline : ∀ line ∈ feat.lines, isHeadingLine U line = true → IsSolid line := by
    refine fun line hmem hheading => ⟨(hsolid line hmem).1, ?_⟩
    rintro rfl
    simp [isHeadingLine, isShouty] at hheading
  generalize ((feat.traitLines U).map U.toLowercase).eraseDups = words at htrait ⊢
  -- without a separator, there is nothing behind one
  have hnone : ∀ s : Str, ¬ HasSeparator s → behindSeparator s = [] := fun s hs =>
    (pieces_of_unmatched hs).2
  have hnameClean : behindSeparator (titleCase U feat.nameLine) = [] :=
    hnone _ fun hsep => (hsolid _ hfirst).2 (hasSeparator_of_titleCase hU hA hsep)
  have hwords : ¬ HasSeparator (", ".toList.intercalate words) := by
    rw [hasSeparator_intercalate_iff (by decide) (by decide)]
    rintro ⟨word, hword, hsep⟩
    obtain ⟨line, hmem, -, rfl⟩ := htrait word hword
    exact (hsolid line hmem).2 ((hasSeparator_toLowercase_iff hU hA.keepsHyphens line).mp hsep)
  have hbody : ¬ HasSeparator ([' '].intercalate (visibleLines feat.bodyLines)) := by
    rw [hasSeparator_intercalate_iff (by decide) (by decide)]
    rintro ⟨line, hmem, hsep⟩
    exact (hsolid line (List.mem_cons_of_mem _ (List.mem_append_right _
      (List.mem_of_mem_filter hmem)))).2 hsep
  have htrimmed : IsTrimmed (", ".toList.intercalate words) := by
    rcases eq_or_ne words [] with rfl | hne
    · exact isTrimmed_trim []
    · refine (isSolid_intercalate _ hne fun word hword => ?_).toIsTrimmed
      obtain ⟨line, hmem, hheading, rfl⟩ := htrait word hword
      exact hU.isSolid_toLowercase (hline line hmem hheading)
  refine ⟨fun hspells => ?_, fun item hitem hmarker => ?_, ?_, ?_, ?_⟩
  · rw [(pieces_of_not_hasSeparator (hsolid _ hfirst).1 (hsolid _ hfirst).2).1] at hspells
    exact hspells.spaced_oddly hA hascii hname hspaced
  · rw [(pieces_of_not_hasSeparator htrimmed hwords).1, splitList_joined] at hitem
    obtain ⟨word, hword, hin⟩ := List.mem_flatMap.mp hitem
    obtain ⟨line, hmem, hheading, rfl⟩ := htrait word hword
    obtain ⟨hplainAscii, -, hcomma⟩ := hplain line hmem hheading
    exact hcomma (comma_mem_of_isMarkerOf hU hA (hline line hmem hheading) hplainAscii hheading hin
      hmarker)
  · simp [hnameClean]
  · simp [hnameClean]
  · rintro s hs piece hpiece
    rcases List.mem_cons.mp hs with rfl | hs
    · rw [hnone _ hwords] at hpiece
      exact absurd hpiece List.not_mem_nil
    · obtain rfl := List.mem_singleton.mp hs
      rw [hnone _ hbody] at hpiece
      exact absurd hpiece List.not_mem_nil

/-- On a page whose heading lines are spelled as usual, no level marker comes out of the feats, if
there is no separator on the page. -/
theorem feat_markers_hidden (hU : U.KeepsSpacing) (hA : U.FollowsAscii) (fresh : ℕ → Uuid)
    {text : Str} (hclean : ¬ HasSeparator text)
    (hplain : ∀ line ∈ pageLines text, isHeadingLine U line = true → IsPlainLine line) :
    MarkersHidden U fresh text (convertFeatPage U text) := by
  obtain ⟨feats, hfeats⟩ := exists_isFeatPage U (pageLines text)
  refine (feat_markers_hidden_iff hU hA fresh hfeats).mpr fun feat hfeat => ?_
  obtain ⟨hname, hlines⟩ := hfeats.mem_lines feat hfeat
  exact FeatLines.hidesMarkers_of_plain hU hA text hname
    (fun line hline => ⟨isTrimmed_of_mem (hlines line hline),
      not_hasSeparator_of_mem_lines hclean line (hlines line hline)⟩)
    fun line hline => hplain line (hlines line hline)

/-- The page of a feat with an action cost. -/
def dualFeatPage : Str := "COMBAT ASSESSMENT [one-action]\n\nFEAT 1\n\nFIGHTER\n\nGo on.".toList

/-- The level marker of the page is a marker. -/
theorem isMarkerOf_dualFeatPage : IsMarkerOf dualFeatPage "feat 1".toList :=
  ⟨"FEAT 1".toList, by decide +kernel, ⟨"FEAT 1".toList, by decide, by decide⟩, by decide⟩

/-- The level of a feat with an action cost is read as a trait of the action. -/
theorem markers_not_hidden :
    ¬ ∀ (fresh : ℕ → Uuid) (text : Str),
      MarkersHidden .ascii fresh text (convertPage .ascii text) ∧
      MarkersHidden .ascii fresh text (convertFeatPage .ascii text) ∧
      MarkersHidden .ascii fresh text (convertConditionPage .ascii text) := by
  intro h
  obtain ⟨hactions, -, -⟩ := h (fun _ => 0) dualFeatPage
  have htraits : ((parseCandidates .ascii (fun _ => 0) (convertPage .ascii dualFeatPage))).map
      Candidate.traits = [["feat 1".toList]] := by decide +kernel
  obtain ⟨candidate, hcandidate, heq⟩ := List.mem_map.mp
    (htraits ▸ List.mem_singleton_self (["feat 1".toList] : List Str))
  refine hactions candidate hcandidate (Or.inr ⟨"feat 1".toList, ?_, isMarkerOf_dualFeatPage⟩)
  rw [heq]
  exact List.mem_singleton_self _

/-- The two feats of the page, by their lines. -/
def twoFeatLines : List FeatLines :=
  [⟨"SUDDEN CHARGE".toList, ["FEAT 1".toList, [], "FIGHTER".toList, []], ["Go on.".toList, []]⟩,
    ⟨"POWER ATTACK".toList, ["FEAT 1".toList, []], ["Stop.".toList]⟩]

/-- The page is cut into the two feats. -/
theorem isFeatPage_twoFeatLines :
    IsFeatPage .ascii (pageLines pageWithTwoFeats) twoFeatLines := by
  have hfirst : IsHeading .ascii "SUDDEN CHARGE".toList
      ["FEAT 1".toList, [], "FIGHTER".toList, []]
      (["Go on.".toList, []] ++ ["POWER ATTACK".toList, "FEAT 1".toList, [], "Stop.".toList]) :=
    ⟨by decide, isScanned_of_prose (by decide) (by decide) (by decide) _, by decide⟩
  have hsecond : IsHeading .ascii "POWER ATTACK".toList ["FEAT 1".toList, []]
      (["Stop.".toList] ++ []) :=
    ⟨by decide, isScanned_of_prose (by decide) (by decide) (by decide) _, by decide⟩
  have hpage : pageLines pageWithTwoFeats =
      [] ++ (twoFeatLines.map FeatLines.lines).flatten ++ [] := by decide +kernel
  refine ⟨[], _, hpage.trans (List.append_assoc _ _ _), noHeadingIn_of_forall (by simp) _, ?_⟩
  exact .cons hfirst (noHeadingIn_of_forall (by decide) _)
    (.cons hsecond (noHeadingIn_of_forall (by decide) _) .nil)

/-- With the ASCII tables, the levels of two feats do not come out, and the level of a feat with an
action cost is read as a trait of the action. -/
theorem markers_hidden_examples :
    (IsMarkerOf pageWithTwoFeats "feat 1".toList ∧
      splitFeatEntries .ascii pageWithTwoFeats = twoFeats ∧
        MarkersHidden .ascii (fun _ => 0) pageWithTwoFeats
          (convertFeatPage .ascii pageWithTwoFeats)) ∧
      ¬ MarkersHidden .ascii (fun _ => 0) dualFeatPage (convertPage .ascii dualFeatPage) := by
  refine ⟨⟨⟨"FEAT 1".toList, by decide +kernel, ⟨"FEAT 1".toList, by decide, by decide⟩,
    by decide⟩, ?_, ?_⟩, fun hhidden => ?_⟩
  · exact (splitFeatEntries_of_isFeatPage isFeatPage_twoFeatLines).trans (by decide)
  · refine (markers_hidden_iff CaseTables.ascii_keepsSpacing CaseTables.ascii_followsAscii
      (fun _ => 0) pageWithTwoFeats).2.1.mpr
        ⟨twoFeatLines, isFeatPage_twoFeatLines, fun feat hfeat => ?_⟩
    have hpage : pageLines pageWithTwoFeats = ["SUDDEN CHARGE".toList, "FEAT 1".toList, [],
        "FIGHTER".toList, [], "Go on.".toList, [], "POWER ATTACK".toList, "FEAT 1".toList, [],
          "Stop.".toList] := by decide +kernel
    have hclean : ∀ line ∈ pageLines pageWithTwoFeats, ¬ HasSeparator line := by
      rw [hpage]
      unfold HasSeparator
      decide
    have hplain : ∀ line ∈ pageLines pageWithTwoFeats, isHeadingLine .ascii line = true →
        IsPlainLine line := by
      rw [hpage]
      decide
    obtain ⟨hname, hlines⟩ := isFeatPage_twoFeatLines.mem_lines feat hfeat
    exact FeatLines.hidesMarkers_of_plain CaseTables.ascii_keepsSpacing
      CaseTables.ascii_followsAscii pageWithTwoFeats hname
      (fun line hline => ⟨isTrimmed_of_mem (hlines line hline), hclean line (hlines line hline)⟩)
      fun line hline => hplain line (hlines line hline)
  · have hactions := (markers_hidden_iff CaseTables.ascii_keepsSpacing
      CaseTables.ascii_followsAscii (fun _ => 0) dualFeatPage).1.mp hhidden
    have hheading : IsActionHeading .ascii "COMBAT ASSESSMENT [one-action]".toList
        "COMBAT ASSESSMENT ".toList := ⟨_, List.mem_cons_self, by decide, by decide⟩
    have hhides := hactions [] _ _ (by decide +kernel :
      pageLines dualFeatPage = [] ++ "COMBAT ASSESSMENT [one-action]".toList ::
        [[], "FEAT 1".toList, [], "FIGHTER".toList, [], "Go on.".toList]) _ hheading
    exact hhides.2.in_traits "feat 1".toList (by decide) isMarkerOf_dualFeatPage

end Pf2eParser
