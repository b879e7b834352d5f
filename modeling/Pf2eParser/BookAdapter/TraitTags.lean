import Pf2eParser.BookAdapter.Clauses

/-!
# The trait tags of actions

The book sets the traits of an action as tags, each on a line of its own, between the heading and a
blank line.  The lines are one paragraph, and the paragraph is read as one trait, or as the start of
the effect if it has more than two words.  So the tags are kept exactly when there is a single one
(`tags_kept_iff`).
-/

namespace Pf2eParser

open Text

variable {U : CaseTables}

variable (U) in
/-- The text of an action: trait tags, a blank line, and text that has something for the effect. -/
structure TagLayout where
  tags : List Str
  body : List Str
  tags_ne : tags ≠ []
  /-- Each tag is a single word in capitals. -/
  tags_spec : ∀ tag ∈ tags, isShouty U tag = true ∧ ',' ∉ tag ∧ (splitWhitespace tag).length = 1
  /-- The text behind the blank line is more than clauses. -/
  body_ne : effectTexts (laterRoles U (groupParagraphs body)) ≠ []

namespace TagLayout

variable (layout : TagLayout U)

/-- The lines of the text. -/
def bodyLines : List Str := layout.tags ++ [] :: layout.body

/-- The paragraph of the tags. -/
def tagParagraph : Str := [' '].intercalate layout.tags

/-- What the text behind the blank line says, apart from its clauses. -/
def effectText : Str := [' '].intercalate (effectTexts (laterRoles U (groupParagraphs layout.body)))

/-- The tags are not blank. -/
theorem ne_nil_of_mem_tags : ∀ tag ∈ layout.tags, tag ≠ [] := by
  rintro tag htag rfl
  obtain ⟨-, -, hword⟩ := layout.tags_spec [] htag
  exact absurd hword (by decide)

/-- The tags are one paragraph in front of the others. -/
theorem groupParagraphs_bodyLines :
    groupParagraphs layout.bodyLines = layout.tagParagraph :: groupParagraphs layout.body := by
  rw [bodyLines, groupParagraphs_append_blank,
    groupParagraphs_run layout.tags_ne layout.ne_nil_of_mem_tags]
  rfl

/-- The paragraph of the tags has as many words as there are tags. -/
theorem length_splitWhitespace_tagParagraph :
    (splitWhitespace layout.tagParagraph).length = layout.tags.length := by
  have hone : layout.tags.map (fun tag => (splitWhitespace tag).length) =
      layout.tags.map fun _ => 1 :=
    List.map_congr_left fun tag htag => (layout.tags_spec tag htag).2.2
  rw [tagParagraph, splitWhitespace_intercalate, List.length_flatMap, hone]
  simp

/-- The paragraph of the tags has no comma. -/
theorem comma_notMem_tagParagraph : ',' ∉ layout.tagParagraph := by
  intro hmem
  rcases mem_of_mem_intercalate hmem with hspace | ⟨tag, htag, hcomma⟩
  · exact absurd hspace (by decide)
  · exact (layout.tags_spec tag htag).2.1 hcomma

/-- The paragraph of the tags is in capitals. -/
theorem isShouty_tagParagraph (hA : U.FollowsAscii) : isShouty U layout.tagParagraph = true := by
  have hspace : U.isAlphabetic ' ' = false := (hA.isAlphabetic ' ' (by decide)).trans (by decide)
  obtain ⟨first, rest, htags⟩ := List.exists_cons_of_ne_nil layout.tags_ne
  simp only [isShouty, Bool.and_eq_true, List.any_eq_true, List.all_eq_true, List.mem_filter,
    and_imp]
  constructor
  · have hfirst := (layout.tags_spec first (by simp [htags])).1
    simp only [isShouty, Bool.and_eq_true, List.any_eq_true] at hfirst
    obtain ⟨⟨c, hc, hletter⟩, -⟩ := hfirst
    refine ⟨c, ?_, hletter⟩
    rw [tagParagraph, htags]
    cases rest with
    | nil => simpa using hc
    | cons second rest => simp [List.intercalate_cons_cons, hc]
  · intro c hc hletter
    rcases mem_of_mem_intercalate hc with hjoint | ⟨tag, htag, hmem⟩
    · rw [List.mem_singleton.mp hjoint, hspace] at hletter
      exact absurd hletter (by decide)
    · have htagShouty := (layout.tags_spec tag htag).1
      simp only [isShouty, Bool.and_eq_true, List.all_eq_true, List.mem_filter, and_imp]
        at htagShouty
      exact htagShouty.2 c hmem hletter

/-- Up to two tags are one trait, and more of them are prose. -/
theorem paragraphRole_tagParagraph (hA : U.FollowsAscii) :
    paragraphRole U 0 layout.tagParagraph =
      if layout.tags.length ≤ 2 then .traitWord else .prose := by
  have hshouty := layout.isShouty_tagParagraph hA
  have hwords := layout.length_splitWhitespace_tagParagraph
  by_cases hfew : layout.tags.length ≤ 2
  · rw [if_pos hfew, paragraphRole, if_pos ⟨rfl, hshouty, by omega⟩]
  · have hnone : ∀ label : BookLabel, extractBookLabel layout.tagParagraph label.word = none := by
      refine fun label => extractBookLabel_eq_none ?_
      rintro ⟨rest, heq⟩
      rw [← heq, ← List.nil_append (label.word ++ [' '] ++ rest), List.append_assoc label.word,
        isShouty_word hA] at hshouty
      exact absurd hshouty (by decide)
    rw [if_neg hfew, paragraphRole, if_neg fun h => hfew (hwords ▸ h.2.2)]
    simp only [hnone]

/-- The roles of the paragraphs. -/
theorem paragraphRoles_bodyLines (hA : U.FollowsAscii) :
    paragraphRoles U (groupParagraphs layout.bodyLines) =
      (layout.tagParagraph, if layout.tags.length ≤ 2 then .traitWord else .prose) ::
        laterRoles U (groupParagraphs layout.body) := by
  rw [groupParagraphs_bodyLines, paragraphRoles_cons, paragraphRole_tagParagraph layout hA]

end TagLayout

/-! ## The candidate of the action -/

section Entry

variable {layout : TagLayout U} {entry : RawEntry}

/-- Up to two tags are rendered as one trait, and more of them open the effect. -/
theorem TagLayout.parts_eq (hA : U.FollowsAscii) (hbody : entry.bodyLines = layout.bodyLines) :
    ((entry.parts U).traits =
        if layout.tags.length ≤ 2 then [U.toLowercase layout.tagParagraph] else []) ∧
      (entry.parts U).effectParts =
        (if layout.tags.length ≤ 2 then [] else [layout.tagParagraph]) ++
          effectTexts (laterRoles U (groupParagraphs layout.body)) := by
  have hread := readParagraphs_eq (U := U) (groupParagraphs entry.bodyLines)
  rw [hbody, layout.paragraphRoles_bodyLines hA, ← hbody] at hread
  have hnone := @traitParagraphs_laterRoles U (groupParagraphs layout.body)
  refine ⟨(congrArg BlockParts.traits hread).trans ?_,
    (congrArg BlockParts.effectParts hread).trans ?_⟩
  · split
    case isTrue => rw [traitParagraphs_cons_traitWord, hnone]; rfl
    case isFalse => exact congrArg (List.map U.toLowercase) hnone
  · split
    case isTrue => rfl
    case isFalse => exact effectTexts_cons_prose _ _

/-- The effect of the rendered action is not empty. -/
theorem TagLayout.effectParts_ne_nil (hA : U.FollowsAscii)
    (hbody : entry.bodyLines = layout.bodyLines) : (entry.parts U).effectParts ≠ [] := by
  rw [(TagLayout.parts_eq hA hbody).2]
  exact List.append_ne_nil_of_right_ne_nil _ layout.body_ne

/-- However many tags there are, no more than one trait is read. -/
theorem TagLayout.length_traits_le (hA : U.FollowsAscii)
    (hbody : entry.bodyLines = layout.bodyLines) :
    (splitList (", ".toList.intercalate (entry.parts U).traits)).length ≤ 1 := by
  have hcomma : ',' ∉ U.toLowercase layout.tagParagraph := fun hmem =>
    layout.comma_notMem_tagParagraph
      ((hA.mem_toLowercase_iff (by decide) (by decide) _).mp hmem)
  rw [(TagLayout.parts_eq hA hbody).1]
  split
  case isTrue =>
    rw [List.intercalate_singleton, splitList, List.splitOn_eq_singleton hcomma]
    exact (List.length_filter_le _ _).trans (by simp)
  case isFalse => exact Nat.zero_le 1

/-- A single tag is the trait, and the effect is what stands behind it. -/
theorem TagLayout.parts_of_single (hU : U.KeepsSpacing) (hA : U.FollowsAscii)
    (hwell : entry.WellFormed) (hbody : entry.bodyLines = layout.bodyLines)
    (hone : layout.tags.length = 1) :
    splitList (", ".toList.intercalate (entry.parts U).traits) = layout.tags.map U.toLowercase ∧
      [' '].intercalate (entry.parts U).effectParts = layout.effectText := by
  obtain ⟨htraits, heffect⟩ := TagLayout.parts_eq hA hbody
  obtain ⟨tag, htag⟩ := List.length_eq_one_iff.mp hone
  have hparagraph : layout.tagParagraph = tag := by
    rw [TagLayout.tagParagraph, htag, List.intercalate_singleton]
  have hmem : tag ∈ layout.tags := by simp [htag]
  have hsolid : IsSolid tag := ⟨hwell.bodyLines tag (by simp [hbody, TagLayout.bodyLines, hmem]),
    layout.ne_nil_of_mem_tags tag hmem⟩
  rw [htraits, heffect, if_pos (by omega), if_pos (by omega), hparagraph, htag]
  refine ⟨splitList_intercalate ?_ ?_, rfl⟩
  · exact List.forall_mem_singleton.mpr (hU.isSolid_toLowercase hsolid)
  · refine List.forall_mem_singleton.mpr fun hcomma => (layout.tags_spec tag hmem).2.1 ?_
    exact (hA.mem_toLowercase_iff (by decide) (by decide) _).mp hcomma

end Entry

/-- The traits of an action are its tags, and its effect is the text behind them, exactly if there
is a single tag and nothing cuts the block. -/
theorem tags_kept_iff (hU : U.KeepsSpacing) (hA : U.FollowsAscii) (fresh : ℕ → Uuid)
    (layout : TagLayout U) {text name ruleTypeLabel : Str} {before after : List RawEntry}
    (hpage : splitEntries U text = before ++ ⟨name, ruleTypeLabel, layout.bodyLines⟩ :: after) :
    (∃ candidate, (parseCandidates U fresh (convertPage U text)).map Candidate.anonymous =
        candidatesOf U before ++ candidate :: candidatesOf U after ∧
      candidate.traits = layout.tags.map U.toLowercase ∧
      candidate.effect = some layout.effectText) ↔
    layout.tags.length = 1 ∧
      ¬ (⟨name, ruleTypeLabel, layout.bodyLines⟩ : RawEntry).RendersSeparator U := by
  set entry : RawEntry := ⟨name, ruleTypeLabel, layout.bodyLines⟩ with hentry
  have hmem : entry ∈ splitEntries U text := by simp [hpage]
  have hwell := wellFormed_of_mem_splitEntries hU text entry hmem
  obtain ⟨ruleType, -, hparts⟩ :=
    (onLines_of_mem_splitEntries hU text entry hmem).wellFormed_parts hU hA
  have hdash : '-' ∉ (entry.parts U).typeLine := (ruleTypeLabel_spec hwell.ruleTypeLabel).2
  have heffect : (entry.parts U).effectParts ≠ [] := TagLayout.effectParts_ne_nil hA rfl
  rw [anonymous_parseCandidates_convertPage fresh hpage,
    ← hasSeparator_renderBlock_iff hU hA.keepsHyphens hwell]
  constructor
  · rintro ⟨candidate, hlist, htraits, hcandidateEffect⟩
    rw [List.append_cancel_left_eq, ← List.singleton_append, List.append_cancel_right_eq,
      List.map_eq_singleton_iff, ← RawEntry.block_parts] at hlist
    obtain ⟨piece, hpiece, rfl⟩ := hlist
    have hkept := hparts.traits_of_sourceBlocks_eq hA hdash heffect hpiece 0
    have hone : layout.tags.length = 1 := by
      have hle := @TagLayout.length_traits_le U layout entry hA rfl
      rw [← hkept, htraits, List.length_map] at hle
      have hpos := List.length_pos_iff.mpr layout.tags_ne
      omega
    obtain ⟨-, -, effect, heffectEq, hwhole⟩ :=
      hparts.of_sourceBlocks_eq hA hdash heffect hpiece 0
    rw [(TagLayout.parts_of_single hU hA hwell rfl hone).2, RawEntry.block_parts] at hwhole
    rw [heffectEq, Option.some.injEq] at hcandidateEffect
    exact ⟨hone, hwhole.mp hcandidateEffect⟩
  · rintro ⟨hone, hclean⟩
    obtain ⟨htraits, hprose⟩ := @TagLayout.parts_of_single U layout entry hU hA hwell rfl hone
    refine ⟨(entry.parts U).candidate ruleType 0, ?_, htraits, ?_⟩
    · rw [sourceBlocks_eq_singleton (isSolid_renderBlock hU hwell) hclean, List.map_singleton,
        ← RawEntry.block_parts, hparts.parseBlock_eq hA, List.singleton_append]
    · rw [RenderedParts.candidate, if_neg heffect, hprose]

/-- An action with these tags and one line of prose. -/
def taggedStep (tags : List Str) (hne : tags ≠ []) (hspec : ∀ tag ∈ tags,
    isShouty .ascii tag = true ∧ ',' ∉ tag ∧ (splitWhitespace tag).length = 1) :
    TagLayout .ascii where
  tags := tags
  body := ["Go on.".toList]
  tags_ne := hne
  tags_spec := hspec
  body_ne := by decide

/-- Two tags are read as one trait. -/
theorem tags_not_kept :
    ¬ ∀ (fresh : ℕ → Uuid) (layout : TagLayout .ascii) (text name ruleTypeLabel : Str)
      (before after : List RawEntry),
      splitEntries .ascii text = before ++ ⟨name, ruleTypeLabel, layout.bodyLines⟩ :: after →
      ∃ candidate,
        (parseCandidates .ascii fresh (convertPage .ascii text)).map Candidate.anonymous =
          candidatesOf .ascii before ++ candidate :: candidatesOf .ascii after ∧
        candidate.traits = layout.tags.map (CaseTables.toLowercase .ascii) ∧
        candidate.effect = some layout.effectText := by
  intro h
  obtain ⟨candidate, hlist, htraits, -⟩ := h (fun _ => 0)
    (taggedStep ["MOVE".toList, "SKILL".toList] (by decide)
      (List.all_iff_forall_prop.mp (by decide)))
    "STEP [one-action]\nMOVE\nSKILL\n\nGo on.".toList "Step".toList "Action".toList [] []
    (by decide +kernel)
  have hread : ((parseCandidates .ascii (fun _ => 0) (convertPage .ascii
      "STEP [one-action]\nMOVE\nSKILL\n\nGo on.".toList)).map Candidate.anonymous).map
      Candidate.traits = [["move skill".toList]] := by decide +kernel
  rw [hlist] at hread
  have hone : candidate.traits = ["move skill".toList] := (List.cons.inj hread).1
  rw [htraits] at hone
  exact absurd hone (by decide)

/-- With the ASCII tables, the second tag is what makes the difference. -/
theorem tags_kept_examples :
    ∃ candidate, (parseCandidates .ascii (fun _ => 0) (convertPage .ascii
        "STEP [one-action]\nMOVE\n\nGo on.".toList)).map Candidate.anonymous =
        candidatesOf .ascii [] ++ candidate :: candidatesOf .ascii [] ∧
      candidate.traits = ["move".toList] ∧ candidate.effect = some "Go on.".toList := by
  have hclean : ¬ (⟨"Step".toList, "Action".toList, ["MOVE".toList, [], "Go on.".toList]⟩ :
      RawEntry).RendersSeparator .ascii :=
    RawEntry.not_rendersSeparator (by decide) (List.all_iff_forall_prop.mp (by decide))
  exact (tags_kept_iff CaseTables.ascii_keepsSpacing CaseTables.ascii_followsAscii (fun _ => 0)
    (taggedStep ["MOVE".toList] (by decide) (List.all_iff_forall_prop.mp (by decide)))
    (by decide +kernel)).mpr ⟨rfl, hclean⟩

end Pf2eParser
