import Pf2eParser.BookAdapter.Headings
import Pf2eParser.BookAdapter.Rendered

/-!
# Pages of feats

The heading of a feat is a name line, followed by trait lines and level markers in any order; the
text of the feat is behind it.  `FeatLayout` is such a feat as it stands on a page, and
`feats_parsed` says that a page of such feats is parsed into exactly these feats, whatever is in
front of the first one.
-/

namespace Pf2eParser

open Text

variable {U : CaseTables}

/-! ## Traits -/

/-- The distinct traits are the lower-cased lines without repetitions, first occurrences first. -/
theorem distinctTraits_eq (traitLines : List Str) :
    distinctTraits U traitLines = (traitLines.map U.toLowercase).eraseDups := by
  induction traitLines using List.reverseRecOn with
  | nil => rfl
  | append_singleton traitLines line ih =>
    rw [distinctTraits] at ih ⊢
    rw [List.foldl_concat, ih, List.map_append, List.eraseDups_append, List.map_singleton]
    generalize traitLines.map U.toLowercase = words
    simp only [List.mem_eraseDups]
    split
    case isTrue hmem => simp [List.removeAll, hmem]
    case isFalse hmem => simp [List.removeAll, hmem, List.eraseDups_cons]

/-! ## Names -/

/-- A word in title case has the separator exactly when it has it anyway. -/
theorem hasSeparator_titleCaseWord_iff (hU : U.KeepsSpacing) (hA : U.FollowsAscii) (word : Str) :
    HasSeparator (titleCaseWord U word) ↔ HasSeparator word := by
  cases word with
  | nil => exact Iff.rfl
  | cons first rest =>
    have hH := hA.keepsHyphens
    by_cases hfirst : first = '-'
    · subst hfirst
      have hupper : U.upper '-' = ['-'] := hA.upper '-' (by decide)
      have hprefixed := hH.replicate_prefix_iff hU 2 [] rest
      rw [titleCaseWord, hupper, HasSeparator, HasSeparator, List.singleton_append,
        List.infix_cons_iff, List.infix_cons_iff]
      refine or_congr ?_ (hasSeparator_toLowercase_iff hU hH rest)
      exact List.cons_prefix_cons.trans ((and_congr_right fun _ => hprefixed).trans
        List.cons_prefix_cons.symm)
    · have hupper : '-' ∉ U.upper first := fun hmem =>
        hfirst (hA.eq_of_mem_upper first '-' hmem (by decide) (by decide))
      rw [titleCaseWord, hasSeparator_append_iff hupper, hasSeparator_toLowercase_iff hU hH,
        hasSeparator_cons_iff hfirst]

/-- A name in title case has the separator only if it has it anyway. -/
theorem hasSeparator_of_titleCase (hU : U.KeepsSpacing) (hA : U.FollowsAscii) {s : Str}
    (h : HasSeparator (titleCase U s)) : HasSeparator s := by
  obtain ⟨word, hword, hsep⟩ := (hasSeparator_intercalate_iff (by simp) (by decide) _).mp h
  obtain ⟨piece, hpiece, rfl⟩ := List.mem_map.mp hword
  have hoccurs : piece <:+: s := infix_of_mem_splitOnP (List.mem_of_mem_filter hpiece)
  exact ((hasSeparator_titleCaseWord_iff hU hA piece).mp hsep).trans hoccurs

/-! ## Feats on a page -/

/-- A feat as it stands on a page: a name line, trait lines and level markers in any order and with
any blank lines between them, and the text, from its first line that is not blank. -/
structure FeatLayout (U : CaseTables) where
  nameLine : Str
  heading : List Str
  proseLine : Str
  prose : List Str
  nameLine_spec : isHeadingLine U nameLine = true
  heading_spec : ∀ line ∈ heading, line = [] ∨ isFeatLevelMarker line = true ∨
    (isShouty U line = true ∧ ',' ∉ line)
  heading_marker : ∃ line ∈ heading, isFeatLevelMarker line = true
  /-- The name line is counted, too. -/
  heading_length : (heading.filter (isHeadingLine U)).length + 1 ≤ maxHeadingBlockLines
  proseLine_ne : proseLine ≠ []
  proseLine_spec : isShouty U proseLine = false
  prose_spec : ∀ line ∈ proseLine :: prose, isFeatLevelMarker line = false
  prose_end : ∀ line ∈ (visibleLines (proseLine :: prose)).getLast?, isShouty U line = false

namespace FeatLayout

/-- The lines of the feat. -/
def lines (feat : FeatLayout U) : List Str :=
  feat.nameLine :: (feat.heading ++ feat.proseLine :: feat.prose)

/-- The trait lines of the heading. -/
def traitLines (feat : FeatLayout U) : List Str := feat.heading.filter (isHeadingLine U)

/-- The visible lines of the text. -/
def bodyLines (feat : FeatLayout U) : List Str := visibleLines (feat.proseLine :: feat.prose)

/-- The feat that is meant. -/
def entry (feat : FeatLayout U) : RawFeatEntry where
  name := titleCase U feat.nameLine
  traits := (feat.traitLines.map U.toLowercase).eraseDups
  bodyLines := feat.bodyLines

/-- The candidate that is meant. -/
def candidate (feat : FeatLayout U) (candidateId : Uuid) : Candidate where
  candidateId := candidateId
  ruleType := .feat
  name := some (titleCase U feat.nameLine)
  traits := (feat.traitLines.map U.toLowercase).eraseDups
  trigger := none
  requirements := []
  effect := some ([' '].intercalate feat.bodyLines)
  prerequisites := []
  references := extractBracketedReferences (renderFeatBlock feat.entry)
  sourceText := renderFeatBlock feat.entry
  inferences := []
  confidence := baseConfidence

end FeatLayout

/-- Lines without level markers end in prose if the last one that is not blank is not shouty. -/
theorem endsInProse_of_not_shouty {ls : List Str}
    (hmarker : ∀ line ∈ ls, isFeatLevelMarker line = false)
    (hlast : ∀ line ∈ (visibleLines ls).getLast?, isShouty U line = false) : EndsInProse U ls := by
  intro line hline
  obtain ⟨hmem, hne⟩ := List.mem_filter.mp (List.mem_of_getLast? hline)
  simp [isRunLine, hmarker line hmem, hlast line hline, by simpa using hne]

/-- The lines of a feat are read as this feat. -/
theorem FeatLayout.featPiece (feat : FeatLayout U) : FeatPiece U feat.lines [] [feat.entry] := by
  have hrun : ∀ line ∈ feat.heading, isRunLine U line = true := by
    intro line hline
    rcases feat.heading_spec line hline with rfl | hmarker | ⟨hshouty, -⟩
    · rfl
    · simp [isRunLine, hmarker]
    · simp [isRunLine, hshouty]
  have hprose : isRunLine U feat.proseLine = false := by
    have hmarker := feat.prose_spec feat.proseLine (by simp)
    simp [isRunLine, feat.proseLine_ne, feat.proseLine_spec, hmarker]
  have hpiece := featPiece_heading feat.nameLine_spec hrun feat.heading_marker feat.heading_length
    hprose (endsInProse_of_not_shouty feat.prose_spec feat.prose_end) feat.prose_spec
  rwa [distinctTraits_eq] at hpiece

/-- The lines of feats one behind the other are read as these feats. -/
theorem featPiece_flatMap (feats : List (FeatLayout U)) :
    FeatPiece U (feats.flatMap FeatLayout.lines) [] (feats.map FeatLayout.entry) := by
  induction feats with
  | nil => exact featPiece_nil
  | cons feat feats ih => exact feat.featPiece.append_feats ih

/-- The visible lines of a text are one paragraph. -/
theorem groupParagraphs_visibleLines {ls : List Str} (h : visibleLines ls ≠ []) :
    groupParagraphs (visibleLines ls) = [[' '].intercalate (visibleLines ls)] :=
  groupParagraphs_run h fun _ hline => by simpa using (List.mem_filter.mp hline).2

/-- The block of a feat is parsed into the candidate that is meant. -/
theorem FeatLayout.parseBlock_eq (hA : U.FollowsAscii) (feat : FeatLayout U)
    (h : feat.entry.OnLines) (candidateId : Uuid) :
    parseBlock U candidateId (renderFeatBlock feat.entry) = feat.candidate candidateId := by
  have hbody : groupParagraphs feat.entry.bodyLines = [[' '].intercalate feat.bodyLines] := by
    apply groupParagraphs_visibleLines
    rw [visibleLines_cons feat.proseLine_ne]
    exact List.cons_ne_nil _ _
  have htraits : splitList (", ".toList.intercalate feat.entry.traits) = feat.entry.traits := by
    apply splitList_intercalate fun word hword => (h.traits word hword).toIsSolid
    intro word hword hcomma
    obtain ⟨line, hline, rfl⟩ := List.mem_map.mp (List.mem_eraseDups.mp hword)
    rw [hA.mem_toLowercase_iff (by decide) (by decide)] at hcomma
    obtain ⟨hmem, hheading⟩ := List.mem_filter.mp hline
    rcases feat.heading_spec line hmem with rfl | hmarker | ⟨-, hfree⟩
    · simp at hheading
    · simp [not_marker_of_isHeadingLine hheading] at hmarker
    · exact hfree hcomma
  rw [← RawFeatEntry.block_parts, (h.wellFormed_parts hA).parseBlock_eq hA, RenderedParts.candidate,
    RawFeatEntry.block_parts]
  simp only [RawFeatEntry.parts, htraits, hbody]
  rw [if_neg (List.cons_ne_nil _ _), List.intercalate_singleton]
  rfl

/-- The splitter finds the feats of a page, whatever is in front of the first one. -/
theorem splitFeatEntries_eq {preamble : List Str} {feats : List (FeatLayout U)} {text : Str}
    (hpage : (lines text).map trim = preamble ++ feats.flatMap FeatLayout.lines)
    (hmarker : ∀ line ∈ preamble, isFeatLevelMarker line = false)
    (hlast : ∀ line ∈ (visibleLines preamble).getLast?, isShouty U line = false) :
    splitFeatEntries U text = feats.map FeatLayout.entry := by
  have hpairs : preamble.Pairwise fun line later => ¬ (isHeadingLine U line = true ∧
      isFeatLevelMarker later = true) :=
    List.pairwise_of_forall_mem_list fun line _ later hlater => by simp [hmarker later hlater]
  have hpiece := (featPiece_body (endsInProse_of_not_shouty hmarker hlast) hpairs).append_feats
    (featPiece_flatMap feats)
  rw [splitFeatEntries, hpage, hpiece.splitFeatFrom_eq]
  rfl

/-- The block of a feat has no separator if its lines have none. -/
theorem FeatLayout.not_hasSeparator (hU : U.KeepsSpacing) (hA : U.FollowsAscii)
    (feat : FeatLayout U) (h : ∀ line ∈ feat.lines, ¬ HasSeparator line) :
    ¬ HasSeparator (renderFeatBlock feat.entry) := by
  intro hsep
  rcases (hasSeparator_renderFeatBlock_iff feat.entry).mp hsep with hsep | ⟨word, hword, hsep⟩ |
    ⟨line, hl, hsep⟩
  · exact h _ List.mem_cons_self (hasSeparator_of_titleCase hU hA hsep)
  · obtain ⟨line, hl, rfl⟩ := List.mem_map.mp (List.mem_eraseDups.mp hword)
    apply h line
    · exact List.mem_cons_of_mem _ (List.mem_append_left _ (List.mem_of_mem_filter hl))
    · exact (hasSeparator_toLowercase_iff hU hA.keepsHyphens line).mp hsep
  · apply h line _ hsep
    exact List.mem_cons_of_mem _ (List.mem_append_right _ (mem_of_mem_visibleLines hl))

/-- A page of feats is parsed into these feats, whatever is in front of the first one. -/
theorem feats_parsed (hU : U.KeepsSpacing) (hA : U.FollowsAscii) (fresh : ℕ → Uuid)
    {preamble : List Str} {feats : List (FeatLayout U)} {text : Str}
    (hpage : (lines text).map trim = preamble ++ feats.flatMap FeatLayout.lines)
    (hmarker : ∀ line ∈ preamble, isFeatLevelMarker line = false)
    (hlast : ∀ line ∈ (visibleLines preamble).getLast?, isShouty U line = false)
    (hclean : ¬ blockSeparator <:+: text) :
    parseCandidates U fresh (convertFeatPage U text) =
      feats.mapIdx fun i feat => feat.candidate (fresh i) := by
  have hentries := splitFeatEntries_eq hpage hmarker hlast
  have hmem : ∀ feat ∈ feats, ∀ line ∈ feat.lines, line ∈ (lines text).map trim := by
    intro feat hfeat line hl
    rw [hpage]
    exact List.mem_append_right _ (List.mem_flatMap_of_mem hfeat hl)
  have hentry : ∀ feat ∈ feats, feat.entry ∈ splitFeatEntries U text := fun feat hfeat =>
    hentries ▸ List.mem_map_of_mem hfeat
  rw [convertFeatPage, hentries, List.map_map]
  refine parseCandidates_joined fresh (fun feat hfeat => ?_) (fun feat hfeat => ?_)
    fun feat hfeat id => ?_
  · exact isSolid_renderFeatBlock (wellFormed_of_mem_splitFeatEntries hU text _ (hentry feat hfeat))
  · exact feat.not_hasSeparator hU hA fun line hl =>
      not_hasSeparator_of_mem_lines hclean line (hmem feat hfeat line hl)
  · exact feat.parseBlock_eq hA
      (onLines_of_mem_splitFeatEntries hU hA text _ (hentry feat hfeat)) id

/-- A feat with a repeated trait, and with a shouty line in its text. -/
def additionalLore : FeatLayout .ascii where
  nameLine := "ADDITIONAL LORE".toList
  heading := ["GENERAL".toList, [], "FEAT 1".toList, "SKILL".toList, "FEAT 1".toList,
    "GENERAL".toList, []]
  proseLine := "Your knowledge expands.".toList
  prose := ["SPECIAL".toList, [], "Choose a Lore skill.".toList]
  nameLine_spec := by decide
  heading_spec := List.all_iff_forall_prop.mp (by decide)
  heading_marker := ⟨"FEAT 1".toList, by simp, by decide⟩
  heading_length := by decide
  proseLine_ne := by decide
  proseLine_spec := by decide
  prose_spec := List.all_iff_forall_prop.mp (by decide)
  prose_end := by decide

/-- A page with this feat behind a page header. -/
def pageOfFeats : Str :=
  ("SKILLS & FEATS\n5\nADDITIONAL LORE\nGENERAL\n\nFEAT 1\nSKILL\nFEAT 1\nGENERAL\n\n" ++
    "Your knowledge expands.\nSPECIAL\n\nChoose a Lore skill.\n").toList

/-- With the ASCII tables, the page is parsed into this feat. -/
theorem feats_parsed_example :
    parseCandidates .ascii (fun _ => 0) (convertFeatPage .ascii pageOfFeats) =
      [additionalLore.candidate 0] := by
  have hpage : (lines pageOfFeats).map trim = ["SKILLS & FEATS".toList, "5".toList] ++
      [additionalLore].flatMap FeatLayout.lines := by decide +kernel
  have hdash : '-' ∉ pageOfFeats := by decide +kernel
  exact feats_parsed CaseTables.ascii_keepsSpacing CaseTables.ascii_followsAscii (fun _ => 0) hpage
    (List.all_iff_forall_prop.mp (by decide)) (by decide)
    fun hoccurs => hdash (hoccurs.subset (by decide))

end Pf2eParser
