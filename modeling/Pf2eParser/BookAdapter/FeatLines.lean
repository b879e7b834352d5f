import Pf2eParser.BookAdapter.Sections

/-!
# A page of feats by its lines

What the splitter for feats reads can be said of the lines of the page without the loop and its
index.  A heading block is a heading line with a level marker among the lines that a scan from it
on passes (`IsHeading`); behind a heading block, the lines up to the next one are the text of the
feat.  `IsFeatPage` cuts a page in this way.  Every page can be cut (`exists_isFeatPage`), and its
feats are those of the cut (`splitFeatEntries_of_isFeatPage`).
-/

namespace Pf2eParser

open Text

/-- The lines of a feat: the name line, the lines behind it in the heading block, and the lines of
its text. -/
structure FeatLines where
  nameLine : Str
  headingLines : List Str
  bodyLines : List Str

namespace FeatLines

/-- The lines of a feat, in order. -/
def lines (feat : FeatLines) : List Str := feat.nameLine :: (feat.headingLines ++ feat.bodyLines)

variable (U : CaseTables)

/-- The trait lines of a feat: the shouty lines behind the name line that are no level markers. -/
def traitLines (feat : FeatLines) : List Str := feat.headingLines.filter (isHeadingLine U)

/-- The feat that is read from the lines. -/
def entry (feat : FeatLines) : RawFeatEntry where
  name := titleCase U feat.nameLine
  traits := distinctTraits U (feat.traitLines U)
  bodyLines := visibleLines feat.bodyLines

end FeatLines

variable (U : CaseTables)

/-- In front of `rest`, the name line and the lines of `heading` are a heading block: the scan from
the name line on passes these lines and no more, and there is a level marker among them. -/
structure IsHeading (nameLine : Str) (heading rest : List Str) : Prop where
  name : isHeadingLine U nameLine = true
  scanned : IsScanned U 0 (nameLine :: heading) rest
  marker : ∃ line ∈ heading, isFeatLevelMarker line = true

/-- In front of `rest`, no heading block begins in the lines. -/
def NoHeadingIn (ls rest : List Str) : Prop :=
  ∀ before line after, ls = before ++ line :: after → ∀ heading later,
    after ++ rest = heading ++ later → ¬ IsHeading U line heading later

/-- The lines are feats one behind the other. -/
inductive AreFeats : List Str → List FeatLines → Prop
  | nil : AreFeats [] []
  | cons {feat : FeatLines} {rest : List Str} {feats : List FeatLines} :
      IsHeading U feat.nameLine feat.headingLines (feat.bodyLines ++ rest) →
        NoHeadingIn U feat.bodyLines rest → AreFeats rest feats →
          AreFeats (feat.lines ++ rest) (feat :: feats)

/-- The lines of a page are feats behind lines without a heading block. -/
def IsFeatPage (ls : List Str) (feats : List FeatLines) : Prop :=
  ∃ preamble rest, ls = preamble ++ rest ∧ NoHeadingIn U preamble rest ∧ AreFeats U rest feats

variable {U}

/-- A heading block is read. -/
theorem IsHeading.tryRead {nameLine : Str} {heading rest : List Str}
    (h : IsHeading U nameLine heading rest) :
    tryReadHeadingBlock U (nameLine :: (heading ++ rest)) 0 =
      some (titleCase U nameLine, distinctTraits U (heading.filter (isHeadingLine U)),
        heading.length + 1) := by
  have hdrop : (nameLine :: (heading ++ rest)).drop 0 = nameLine :: heading ++ rest := rfl
  have hmarker : (nameLine :: heading).any isFeatLevelMarker = true := by
    obtain ⟨line, hline, hlevel⟩ := h.marker
    exact List.any_eq_true.mpr ⟨line, List.mem_cons_of_mem _ hline, hlevel⟩
  rw [tryReadHeadingBlock_eq hdrop h.scanned, List.filter_cons_of_pos h.name]
  simp only [hmarker, if_true, Nat.zero_add, List.length_cons]

/-- What is read at a heading line is a heading block. -/
theorem exists_isHeading {line : Str} {ls : List Str} (hline : isHeadingLine U line = true)
    {found : Str × List Str × ℕ} (hread : tryReadHeadingBlock U (line :: ls) 0 = some found) :
    ∃ heading rest, ls = heading ++ rest ∧ IsHeading U line heading rest := by
  obtain ⟨block, rest, hlines, hscan⟩ := @exists_isScanned U (line :: ls) 0
  have hdrop : (line :: ls).drop 0 = block ++ rest := hlines
  obtain ⟨⟨first, hfirst, -⟩, marker, hmarker, hlevel⟩ :=
    (tryReadHeadingBlock_ne_none_iff hdrop hscan).mp (by simp [hread])
  obtain ⟨first, heading, rfl⟩ := List.exists_cons_of_ne_nil (List.ne_nil_of_mem hfirst)
  obtain ⟨rfl, rfl⟩ := List.cons.inj hlines
  refine ⟨heading, rest, rfl, hline, hscan, marker, ?_, hlevel⟩
  rcases List.mem_cons.mp hmarker with rfl | hmem
  · exact absurd hlevel (by simp [not_marker_of_isHeadingLine hline])
  · exact hmem

/-- Where no heading block begins, none is read. -/
theorem NoHeadingIn.noHeading {ls rest : List Str} (h : NoHeadingIn U ls rest) :
    NoHeading U ls rest := by
  intro before line after hls hline
  refine Option.eq_none_iff_forall_ne_some.mpr fun found hread => ?_
  obtain ⟨heading, later, heq, hheading⟩ := exists_isHeading hline hread
  exact h before line after hls heading later heq hheading

/-- Where no heading block is read, none begins. -/
theorem NoHeading.noHeadingIn {ls rest : List Str} (h : NoHeading U ls rest) :
    NoHeadingIn U ls rest := by
  intro before line after hls heading later heq hheading
  have hnone := h before line after hls hheading.name
  rw [heq, hheading.tryRead] at hnone
  exact absurd hnone (by simp)

/-- In front of a heading line, no heading block begins. -/
theorem noHeadingIn_of_forall {ls : List Str} (h : ∀ line ∈ ls, isHeadingLine U line = false)
    (rest : List Str) : NoHeadingIn U ls rest := by
  intro before line after hls heading later _ hheading
  have hquiet := h line (hls ▸ by simp)
  exact absurd (hquiet.symm.trans hheading.name) (by simp)

/-- Lines in which no heading block begins go to the open feat. -/
theorem NoHeading.splitFeatFrom_append {ls rest : List Str} (h : NoHeading U ls rest)
    (state : Splitting RawFeatEntry) : splitFeatFrom U (ls ++ rest) 0 state =
      splitFeatFrom U rest 0 (state.pushLines (visibleLines ls)) := by
  induction ls generalizing state with
  | nil => simp
  | cons line ls ih =>
    have hlater : NoHeading U ls rest := fun before line' after heq =>
      h (line :: before) line' after (by rw [heq, List.cons_append])
    rcases eq_or_ne line [] with rfl | hne
    · rw [List.cons_append, splitFeatFrom_nil_cons, ih hlater, visibleLines_cons_nil]
    · have hpush := ih hlater (state.pushLines [line])
      rw [Splitting.pushLines_pushLines, List.singleton_append] at hpush
      rw [List.cons_append, splitFeatFrom_cons_body hne (h [] line ls rfl), visibleLines_cons hne]
      exact hpush

/-- The loop reads feats one behind the other. -/
theorem AreFeats.splitFeatFrom_eq {ls : List Str} {feats : List FeatLines}
    (h : AreFeats U ls feats) (state : Splitting RawFeatEntry) :
    splitFeatFrom U ls 0 state = state.finish ++ feats.map (FeatLines.entry U) := by
  induction h generalizing state with
  | nil => simp
  | @cons feat rest feats hheading hbody _ ih =>
    have hlines : feat.lines ++ rest =
        feat.nameLine :: (feat.headingLines ++ (feat.bodyLines ++ rest)) := by
      simp [FeatLines.lines]
    rw [hlines, splitFeatFrom_cons_heading hheading.name hheading.tryRead, List.drop_left,
      hbody.noHeading.splitFeatFrom_append, ih, Splitting.pushLines_start]
    simp [Splitting.start, Splitting.finish, RawFeatEntry.appendLines, FeatLines.entry,
      FeatLines.traitLines]

/-- Sections are feats by their lines. -/
theorem FeatSections.exists_areFeats {ls : List Str} {entries : List RawFeatEntry}
    (h : FeatSections U ls entries) : ∃ feats, AreFeats U ls feats := by
  induction h with
  | nil => exact ⟨[], .nil⟩
  | @cons block body rest entry entries hblock hbody _ _ ih =>
    obtain ⟨feats, hfeats⟩ := ih
    obtain ⟨line, hfirst, hline⟩ := hblock.first
    obtain ⟨first, block, rfl⟩ := List.exists_cons_of_ne_nil (List.ne_nil_of_mem
      (List.mem_of_mem_head? hfirst))
    obtain rfl : first = line := Option.some.inj hfirst
    have hread := hblock.read
    rw [List.cons_append] at hread
    obtain ⟨heading, later, heq, hheading⟩ := exists_isHeading hline hread
    -- the heading block is as long as the scan says
    have hsame := hheading.tryRead
    rw [← heq, hread] at hsame
    obtain ⟨-, -, hlength⟩ : _ ∧ _ ∧ block.length = heading.length := by simpa using hsame
    obtain ⟨rfl, rfl⟩ := List.append_inj heq hlength
    have hfeatLines := @AreFeats.cons U ⟨first, block, body⟩ rest feats hheading hbody.noHeadingIn
      hfeats
    exact ⟨_, by simpa [FeatLines.lines] using hfeatLines⟩

/-- Every page can be cut into feats. -/
theorem exists_isFeatPage (U : CaseTables) (ls : List Str) : ∃ feats, IsFeatPage U ls feats := by
  obtain ⟨preamble, rest, entries, hls, hpreamble, hsections, -⟩ := @exists_featSections U ls {}
  obtain ⟨feats, hfeats⟩ := hsections.exists_areFeats
  exact ⟨feats, preamble, rest, hls, hpreamble.noHeadingIn, hfeats⟩

/-- The feats of a page are those that it is cut into. -/
theorem splitFeatEntries_of_isFeatPage {text : Str} {feats : List FeatLines}
    (h : IsFeatPage U (pageLines text) feats) :
    splitFeatEntries U text = feats.map (FeatLines.entry U) := by
  obtain ⟨preamble, rest, hls, hpreamble, hfeats⟩ := h
  have hread : splitFeatEntries U text = splitFeatFrom U (pageLines text) 0 {} := rfl
  rw [hread, hls, hpreamble.noHeading.splitFeatFrom_append, hfeats.splitFeatFrom_eq]
  rfl

/-- The lines of a feat are lines of the page, and the first one is a heading line. -/
theorem AreFeats.mem_lines {ls : List Str} {feats : List FeatLines} (h : AreFeats U ls feats) :
    ∀ feat ∈ feats, isHeadingLine U feat.nameLine = true ∧ ∀ line ∈ feat.lines, line ∈ ls := by
  induction h with
  | nil => simp
  | @cons feat rest feats hheading _ _ ih =>
    refine List.forall_mem_cons.mpr ⟨⟨hheading.name, fun line hline => ?_⟩,
      fun other hother => ⟨(ih other hother).1, fun line hline => ?_⟩⟩
    · exact List.mem_append_left _ hline
    · exact List.mem_append_right _ ((ih other hother).2 line hline)

/-- The lines of a feat are lines of the page, and the first one is a heading line. -/
theorem IsFeatPage.mem_lines {ls : List Str} {feats : List FeatLines} (h : IsFeatPage U ls feats) :
    ∀ feat ∈ feats, isHeadingLine U feat.nameLine = true ∧ ∀ line ∈ feat.lines, line ∈ ls := by
  obtain ⟨preamble, rest, rfl, -, hfeats⟩ := h
  intro feat hfeat
  obtain ⟨hheading, hlines⟩ := hfeats.mem_lines feat hfeat
  exact ⟨hheading, fun line hline => List.mem_append_right _ (hlines line hline)⟩

end Pf2eParser
