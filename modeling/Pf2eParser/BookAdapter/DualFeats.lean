import Pf2eParser.BookAdapter.Headings
import Pf2eParser.BookAdapter.Separator

/-!
# Feats that are actions as well

A feat whose name line has an action cost is no heading for the splitter, so its level markers and
trait lines are left without a name.  They are meant to go to the feat in front of it.  But a trait
line that is followed by a level marker is a heading block of its own, and becomes a feat that is
not on the page: `dual_keeps_feats_iff` says that the feats are kept exactly when no trait line
comes before a level marker.
-/

namespace Pf2eParser

open Text

variable {U : CaseTables}

/-! ## Stray heading lines -/

/-- A trait line in front of a level marker, with no other trait line between them. -/
theorem exists_of_not_pairwise {ls : List Str}
    (h : ¬ ls.Pairwise fun line later => ¬ (isHeadingLine U line = true ∧
      isFeatLevelMarker later = true)) :
    ∃ front line mid marker back, ls = front ++ line :: (mid ++ marker :: back) ∧
      isHeadingLine U line = true ∧ (∀ l ∈ mid, isHeadingLine U l = false) ∧
        isFeatLevelMarker marker = true := by
  induction ls with
  | nil => exact absurd List.Pairwise.nil h
  | cons line ls ih =>
    by_cases hpairs : ls.Pairwise fun line later => ¬ (isHeadingLine U line = true ∧
        isFeatLevelMarker later = true)
    · rw [List.pairwise_cons, and_iff_left hpairs] at h
      simp only [not_forall, not_not] at h
      obtain ⟨marker, hmem, hheading, hmarker⟩ := h
      obtain ⟨mid, back, rfl⟩ := List.append_of_mem hmem
      refine ⟨[], line, mid, marker, back, rfl, hheading, fun l hl => ?_, hmarker⟩
      have hlast := (List.pairwise_append.mp hpairs).2.2 l hl marker List.mem_cons_self
      simpa [hmarker] using hlast
    · obtain ⟨front, line', mid, marker, back, rfl, hheading, hmid, hmarker⟩ := ih hpairs
      exact ⟨line :: front, line', mid, marker, back, rfl, hheading, hmid, hmarker⟩

/-- A trait line in front of a level marker is read as a heading block. -/
theorem exists_of_stray_line {line : Str} {mid : List Str} {marker : Str}
    (hrun : ∀ l ∈ mid, isRunLine U l = true) (hheading : isHeadingLine U line = true)
    (hmid : ∀ l ∈ mid, isHeadingLine U l = false) (hmarker : isFeatLevelMarker marker = true)
    (back : List Str) : ∃ name traits next,
      tryReadHeadingBlock U (line :: (mid ++ marker :: back)) 0 =
        some (name, traits, next + 1) := by
  have hfront : ∀ l ∈ line :: mid, isRunLine U l = true :=
    List.forall_mem_cons.mpr ⟨isRunLine_of_isHeadingLine hheading, hrun⟩
  have hmarkerRun : isRunLine U marker = true := by simp [isRunLine, hmarker]
  obtain ⟨later, hheadingRun⟩ : ∃ later,
      headingRun U (line :: (mid ++ marker :: back)) 0 = line :: mid ++ marker :: later := by
    refine ⟨back.takeWhile (isRunLine U), ?_⟩
    unfold headingRun
    rw [List.drop_zero, ← List.cons_append, List.takeWhile_append_of_pos hfront,
      List.takeWhile_cons_of_pos hmarkerRun]
  have hread : tryReadHeadingBlock U (line :: (mid ++ marker :: back)) 0 ≠ none := by
    rw [Ne, tryReadHeadingBlock_eq_none_iff, hheadingRun]
    rintro (hprose | hlate)
    · exact absurd hheading (by simp [hprose line (by simp)])
    · have hcount : (line :: mid).countP (isHeadingLine U) = 1 := by
        rw [List.countP_cons_of_pos hheading,
          List.countP_eq_zero.mpr fun l hl => by simp [hmid l hl]]
      have hlt := hlate (line :: mid) marker later rfl hmarker
      rw [hcount] at hlt
      exact absurd hlt (by decide)
  obtain ⟨⟨name, traits, next⟩, hread⟩ := Option.ne_none_iff_exists'.mp hread
  have hpos := lt_of_tryReadHeadingBlock U hread
  exact ⟨name, traits, next - 1, by rw [hread, Nat.sub_add_cancel hpos]⟩

/-! ## Feats that are not on the page -/

/-- Pushing lines does not change the number of feats. -/
@[simp] theorem length_finish_pushLines (state : Splitting RawFeatEntry) (ls : List Str) :
    (state.pushLines ls).finish.length = state.finish.length := by
  cases h : state.current <;> simp [Splitting.pushLines, Splitting.push, Splitting.finish, h]

/-- A heading adds a feat. -/
theorem length_finish_start (state : Splitting RawFeatEntry) (entry : RawFeatEntry) :
    (state.start entry).finish.length = state.finish.length + 1 := by
  simp only [Splitting.start, Splitting.finish, List.length_append, Option.toList_some,
    List.length_singleton]

/-- The loop does not lose feats. -/
theorem length_finish_le (ls : List Str) (index : ℕ) (state : Splitting RawFeatEntry) :
    state.finish.length ≤ (splitFeatFrom U ls index state).length := by
  fun_induction splitFeatFrom U ls index state with
  | case1 index state hlt line hempty ih => exact ih
  | case2 index state hlt line hne name traits next hread ih =>
    rw [length_finish_start] at ih
    omega
  | case3 index state hlt line hne hread ih =>
    exact (length_finish_pushLines state [line]).symm.le.trans ih
  | case4 index state hge => exact le_rfl

/-- Behind anything, a trait line in front of a level marker adds a feat. -/
theorem lt_length_of_stray_line (front : List Str) {line : Str} {mid : List Str} {marker : Str}
    (hrun : ∀ l ∈ mid, isRunLine U l = true) (hheading : isHeadingLine U line = true)
    (hmid : ∀ l ∈ mid, isHeadingLine U l = false) (hmarker : isFeatLevelMarker marker = true)
    (back : List Str) (state : Splitting RawFeatEntry) : state.finish.length <
      (splitFeatFrom U (front ++ line :: (mid ++ marker :: back)) 0 state).length := by
  have hblock : ∀ {line : Str} {ls : List Str} {name : Str} {traits : List Str} {next : ℕ}
      (state : Splitting RawFeatEntry), isHeadingLine U line = true →
      tryReadHeadingBlock U (line :: ls) 0 = some (name, traits, next + 1) →
        state.finish.length < (splitFeatFrom U (line :: ls) 0 state).length := by
    intro line ls name traits next state hheading hread
    have hle := @length_finish_le U (ls.drop next) 0 (state.start ⟨name, traits, []⟩)
    rw [length_finish_start] at hle
    rw [splitFeatFrom_cons_heading hheading hread]
    omega
  induction front generalizing state with
  | nil =>
    obtain ⟨name, traits, next, hread⟩ := exists_of_stray_line hrun hheading hmid hmarker back
    exact hblock state hheading hread
  | cons first front ih =>
    rw [List.cons_append]
    rcases eq_or_ne first [] with rfl | hne
    · rw [splitFeatFrom_nil_cons]
      exact ih state
    · by_cases hfirst : isHeadingLine U first = true ∧ ∃ found, tryReadHeadingBlock U
          (first :: (front ++ line :: (mid ++ marker :: back))) 0 = some found
      · obtain ⟨hfirst, ⟨name, traits, next⟩, hread⟩ := hfirst
        have hpos := lt_of_tryReadHeadingBlock U hread
        obtain ⟨next, rfl⟩ : ∃ k, next = k + 1 := ⟨next - 1, by omega⟩
        exact hblock state hfirst hread
      · have hnone : isHeadingLine U first = true → tryReadHeadingBlock U
            (first :: (front ++ line :: (mid ++ marker :: back))) 0 = none := fun h =>
          Option.eq_none_iff_forall_ne_some.mpr fun found hread => hfirst ⟨h, found, hread⟩
        rw [splitFeatFrom_cons_body hne hnone]
        exact (length_finish_pushLines state [first]).symm.le.trans_lt (ih _)

/-! ## Feats and dual entries on a page -/

/-- A feat as it stands on a page, with text that is not shouty. -/
structure ProseFeat (U : CaseTables) where
  nameLine : Str
  heading : List Str
  prose : List Str
  nameLine_spec : isHeadingLine U nameLine = true
  heading_spec : ∀ line ∈ heading, isRunLine U line = true
  heading_marker : ∃ line ∈ heading, isFeatLevelMarker line = true
  prose_spec : ∀ line ∈ prose, isShouty U line = false ∧ isFeatLevelMarker line = false
  prose_visible : ∃ line ∈ prose, line ≠ []

/-- The lines of a feat. -/
def ProseFeat.lines (feat : ProseFeat U) : List Str :=
  feat.nameLine :: (feat.heading ++ feat.prose)

/-- A feat that is also an action: the name line has an action cost, and behind it there are blank
lines, level markers and trait lines in any order, and text that is not shouty. -/
structure DualEntry (U : CaseTables) where
  nameLine : Str
  run : List Str
  prose : List Str
  nameLine_spec : (detectHeading U nameLine).isSome
  run_spec : ∀ line ∈ run, isRunLine U line = true
  prose_spec : ∀ line ∈ prose, isShouty U line = false
  prose_visible : ∃ line ∈ prose, line ≠ []

/-- The lines of a dual entry. -/
def DualEntry.lines (dual : DualEntry U) : List Str := dual.nameLine :: (dual.run ++ dual.prose)

/-- In the list of feats only the text of the `k`-th one may have grown. -/
def OnlyGrowsAt (k : ℕ) (old new : List RawFeatEntry) : Prop :=
  new.length = old.length ∧ ∀ (i : ℕ) (entry entry' : RawFeatEntry),
    old[i]? = some entry → new[i]? = some entry' →
      entry'.name = entry.name ∧ entry'.traits = entry.traits ∧
        entry.bodyLines.Sublist entry'.bodyLines ∧ (i + 1 ≠ k → entry' = entry)

/-- A text of visible prose behind anything ends in prose. -/
theorem endsInProse_append {front ls : List Str} (h : EndsInProse U ls)
    (hne : visibleLines ls ≠ []) : EndsInProse U (front ++ ls) := by
  intro line hline
  rw [visibleLines_append, List.getLast?_append_of_ne_nil _ hne] at hline
  exact h line hline

/-- One text that ends in prose behind another. -/
theorem EndsInProse.append {ls ls' : List Str} (h : EndsInProse U ls) (h' : EndsInProse U ls') :
    EndsInProse U (ls ++ ls') := by
  rcases eq_or_ne (visibleLines ls') [] with hnil | hne
  · intro line hline
    rw [visibleLines_append, hnil, List.append_nil] at hline
    exact h line hline
  · exact endsInProse_append h' hne

/-- Lines that are not shouty behind a heading end in prose. -/
theorem endsInProse_of_prose (front : List Str) {prose : List Str}
    (h : ∀ line ∈ prose, isShouty U line = false ∧ isFeatLevelMarker line = false)
    (hvisible : ∃ line ∈ prose, line ≠ []) : EndsInProse U (front ++ prose) := by
  obtain ⟨line, hline, hne⟩ := hvisible
  refine endsInProse_append (fun last hlast => ?_) (List.ne_nil_of_mem
    (List.mem_filter.mpr ⟨hline, by simpa using hne⟩))
  obtain ⟨hmem, hlastNe⟩ := List.mem_filter.mp (List.mem_of_getLast? hlast)
  obtain ⟨hshouty, hmarker⟩ := h last hmem
  simp only [Bool.not_eq_true'] at hlastNe
  simp [isRunLine, hshouty, hmarker, hlastNe]

/-- The lines of feats end in prose. -/
theorem endsInProse_flatMap (feats : List (ProseFeat U)) :
    EndsInProse U (feats.flatMap ProseFeat.lines) := by
  induction feats with
  | nil => exact nofun
  | cons feat feats ih =>
    rw [List.flatMap_cons]
    refine EndsInProse.append ?_ ih
    exact endsInProse_of_prose (feat.nameLine :: feat.heading) feat.prose_spec feat.prose_visible

/-- The text of a dual entry has neither shouty lines nor level markers. -/
theorem DualEntry.prose_not_shouty_not_marker (hA : U.FollowsAscii) (dual : DualEntry U) :
    ∀ line ∈ dual.prose, isShouty U line = false ∧ isFeatLevelMarker line = false := by
  intro line hline
  have hshouty := dual.prose_spec line hline
  refine ⟨hshouty, Bool.eq_false_iff.mpr fun hmarker => ?_⟩
  rw [isShouty_of_isFeatLevelMarker hA hmarker] at hshouty
  exact absurd hshouty (by decide)

/-- The lines of a dual entry end in prose. -/
theorem DualEntry.endsInProse (hA : U.FollowsAscii) (dual : DualEntry U) :
    EndsInProse U dual.lines :=
  endsInProse_of_prose (dual.nameLine :: dual.run) (dual.prose_not_shouty_not_marker hA)
    dual.prose_visible

/-- The lines of a dual entry without stray trait lines go to the open feat. -/
theorem DualEntry.featPiece (hA : U.FollowsAscii) (dual : DualEntry U)
    (hpairs : dual.run.Pairwise fun line later => ¬ (isHeadingLine U line = true ∧
      isFeatLevelMarker later = true)) :
    FeatPiece U dual.lines (visibleLines dual.lines) [] := by
  have hname : isHeadingLine U dual.nameLine = false := by
    rw [isHeadingLine, (isShouty_of_detectHeading hA dual.nameLine_spec).2, Bool.false_and]
  have hprose : ∀ line : Str, ∀ later ∈ dual.prose, ¬ (isHeadingLine U line = true ∧
      isFeatLevelMarker later = true) := fun line later hlater => by
    simp [(dual.prose_not_shouty_not_marker hA later hlater).2]
  apply featPiece_body (dual.endsInProse hA)
  refine List.pairwise_cons.mpr ⟨fun later _ => by simp [hname], List.pairwise_append.mpr
    ⟨hpairs, ?_, fun line _ later hlater => hprose line later hlater⟩⟩
  exact List.pairwise_of_forall_mem_list fun line _ later hlater => hprose line later hlater

/-- More lines for the open feat. -/
theorem onlyGrowsAt_pushLines (state : Splitting RawFeatEntry) {ls ls' : List Str}
    (h : ls.Sublist ls') (entries : List RawFeatEntry) :
    OnlyGrowsAt state.finish.length ((state.pushLines ls).finish ++ entries)
      ((state.pushLines ls').finish ++ entries) := by
  refine ⟨by simp, fun i entry entry' hold hnew => ?_⟩
  cases hcurrent : state.current with
  | none =>
    simp only [Splitting.pushLines, Splitting.push, Splitting.finish, hcurrent, Option.map_none]
      at hold hnew
    rw [hold] at hnew
    obtain rfl := Option.some.inj hnew
    exact ⟨rfl, rfl, List.Sublist.refl _, fun _ => rfl⟩
  | some opened =>
    simp only [Splitting.pushLines, Splitting.push, Splitting.finish, hcurrent, Option.map_some,
      Option.toList_some, List.append_assoc, List.singleton_append, List.length_append,
      List.length_singleton] at hold hnew ⊢
    by_cases hi : i = state.entries.length
    · subst hi
      simp only [List.getElem?_append_right le_rfl, Nat.sub_self, List.getElem?_cons_zero,
        Option.some.injEq] at hold hnew
      subst hold hnew
      exact ⟨rfl, rfl, (List.Sublist.refl _).append h, fun hne => absurd rfl hne⟩
    · have hsame : entry' = entry := by
        rcases Nat.lt_or_gt_of_ne hi with hlt | hgt
        · rw [List.getElem?_append_left hlt] at hold hnew
          exact Option.some.inj (hnew.symm.trans hold)
        · obtain ⟨j, hj⟩ : ∃ j, i - state.entries.length = j + 1 :=
            ⟨i - state.entries.length - 1, by omega⟩
          rw [List.getElem?_append_right (by omega), hj, List.getElem?_cons_succ] at hold hnew
          exact Option.some.inj (hnew.symm.trans hold)
      subst hsame
      exact ⟨rfl, rfl, List.Sublist.refl _, fun _ => rfl⟩

/-- A dual entry with a stray trait line is read as a feat. -/
theorem DualEntry.entries_ne_nil {dual : DualEntry U}
    (hpairs : ¬ dual.run.Pairwise fun line later => ¬ (isHeadingLine U line = true ∧
      isFeatLevelMarker later = true)) {body : List Str} {entries : List RawFeatEntry}
    (hpiece : FeatPiece U dual.lines body entries) : 0 < entries.length := by
  obtain ⟨front, line, mid, marker, back, hrun, hheading, hmid, hmarker⟩ :=
    exists_of_not_pairwise hpairs
  have hmidRun : ∀ l ∈ mid, isRunLine U l = true := fun l hl => dual.run_spec l (by simp [hrun, hl])
  have hlt := lt_length_of_stray_line (dual.nameLine :: front) hmidRun hheading hmid hmarker
    (back ++ dual.prose) {}
  have hlines : dual.lines = dual.nameLine :: front ++
      line :: (mid ++ marker :: (back ++ dual.prose)) := by
    rw [DualEntry.lines, hrun]
    simp
  rw [← hlines, hpiece.splitFeatFrom_eq] at hlt
  exact hlt

/-- The feats of a page with a dual entry in it are the feats of the page without it, except that
the text of the feat in front of it may have grown, exactly when no trait line of the entry comes
before a level marker. -/
theorem dual_keeps_feats_iff (hA : U.FollowsAscii) (before after : List (ProseFeat U))
    (dual : DualEntry U) {text text' : Str}
    (htext : (lines text).map trim =
      before.flatMap ProseFeat.lines ++ after.flatMap ProseFeat.lines)
    (htext' : (lines text').map trim =
      before.flatMap ProseFeat.lines ++ (dual.lines ++ after.flatMap ProseFeat.lines)) :
    OnlyGrowsAt (splitFeatFrom U (before.flatMap ProseFeat.lines) 0 {}).length
        (splitFeatEntries U text) (splitFeatEntries U text') ↔
      dual.run.Pairwise fun line later => ¬ (isHeadingLine U line = true ∧
        isFeatLevelMarker later = true) := by
  obtain ⟨body, entries, hbefore⟩ := exists_featPiece (endsInProse_flatMap before)
  obtain ⟨body', entries', hafter⟩ := exists_featPiece (endsInProse_flatMap after)
  -- the state in front of the place, in which nothing is open but what was read before
  set state : Splitting RawFeatEntry := entries.foldl Splitting.start {} with hstate
  have hread : ∀ rest, splitFeatFrom U (before.flatMap ProseFeat.lines ++ rest) 0 {} =
      splitFeatFrom U rest 0 state := fun rest => hbefore {} rest
  have hfront : (splitFeatFrom U (before.flatMap ProseFeat.lines) 0 {}) = state.finish := by
    have := hread []
    rwa [List.append_nil, splitFeatFrom_nil] at this
  have hold : splitFeatEntries U text = (state.pushLines body').finish ++ entries' := by
    rw [splitFeatEntries, htext, hread, hafter.splitFeatFrom_eq]
  rw [hfront, hold, splitFeatEntries, htext', hread]
  constructor
  · rintro ⟨hlength, -⟩
    by_contra hpairs
    obtain ⟨body'', entries'', hdual⟩ := exists_featPiece (dual.endsInProse hA)
    have hpos := dual.entries_ne_nil hpairs hdual
    rw [hdual, hafter.splitFeatFrom_eq, List.length_append, List.length_append,
      length_finish_pushLines, length_finish_pushLines, finish_foldl_start, List.length_append,
      length_finish_pushLines] at hlength
    omega
  · intro hpairs
    rw [dual.featPiece hA hpairs, hafter.splitFeatFrom_eq, List.foldl_nil,
      Splitting.pushLines_pushLines]
    exact onlyGrowsAt_pushLines state (List.sublist_append_right _ _) entries'

/-- A feat of a page. -/
def clanDagger : ProseFeat .ascii where
  nameLine := "CLAN DAGGER".toList
  heading := ["FEAT 1".toList, "DWARF".toList]
  prose := ["You carry it.".toList]
  nameLine_spec := by decide
  heading_spec := List.all_iff_forall_prop.mp (by decide)
  heading_marker := ⟨"FEAT 1".toList, by simp, by decide⟩
  prose_spec := List.all_iff_forall_prop.mp (by decide)
  prose_visible := ⟨"You carry it.".toList, by simp, by decide⟩

/-- A feat with an action cost, with the given lines behind its name. -/
def boulderRoll (run : List Str) (h : ∀ line ∈ run, isRunLine .ascii line = true) :
    DualEntry .ascii where
  nameLine := "BOULDER ROLL [two-actions]".toList
  run := run
  prose := ["Go on.".toList]
  nameLine_spec := by decide
  run_spec := h
  prose_spec := List.all_iff_forall_prop.mp (by decide)
  prose_visible := ⟨"Go on.".toList, by simp, by decide⟩

/-- The feat with the trait line behind the level marker. -/
def markerFirst : DualEntry .ascii :=
  boulderRoll ["FEAT 5".toList, "DWARF".toList] (List.all_iff_forall_prop.mp (by decide))

/-- The feat with the trait line in front of the level marker. -/
def traitFirst : DualEntry .ascii :=
  boulderRoll ["DWARF".toList, "FEAT 5".toList] (List.all_iff_forall_prop.mp (by decide))

/-- The page with the given lines. -/
def pageOfLines (ls : List Str) : Str := ['\n'].intercalate ls

/-- A trait line directly under the name of the entry becomes a feat. -/
theorem dual_fabricates_feat :
    ¬ ∀ (before after : List (ProseFeat .ascii)) (dual : DualEntry .ascii) (text text' : Str),
      (lines text).map trim =
          before.flatMap ProseFeat.lines ++ after.flatMap ProseFeat.lines →
      (lines text').map trim =
          before.flatMap ProseFeat.lines ++ (dual.lines ++ after.flatMap ProseFeat.lines) →
      OnlyGrowsAt (splitFeatFrom .ascii (before.flatMap ProseFeat.lines) 0 {}).length
        (splitFeatEntries .ascii text) (splitFeatEntries .ascii text') := by
  intro h
  obtain ⟨hlength, -⟩ := h [clanDagger] [] traitFirst (pageOfLines clanDagger.lines)
    (pageOfLines (clanDagger.lines ++ traitFirst.lines)) (by decide +kernel) (by decide +kernel)
  have hold : (splitFeatEntries .ascii (pageOfLines clanDagger.lines)).length = 1 := by
    decide +kernel
  have hnew : (splitFeatEntries .ascii
      (pageOfLines (clanDagger.lines ++ traitFirst.lines))).length = 2 := by decide +kernel
  rw [hold, hnew] at hlength
  exact absurd hlength (by decide)

/-- With the ASCII tables, the order of the trait line and the level marker makes the difference. -/
theorem dual_keeps_feats_examples :
    OnlyGrowsAt (splitFeatFrom .ascii ([clanDagger].flatMap ProseFeat.lines) 0 {}).length
        (splitFeatEntries .ascii (pageOfLines clanDagger.lines))
        (splitFeatEntries .ascii (pageOfLines (clanDagger.lines ++ markerFirst.lines))) ∧
      ¬ OnlyGrowsAt (splitFeatFrom .ascii ([clanDagger].flatMap ProseFeat.lines) 0 {}).length
        (splitFeatEntries .ascii (pageOfLines clanDagger.lines))
        (splitFeatEntries .ascii (pageOfLines (clanDagger.lines ++ traitFirst.lines))) := by
  have hkept := @dual_keeps_feats_iff .ascii CaseTables.ascii_followsAscii [clanDagger] []
    markerFirst (pageOfLines clanDagger.lines) (pageOfLines (clanDagger.lines ++ markerFirst.lines))
    (by decide +kernel) (by decide +kernel)
  have hstray := @dual_keeps_feats_iff .ascii CaseTables.ascii_followsAscii [clanDagger] []
    traitFirst (pageOfLines clanDagger.lines) (pageOfLines (clanDagger.lines ++ traitFirst.lines))
    (by decide +kernel) (by decide +kernel)
  have hordered : ["FEAT 5".toList, "DWARF".toList].Pairwise fun line later =>
      ¬ (isHeadingLine .ascii line = true ∧ isFeatLevelMarker later = true) := by decide
  have hunordered : ¬ ["DWARF".toList, "FEAT 5".toList].Pairwise fun line later =>
      ¬ (isHeadingLine .ascii line = true ∧ isFeatLevelMarker later = true) := by decide
  exact ⟨hkept.mpr hordered, fun h => hunordered (hstray.mp h)⟩

end Pf2eParser
