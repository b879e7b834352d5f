import Mathlib.Logic.Function.Iterate
import Pf2eParser.BookAdapter.Headings

/-!
# The sections of a page of feats

The loop of the splitter for feats has its own line index, and the scan over a heading block has
another one.  Each round of the loop moves the index on (`splitFeatStep_lt`), so it comes to the end
of the page (`exists_rounds`).  What it has read by then are sections: a heading block with a level
marker, and the body lines up to the next heading block (`FeatSections`).  No line is in two
sections, and no line behind the first heading is in none (`feats_partition`).
-/

namespace Pf2eParser

open Text

/-! ## Rounds of a loop -/

/-- A loop that moves its index on in every round comes to its end. -/
theorem exists_rounds {State : Type*} {step : State → State} {index : State → ℕ} {stop : ℕ}
    (hstep : ∀ state, index state < stop → index state < index (step state)) (state : State) :
    ∃ rounds ≤ stop - index state, stop ≤ index (step^[rounds] state) ∧
      ∀ k < rounds, index (step^[k] state) < stop := by
  induction hn : stop - index state using Nat.strong_induction_on generalizing state with
  | _ n ih =>
    by_cases hlt : index state < stop
    · have hmore := hstep state hlt
      obtain ⟨rounds, hle, hend, hbefore⟩ :=
        ih (stop - index (step state)) (by omega) (step state) rfl
      refine ⟨rounds + 1, by omega, hend, fun k hk => ?_⟩
      cases k with
      | zero => exact hlt
      | succ k => exact hbefore k (by omega)
    · exact ⟨0, by omega, by simpa using hlt, fun k hk => absurd hk (by omega)⟩

variable {U : CaseTables}

/-! ## The loop round by round -/

/-- The loop ends with what it has read after the rounds that it takes. -/
theorem splitFeatFrom_iterate {lines : List Str} {loop : ℕ × Splitting RawFeatEntry} {rounds : ℕ}
    (hbefore : ∀ k < rounds, ((splitFeatStep U lines)^[k] loop).1 < lines.length)
    (hend : lines.length ≤ ((splitFeatStep U lines)^[rounds] loop).1) :
    splitFeatFrom U lines loop.1 loop.2 = ((splitFeatStep U lines)^[rounds] loop).2.finish := by
  induction rounds generalizing loop with
  | zero =>
    have hdone : ¬ loop.1 < lines.length := Nat.not_lt.mpr hend
    rw [splitFeatFrom, dif_neg hdone]
    rfl
  | succ rounds ih =>
    have hlt : loop.1 < lines.length := hbefore 0 (Nat.succ_pos _)
    rw [splitFeatFrom_step hlt]
    exact ih (fun k hk => hbefore (k + 1) (Nat.succ_lt_succ hk)) hend

/-! ## Sections -/

variable (U) in
/-- In front of `rest`, no line of `ls` starts a heading block. -/
def NoHeading (ls rest : List Str) : Prop :=
  ∀ before line after, ls = before ++ line :: after → isHeadingLine U line = true →
    tryReadHeadingBlock U (line :: (after ++ rest)) 0 = none

variable (U) in
/-- In front of `rest`, the lines of `block` are a heading block. -/
structure IsHeadingBlock (block rest : List Str) (name : Str) (traits : List Str) : Prop where
  read : tryReadHeadingBlock U (block ++ rest) 0 = some (name, traits, block.length)
  /-- The name line comes first. -/
  first : ∃ line ∈ block.head?, isHeadingLine U line = true
  run : ∀ line ∈ block, isRunLine U line = true
  marker : ∃ line ∈ block, isFeatLevelMarker line = true

variable (U) in
/-- The lines are sections: heading blocks, each with the body lines of its feat behind it. -/
inductive FeatSections : List Str → List RawFeatEntry → Prop
  | nil : FeatSections [] []
  | cons {block body rest : List Str} {entry : RawFeatEntry} {entries : List RawFeatEntry} :
      IsHeadingBlock U block (body ++ rest) entry.name entry.traits → NoHeading U body rest →
        entry.bodyLines = visibleLines body → FeatSections rest entries →
          FeatSections (block ++ (body ++ rest)) (entry :: entries)

/-- A line that starts no heading block in front of others. -/
theorem NoHeading.cons {line : Str} {ls rest : List Str} (h : NoHeading U ls rest)
    (hline : isHeadingLine U line = true → tryReadHeadingBlock U (line :: (ls ++ rest)) 0 = none) :
    NoHeading U (line :: ls) rest := by
  intro before line' after heq hheading
  cases before with
  | nil =>
    obtain ⟨rfl, rfl⟩ := List.cons.inj heq
    exact hline hheading
  | cons first before => exact h before line' after (List.cons.inj heq).2 hheading

/-- What is read at a heading line is a heading block. -/
theorem isHeadingBlock_of_tryRead {line : Str} {ls : List Str}
    (hheading : isHeadingLine U line = true) {name : Str} {traits : List Str} {next : ℕ}
    (hread : tryReadHeadingBlock U (line :: ls) 0 = some (name, traits, next + 1)) :
    next ≤ ls.length ∧ IsHeadingBlock U (line :: ls.take next) (ls.drop next) name traits := by
  obtain ⟨block, rest, hlines, hscan⟩ := @exists_isScanned U (line :: ls) 0
  have hdrop : (line :: ls).drop 0 = block ++ rest := hlines
  have hlength : next + 1 = 0 + block.length := next_eq_of_tryReadHeadingBlock hdrop hscan hread
  have hblock : block = line :: ls.take next := by
    have htake := congrArg (List.take (next + 1)) hlines
    rw [hlength, Nat.zero_add, List.take_left, ← Nat.zero_add block.length, ← hlength] at htake
    simpa using htake.symm
  have hle : next ≤ ls.length := Nat.le_of_succ_le_succ (next_le_of_tryReadHeadingBlock hread)
  obtain ⟨-, hmarker⟩ := (tryReadHeadingBlock_ne_none_iff hdrop hscan).mp (by simp [hread])
  subst hblock
  refine ⟨hle, ?_, ⟨line, rfl, hheading⟩, hscan.run, hmarker⟩
  rw [List.cons_append, List.take_append_drop, hread, List.length_cons, List.length_take,
    Nat.min_eq_left hle]

/-- The loop reads the lines up to the first heading for the open feat, and then sections. -/
theorem exists_featSections (ls : List Str) (state : Splitting RawFeatEntry) :
    ∃ body rest entries, ls = body ++ rest ∧ NoHeading U body rest ∧ FeatSections U rest entries ∧
      splitFeatFrom U ls 0 state = (state.pushLines (visibleLines body)).finish ++ entries := by
  induction hn : ls.length using Nat.strong_induction_on generalizing ls state with
  | _ n ih =>
    cases ls with
    | nil => exact ⟨[], [], [], rfl, by simp [NoHeading], .nil, by simp⟩
    | cons line ls =>
      rw [List.length_cons] at hn
      rcases eq_or_ne line [] with rfl | hne
      · obtain ⟨body, rest, entries, rfl, hbody, hrest, heq⟩ := ih ls.length (by omega) ls state rfl
        exact ⟨[] :: body, rest, entries, rfl, hbody.cons (by simp), hrest, by simpa using heq⟩
      · by_cases hheading : isHeadingLine U line = true ∧
            ∃ found, tryReadHeadingBlock U (line :: ls) 0 = some found
        · obtain ⟨hheading, ⟨name, traits, next⟩, hread⟩ := hheading
          have hpos := lt_of_tryReadHeadingBlock U hread
          obtain ⟨next, rfl⟩ : ∃ k, next = k + 1 := ⟨next - 1, by omega⟩
          obtain ⟨hle, hblock⟩ := isHeadingBlock_of_tryRead hheading hread
          obtain ⟨body, rest, entries, hdrop, hbody, hrest, heq⟩ := ih (ls.drop next).length
            (by rw [List.length_drop]; omega) (ls.drop next) (state.start ⟨name, traits, []⟩) rfl
          refine ⟨[], line :: ls, ⟨name, traits, visibleLines body⟩ :: entries, rfl,
            by simp [NoHeading], ?_, ?_⟩
          · rw [hdrop] at hblock
            have hsections : FeatSections U ((line :: ls.take next) ++ (body ++ rest))
                (⟨name, traits, visibleLines body⟩ :: entries) := .cons hblock hbody rfl hrest
            rwa [← hdrop, List.cons_append, List.take_append_drop] at hsections
          · rw [splitFeatFrom_cons_heading hheading hread, heq, Splitting.pushLines_start]
            simp [Splitting.start, Splitting.finish, RawFeatEntry.appendLines]
        · have hnone : isHeadingLine U line = true →
              tryReadHeadingBlock U (line :: ls) 0 = none := fun h =>
            Option.eq_none_iff_forall_ne_some.mpr fun found hread => hheading ⟨h, found, hread⟩
          obtain ⟨body, rest, entries, rfl, hbody, hrest, heq⟩ :=
            ih ls.length (by omega) ls (state.pushLines [line]) rfl
          refine ⟨line :: body, rest, entries, rfl, hbody.cons hnone, hrest, ?_⟩
          rw [splitFeatFrom_cons_body hne hnone, visibleLines_cons hne]
          rw [Splitting.pushLines_pushLines, List.singleton_append] at heq
          exact heq

/-- Every section has a level marker. -/
theorem FeatSections.length_le {ls : List Str} {entries : List RawFeatEntry}
    (h : FeatSections U ls entries) : entries.length ≤ ls.countP isFeatLevelMarker := by
  induction h with
  | nil => exact Nat.zero_le _
  | cons hblock _ _ _ ih =>
    have hpos := List.countP_pos_iff.mpr hblock.marker
    rw [List.length_cons, List.countP_append, List.countP_append]
    omega

/-! ## Pages -/

/-- The lines of a page. -/
def pageLines (text : Str) : List Str := (lines text).map trim

/-- The splitter for feats comes to the end of every page, since a heading block ends behind its
start and every round moves the line index on.  From the first heading on the page is sections: each
line that is not blank is in the heading block or in the body of one feat.  There are not more feats
than level markers. -/
theorem feats_partition (U : CaseTables) (text : Str) :
    (∀ lines start name traits next,
      tryReadHeadingBlock U lines start = some (name, traits, next) → start < next) ∧
    (∀ loop : ℕ × Splitting RawFeatEntry, loop.1 < (pageLines text).length →
      loop.1 < (splitFeatStep U (pageLines text) loop).1) ∧
    (∃ rounds ≤ (pageLines text).length,
      (∀ k < rounds,
        ((splitFeatStep U (pageLines text))^[k] (0, {})).1 < (pageLines text).length) ∧
      (pageLines text).length ≤ ((splitFeatStep U (pageLines text))^[rounds] (0, {})).1 ∧
      splitFeatEntries U text = ((splitFeatStep U (pageLines text))^[rounds] (0, {})).2.finish) ∧
    (∃ preamble sections, pageLines text = preamble ++ sections ∧ NoHeading U preamble sections ∧
      FeatSections U sections (splitFeatEntries U text)) ∧
    (splitFeatEntries U text).length ≤ (pageLines text).countP isFeatLevelMarker := by
  have hpartition : ∃ preamble sections, pageLines text = preamble ++ sections ∧
      NoHeading U preamble sections ∧ FeatSections U sections (splitFeatEntries U text) := by
    obtain ⟨preamble, sections, entries, hpage, hpreamble, hsections, hread⟩ :=
      @exists_featSections U (pageLines text) {}
    have hentries : splitFeatEntries U text = entries := hread
    exact ⟨preamble, sections, hpage, hpreamble, hentries ▸ hsections⟩
  refine ⟨fun _ _ _ _ _ hread => lt_of_tryReadHeadingBlock U hread,
    fun _ hlt => splitFeatStep_lt hlt, ?_, hpartition, ?_⟩
  · obtain ⟨rounds, hle, hend, hbefore⟩ := @exists_rounds _ (splitFeatStep U (pageLines text))
      Prod.fst (pageLines text).length (fun _ hlt => splitFeatStep_lt hlt) (0, {})
    exact ⟨rounds, hle, hbefore, hend, splitFeatFrom_iterate hbefore hend⟩
  · obtain ⟨preamble, sections, hpage, -, hsections⟩ := hpartition
    rw [hpage, List.countP_append]
    exact hsections.length_le.trans (Nat.le_add_left _ _)

end Pf2eParser
