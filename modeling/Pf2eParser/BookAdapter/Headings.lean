import Pf2eParser.BookAdapter.HeadingBlocks

/-!
# The splitter for feats, piece by piece

A shouty line starts a scan over the lines behind it, and what the splitter for feats makes of the
line depends on what the scan meets.  But a line of prose ends every scan.  So a piece of a page
that ends in prose is read in the same way whatever surrounds it: some of its lines go to the feat
that is open, and then come feats of its own (`FeatPiece`).  Pieces without a heading block are only
body lines (`featPiece_body`), and a heading block with prose behind it is one feat
(`featPiece_heading`).
-/

namespace Pf2eParser

open Text

variable {U : CaseTables}

/-! ## Texts that end in prose -/

variable (U) in
/-- The last line that is not blank is a line of prose, if there is one. -/
def EndsInProse (ls : List Str) : Prop :=
  ∀ line ∈ (visibleLines ls).getLast?, isRunLine U line = false

/-- What is behind a line of a text that ends in prose ends in prose. -/
theorem EndsInProse.tail {line : Str} {ls : List Str} (h : EndsInProse U (line :: ls)) :
    EndsInProse U ls := by
  intro last hlast
  apply h last
  rcases eq_or_ne line [] with rfl | hne
  · exact hlast
  · rw [visibleLines_cons hne, List.getLast?_cons, Option.mem_def.mp hlast]
    rfl

/-- A piece of a text that ends in prose ends in prose, if it is its end. -/
theorem EndsInProse.drop {ls : List Str} (h : EndsInProse U ls) (n : ℕ) :
    EndsInProse U (ls.drop n) := by
  induction n generalizing ls with
  | zero => exact h
  | succ n ih =>
    cases ls with
    | nil => exact h
    | cons line ls => exact ih h.tail

/-- In a text that ends in prose, a heading line is followed by a line of prose. -/
theorem EndsInProse.exists_prose {line : Str} {ls : List Str} (h : EndsInProse U (line :: ls))
    (hline : isHeadingLine U line = true) : ∃ prose ∈ ls, isRunLine U prose = false := by
  obtain ⟨last, hlast⟩ : ∃ last, (visibleLines (line :: ls)).getLast? = some last := by
    rw [visibleLines_cons (ne_nil_of_isHeadingLine hline), List.getLast?_cons]
    exact ⟨_, rfl⟩
  have hprose := h last hlast
  rcases List.mem_cons.mp (mem_of_mem_visibleLines (List.mem_of_getLast? hlast)) with rfl | hmem
  · exact absurd (isRunLine_of_isHeadingLine hline) (by simp [hprose])
  · exact ⟨last, hmem, hprose⟩

/-! ## The loop -/

/-- The loop at a blank line. -/
theorem splitFeatFrom_blank {lines : List Str} {index : ℕ} (hlt : index < lines.length)
    (hblank : lines[index] = []) (state : Splitting RawFeatEntry) :
    splitFeatFrom U lines index state = splitFeatFrom U lines (index + 1) state := by
  rw [splitFeatFrom, dif_pos hlt, hblank]
  rfl

/-- The loop at a heading block. -/
theorem splitFeatFrom_heading {lines : List Str} {index : ℕ} (hlt : index < lines.length)
    (hheading : isHeadingLine U lines[index] = true) {name : Str} {traits : List Str} {next : ℕ}
    (hread : tryReadHeadingBlock U lines index = some (name, traits, next))
    (state : Splitting RawFeatEntry) :
    splitFeatFrom U lines index state =
      splitFeatFrom U lines next (state.start ⟨name, traits, []⟩) := by
  have hne := ne_nil_of_isHeadingLine hheading
  rw [isHeadingLine] at hheading
  rw [splitFeatFrom, dif_pos hlt]
  simp only [List.isEmpty_iff, hne, if_false]
  split
  case h_1 name' traits' next' heq =>
    rw [if_pos hheading, hread] at heq
    obtain ⟨rfl, rfl, rfl⟩ : name = name' ∧ traits = traits' ∧ next = next' := by simpa using heq
    rfl
  case h_2 heq =>
    rw [if_pos hheading, hread] at heq
    exact absurd heq (by simp)

/-- The loop at any other line. -/
theorem splitFeatFrom_body {lines : List Str} {index : ℕ} (hlt : index < lines.length)
    (hne : lines[index] ≠ [])
    (hread : isHeadingLine U lines[index] = true → tryReadHeadingBlock U lines index = none)
    (state : Splitting RawFeatEntry) :
    splitFeatFrom U lines index state = splitFeatFrom U lines (index + 1)
      (state.push fun entry => { entry with bodyLines := entry.bodyLines ++ [lines[index]] }) := by
  rw [isHeadingLine] at hread
  rw [splitFeatFrom, dif_pos hlt]
  simp only [List.isEmpty_iff, hne, if_false]
  split
  case h_1 name traits next heq =>
    split at heq
    case isTrue hheading => exact absurd (hread hheading) (by simp [heq])
    case isFalse => exact absurd heq (by simp)
  case h_2 => rfl

variable (U) in
/-- One round of the loop of the splitter for feats: its line index and its state. -/
def splitFeatStep (lines : List Str) (loop : ℕ × Splitting RawFeatEntry) :
    ℕ × Splitting RawFeatEntry :=
  match lines[loop.1]? with
  | none => loop
  | some line =>
    if line.isEmpty then (loop.1 + 1, loop.2)
    else match if isShouty U line && !isFeatLevelMarker line then
        tryReadHeadingBlock U lines loop.1 else none with
      | some (name, traits, next) => (next, loop.2.start ⟨name, traits, []⟩)
      | none =>
        (loop.1 + 1, loop.2.push fun entry => { entry with bodyLines := entry.bodyLines ++ [line] })

/-- Every round moves the line index on. -/
theorem splitFeatStep_lt {lines : List Str} {loop : ℕ × Splitting RawFeatEntry}
    (hlt : loop.1 < lines.length) : loop.1 < (splitFeatStep U lines loop).1 := by
  unfold splitFeatStep
  rw [List.getElem?_eq_getElem hlt]
  dsimp only
  split
  · exact Nat.lt_succ_self _
  split
  case h_1 hread =>
    split at hread
    case isTrue => exact lt_of_tryReadHeadingBlock U hread
    case isFalse => exact absurd hread (by simp)
  case h_2 => exact Nat.lt_succ_self _

/-- The loop goes on behind a round. -/
theorem splitFeatFrom_step {lines : List Str} {loop : ℕ × Splitting RawFeatEntry}
    (hlt : loop.1 < lines.length) : splitFeatFrom U lines loop.1 loop.2 =
      splitFeatFrom U lines (splitFeatStep U lines loop).1 (splitFeatStep U lines loop).2 := by
  unfold splitFeatStep
  rw [List.getElem?_eq_getElem hlt]
  dsimp only
  by_cases hblank : lines[loop.1] = []
  · rw [splitFeatFrom_blank hlt hblank, hblank]
    rfl
  · have hcondition : (isShouty U lines[loop.1] && !isFeatLevelMarker lines[loop.1]) =
        isHeadingLine U lines[loop.1] := rfl
    rw [if_neg (by simpa using hblank), hcondition]
    by_cases hheading : isHeadingLine U lines[loop.1] = true
    · rw [if_pos hheading]
      cases hread : tryReadHeadingBlock U lines loop.1 with
      | none => exact splitFeatFrom_body hlt hblank (fun _ => hread) loop.2
      | some found => exact splitFeatFrom_heading hlt hheading hread loop.2
    · rw [if_neg hheading]
      exact splitFeatFrom_body hlt hblank (fun h => absurd h hheading) loop.2

/-- A round looks only at the lines from its index on. -/
theorem splitFeatStep_drop (lines : List Str) (index : ℕ) (loop : ℕ × Splitting RawFeatEntry) :
    splitFeatStep U lines (loop.1 + index, loop.2) =
      ((splitFeatStep U (lines.drop index) loop).1 + index,
        (splitFeatStep U (lines.drop index) loop).2) := by
  have hread : tryReadHeadingBlock U lines (loop.1 + index) =
      (tryReadHeadingBlock U (lines.drop index) loop.1).map fun found =>
        (found.1, found.2.1, found.2.2 + index) := by
    rw [tryReadHeadingBlock_drop, @tryReadHeadingBlock_drop U (lines.drop index) loop.1,
      List.drop_drop, Nat.add_comm index, Option.map_map]
    simp only [Function.comp_def, Nat.add_assoc]
  unfold splitFeatStep
  rw [List.getElem?_drop, Nat.add_comm index, hread]
  cases lines[loop.1 + index]? with
  | none => rfl
  | some line =>
    dsimp only
    split_ifs
    · rw [Nat.add_right_comm]
    · cases tryReadHeadingBlock U (lines.drop index) loop.1 with
      | none => simp [Nat.add_right_comm]
      | some found => rfl
    · rw [Nat.add_right_comm]

/-- From an index on, the loop reads the lines from there on. -/
theorem splitFeatFrom_drop (lines : List Str) (index : ℕ) (state : Splitting RawFeatEntry) :
    splitFeatFrom U lines index state = splitFeatFrom U (lines.drop index) 0 state := by
  have hmain : ∀ loop : ℕ × Splitting RawFeatEntry,
      splitFeatFrom U lines (loop.1 + index) loop.2 =
        splitFeatFrom U (lines.drop index) loop.1 loop.2 := by
    intro loop
    induction hn : (lines.drop index).length - loop.1 using Nat.strong_induction_on
      generalizing loop with
    | _ n ih =>
      have hlength : (lines.drop index).length = lines.length - index := List.length_drop
      by_cases hlt : loop.1 < (lines.drop index).length
      · have hlt' : (loop.1 + index, loop.2).1 < lines.length := by
          dsimp only
          omega
        have hmore := splitFeatStep_lt (U := U) hlt
        rw [splitFeatFrom_step hlt, ← ih _ (by omega) (splitFeatStep U (lines.drop index) loop) rfl,
          splitFeatFrom_step hlt', splitFeatStep_drop]
      · have hge : ¬ loop.1 + index < lines.length := by omega
        rw [splitFeatFrom, dif_neg hge, splitFeatFrom, dif_neg hlt]
  have hzero := hmain (0, state)
  rwa [Nat.zero_add] at hzero

/-! ## The loop over lists of lines -/

/-- There is nothing to read at the end of the page. -/
@[simp] theorem splitFeatFrom_nil (state : Splitting RawFeatEntry) :
    splitFeatFrom U [] 0 state = state.finish := by
  rw [splitFeatFrom, dif_neg (by simp)]

/-- A blank line is skipped. -/
@[simp] theorem splitFeatFrom_nil_cons (ls : List Str) (state : Splitting RawFeatEntry) :
    splitFeatFrom U ([] :: ls) 0 state = splitFeatFrom U ls 0 state := by
  rw [splitFeatFrom_blank (by simp) rfl, splitFeatFrom_drop]
  rfl

/-- A heading block opens a feat. -/
theorem splitFeatFrom_cons_heading {line : Str} {ls : List Str}
    (hheading : isHeadingLine U line = true) {name : Str} {traits : List Str} {next : ℕ}
    (hread : tryReadHeadingBlock U (line :: ls) 0 = some (name, traits, next + 1))
    (state : Splitting RawFeatEntry) :
    splitFeatFrom U (line :: ls) 0 state =
      splitFeatFrom U (ls.drop next) 0 (state.start ⟨name, traits, []⟩) := by
  rw [splitFeatFrom_heading (by simp) hheading hread, splitFeatFrom_drop]
  rfl

/-- Any other line goes to the open feat. -/
theorem splitFeatFrom_cons_body {line : Str} {ls : List Str} (hne : line ≠ [])
    (hread : isHeadingLine U line = true → tryReadHeadingBlock U (line :: ls) 0 = none)
    (state : Splitting RawFeatEntry) :
    splitFeatFrom U (line :: ls) 0 state = splitFeatFrom U ls 0
      (state.push fun entry => { entry with bodyLines := entry.bodyLines ++ [line] }) := by
  have hlt : 0 < (line :: ls).length := Nat.succ_pos _
  rw [splitFeatFrom_body hlt (by exact hne) hread, splitFeatFrom_drop]
  rfl

/-! ## Pieces of a page -/

/-- More lines for the text of a feat. -/
def RawFeatEntry.appendLines (entry : RawFeatEntry) (ls : List Str) : RawFeatEntry :=
  { entry with bodyLines := entry.bodyLines ++ ls }

/-- More lines for the text of the open feat, if there is one. -/
def Splitting.pushLines (state : Splitting RawFeatEntry) (ls : List Str) : Splitting RawFeatEntry :=
  state.push fun entry => entry.appendLines ls

@[simp] theorem Splitting.pushLines_nil (state : Splitting RawFeatEntry) :
    state.pushLines [] = state := by
  cases h : state.current <;> cases state <;>
    simp_all [Splitting.pushLines, Splitting.push, RawFeatEntry.appendLines]

@[simp] theorem Splitting.pushLines_pushLines (state : Splitting RawFeatEntry) (ls ls' : List Str) :
    (state.pushLines ls).pushLines ls' = state.pushLines (ls ++ ls') := by
  simp [Splitting.pushLines, Splitting.push, Function.comp_def, RawFeatEntry.appendLines]

@[simp] theorem Splitting.pushLines_start (state : Splitting RawFeatEntry) (entry : RawFeatEntry)
    (ls : List Str) : (state.start entry).pushLines ls = state.start (entry.appendLines ls) := rfl

/-- Whatever surrounds them, the lines are read as lines for the open feat, and then as feats. -/
def FeatPiece (U : CaseTables) (ls body : List Str) (entries : List RawFeatEntry) : Prop :=
  ∀ (state : Splitting RawFeatEntry) (rest : List Str), splitFeatFrom U (ls ++ rest) 0 state =
    splitFeatFrom U rest 0 (entries.foldl Splitting.start (state.pushLines body))

/-- No lines. -/
theorem featPiece_nil : FeatPiece U [] [] [] := fun state rest => by simp

/-- A blank line in front of a piece. -/
theorem FeatPiece.cons_nil {ls body : List Str} {entries : List RawFeatEntry}
    (h : FeatPiece U ls body entries) : FeatPiece U ([] :: ls) body entries := fun state rest => by
  rw [List.cons_append, splitFeatFrom_nil_cons, h]

/-- A line for the open feat in front of a piece. -/
theorem FeatPiece.cons_body {ls body : List Str} {entries : List RawFeatEntry}
    (h : FeatPiece U ls body entries) {line : Str} (hne : line ≠ [])
    (hread : isHeadingLine U line = true →
      ∀ rest, tryReadHeadingBlock U (line :: (ls ++ rest)) 0 = none) :
    FeatPiece U (line :: ls) (line :: body) entries := fun state rest => by
  rw [List.cons_append, splitFeatFrom_cons_body hne fun hheading => hread hheading rest, h]
  have hlines := state.pushLines_pushLines [line] body
  rw [List.singleton_append] at hlines
  rw [← hlines]
  rfl

/-- Pieces one behind the other, if the second one has no lines for the open feat. -/
theorem FeatPiece.append_feats {ls body ls' : List Str} {entries entries' : List RawFeatEntry}
    (h : FeatPiece U ls body entries) (h' : FeatPiece U ls' [] entries') :
    FeatPiece U (ls ++ ls') body (entries ++ entries') := fun state rest => by
  rw [List.append_assoc, h, h', Splitting.pushLines_nil, List.foldl_append]

/-- A heading block in front of a piece opens a feat, which gets the body lines of the piece. -/
theorem FeatPiece.cons_heading {line : Str} {ls : List Str} {name : Str} {traits : List Str}
    {next : ℕ} {body : List Str} {entries : List RawFeatEntry}
    (hheading : isHeadingLine U line = true) (hnext : next ≤ ls.length)
    (hread : ∀ rest, tryReadHeadingBlock U (line :: (ls ++ rest)) 0 = some (name, traits, next + 1))
    (h : FeatPiece U (ls.drop next) body entries) :
    FeatPiece U (line :: ls) [] (⟨name, traits, body⟩ :: entries) := fun state rest => by
  rw [List.cons_append, splitFeatFrom_cons_heading hheading (hread rest),
    List.drop_append_of_le_length hnext, h, Splitting.pushLines_start, Splitting.pushLines_nil]
  simp [RawFeatEntry.appendLines]

/-- A piece that ends in prose and in which no level marker comes after a heading line is body lines
only. -/
theorem featPiece_body {ls : List Str} (hend : EndsInProse U ls)
    (h : ls.Pairwise fun line later => ¬ (isHeadingLine U line = true ∧
      isFeatLevelMarker later = true)) : FeatPiece U ls (visibleLines ls) [] := by
  induction ls with
  | nil => exact featPiece_nil
  | cons line ls ih =>
    obtain ⟨hline, hpairs⟩ := List.pairwise_cons.mp h
    have hlater := ih hend.tail hpairs
    rcases eq_or_ne line [] with rfl | hne
    · exact hlater.cons_nil
    · rw [visibleLines_cons hne]
      apply hlater.cons_body hne
      intro hheading rest
      have hmarkers : ∀ l ∈ line :: ls, isFeatLevelMarker l = false := by
        intro l hl
        rcases List.mem_cons.mp hl with rfl | hl
        · exact not_marker_of_isHeadingLine hheading
        · simpa [hheading] using hline l hl
      obtain ⟨prose, hmem, hprose⟩ := hend.exists_prose hheading
      rw [← List.cons_append, tryReadHeadingBlock_append ⟨prose, by simp [hmem], hprose⟩,
        tryReadHeadingBlock_of_not_marker hmarkers]

/-- A heading block with a text behind it is a feat. -/
theorem featPiece_heading {nameLine : Str} (hname : isHeadingLine U nameLine = true)
    {heading : List Str} (hrun : ∀ line ∈ heading, isRunLine U line = true)
    (hmarker : ∃ line ∈ heading, isFeatLevelMarker line = true)
    (hlen : (heading.filter (isHeadingLine U)).length < maxHeadingBlockLines)
    {proseLine : Str} (hprose : isRunLine U proseLine = false) {prose : List Str}
    (hend : EndsInProse U (proseLine :: prose))
    (hbody : ∀ line ∈ proseLine :: prose, isFeatLevelMarker line = false) :
    FeatPiece U (nameLine :: (heading ++ proseLine :: prose)) []
      [⟨titleCase U nameLine, distinctTraits U (heading.filter (isHeadingLine U)),
        visibleLines (proseLine :: prose)⟩] := by
  have hpairs : (proseLine :: prose).Pairwise fun line later => ¬ (isHeadingLine U line = true ∧
      isFeatLevelMarker later = true) :=
    List.pairwise_of_forall_mem_list fun line _ later hlater => by simp [hbody later hlater]
  have hnext : heading.length ≤ (heading ++ proseLine :: prose).length := by simp
  apply FeatPiece.cons_heading hname hnext
  · intro rest
    have hread := tryReadHeadingBlock_run hname hrun hmarker hlen hprose (prose ++ rest)
    simpa using hread
  · rw [List.drop_left]
    exact featPiece_body hend hpairs

/-- Whatever ends in prose is a piece. -/
theorem exists_featPiece {ls : List Str} (hend : EndsInProse U ls) :
    ∃ body entries, FeatPiece U ls body entries := by
  induction hn : ls.length using Nat.strong_induction_on generalizing ls with
  | _ n ih =>
    cases ls with
    | nil => exact ⟨[], [], featPiece_nil⟩
    | cons line ls =>
      rw [List.length_cons] at hn
      obtain ⟨body, entries, hpiece⟩ := ih ls.length (by omega) hend.tail rfl
      rcases eq_or_ne line [] with rfl | hne
      · exact ⟨body, entries, hpiece.cons_nil⟩
      · by_cases hheading : isHeadingLine U line = true
        · obtain ⟨prose, hmem, hprose⟩ := hend.exists_prose hheading
          have hread : ∀ rest, tryReadHeadingBlock U (line :: (ls ++ rest)) 0 =
              tryReadHeadingBlock U (line :: ls) 0 := fun rest =>
            tryReadHeadingBlock_append ⟨prose, List.mem_cons_of_mem _ hmem, hprose⟩ rest
          cases hfound : tryReadHeadingBlock U (line :: ls) 0 with
          | none => exact ⟨_, _, hpiece.cons_body hne fun _ rest => (hread rest).trans hfound⟩
          | some found =>
            obtain ⟨name, traits, next⟩ := found
            have hpos := lt_of_tryReadHeadingBlock U hfound
            have hle := next_le_of_tryReadHeadingBlock hfound
            rw [List.length_cons] at hle
            obtain ⟨next, rfl⟩ : ∃ k, next = k + 1 := ⟨next - 1, by omega⟩
            obtain ⟨body', entries', hpiece'⟩ := ih (ls.drop next).length
              (by rw [List.length_drop]; omega) (hend.tail.drop next) rfl
            exact ⟨_, _, hpiece'.cons_heading hheading (by omega) fun rest =>
              (hread rest).trans hfound⟩
        · exact ⟨_, _, hpiece.cons_body hne fun h => absurd h hheading⟩

/-! ## Pages -/

/-- The feats that a splitter starts one after the other. -/
theorem finish_foldl_start {Entry : Type} (entries : List Entry) (state : Splitting Entry) :
    (entries.foldl Splitting.start state).finish = state.finish ++ entries := by
  induction entries generalizing state with
  | nil => simp
  | cons entry entries ih =>
    rw [List.foldl_cons, ih]
    simp [Splitting.start, Splitting.finish]

/-- The feats of a piece at the end of a page. -/
theorem FeatPiece.splitFeatFrom_eq {ls body : List Str} {entries : List RawFeatEntry}
    (h : FeatPiece U ls body entries) (state : Splitting RawFeatEntry) :
    splitFeatFrom U ls 0 state = (state.pushLines body).finish ++ entries := by
  have hread := h state []
  rwa [List.append_nil, splitFeatFrom_nil, finish_foldl_start] at hread

end Pf2eParser
