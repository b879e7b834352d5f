import Pf2eParser.BookAdapter

/-!
# Heading blocks of feats

The scan over a heading block passes blank lines, level markers and shouty lines.  It stops at the
first line of prose, or when it has collected more shouty lines than `MAX_HEADING_BLOCK_LINES`
(`IsScanned`).  What it returns is read off the lines that it passes, so whatever is known of a
heading block comes from `tryReadHeadingBlock_eq`.

The constant is meant as a bound on all lines of the block that are not blank.  But the scan does
not count level markers, it collects one shouty line more, and a scan that stops at the bound is no
rejection.  `heading_bounded_iff` says when the bound is kept.
-/

namespace Pf2eParser

open Text

variable (U : CaseTables)

/-! ## Lines -/

/-- A name line or a trait line: a shouty line that is no level marker. -/
def isHeadingLine (line : Str) : Bool := isShouty U line && !isFeatLevelMarker line

/-- The lines that the scan over a heading block passes: blank lines, level markers and shouty
lines. -/
def isRunLine (line : Str) : Bool := line.isEmpty || isFeatLevelMarker line || isShouty U line

/-- The lines that are not blank. -/
def visibleLines (ls : List Str) : List Str := ls.filter fun line => !line.isEmpty

variable {U}

@[simp] theorem visibleLines_nil : visibleLines [] = [] := rfl

@[simp] theorem visibleLines_cons_nil (ls : List Str) : visibleLines ([] :: ls) = visibleLines ls :=
  rfl

@[simp] theorem visibleLines_append (ls ls' : List Str) :
    visibleLines (ls ++ ls') = visibleLines ls ++ visibleLines ls' := List.filter_append ..

/-- A line that is not blank is visible. -/
theorem visibleLines_cons {line : Str} (h : line ≠ []) (ls : List Str) :
    visibleLines (line :: ls) = line :: visibleLines ls :=
  List.filter_cons_of_pos (by simpa using h)

/-- The visible lines are lines. -/
theorem mem_of_mem_visibleLines {line : Str} {ls : List Str} (h : line ∈ visibleLines ls) :
    line ∈ ls := List.mem_of_mem_filter h

/-- A blank line is not shouty. -/
@[simp] theorem isShouty_nil : isShouty U [] = false := rfl

/-- A blank line is no heading line. -/
@[simp] theorem isHeadingLine_nil : isHeadingLine U [] = false := rfl

/-- A heading line is not blank. -/
theorem ne_nil_of_isHeadingLine {line : Str} (h : isHeadingLine U line = true) : line ≠ [] := by
  rintro rfl
  exact absurd h (by simp)

/-- A heading line is no level marker. -/
theorem not_marker_of_isHeadingLine {line : Str} (h : isHeadingLine U line = true) :
    isFeatLevelMarker line = false := by
  rw [isHeadingLine, Bool.and_eq_true] at h
  simpa using h.2

/-- A heading line is passed by a scan. -/
theorem isRunLine_of_isHeadingLine {line : Str} (h : isHeadingLine U line = true) :
    isRunLine U line = true := by
  rw [isHeadingLine, Bool.and_eq_true] at h
  rw [isRunLine, h.1, Bool.or_true]

/-- A line that is passed by a scan is blank, a level marker, or a heading line. -/
theorem isRunLine_cases {line : Str} (h : isRunLine U line = true) :
    line = [] ∨ isFeatLevelMarker line = true ∨ isHeadingLine U line = true := by
  rcases eq_or_ne line [] with rfl | hne
  · exact Or.inl rfl
  · cases hmarker : isFeatLevelMarker line with
    | true => exact Or.inr (Or.inl rfl)
    | false =>
      refine Or.inr (Or.inr ?_)
      simpa [isRunLine, isHeadingLine, hne, hmarker] using h

/-! ## The scan over a heading block -/

/-- The scan passes a blank line. -/
theorem scanHeadingBlock_blank {shoutyLines : List Str}
    (hlen : shoutyLines.length ≤ maxHeadingBlockLines) (rest : List Str) (index : ℕ) (saw : Bool) :
    scanHeadingBlock U ([] :: rest) index shoutyLines saw =
      scanHeadingBlock U rest (index + 1) shoutyLines saw := by
  rw [scanHeadingBlock, if_neg (by omega), if_pos List.isEmpty_nil]

/-- The scan sees a level marker. -/
theorem scanHeadingBlock_level {marker : Str} (hmarker : isFeatLevelMarker marker = true)
    {shoutyLines : List Str} (hlen : shoutyLines.length ≤ maxHeadingBlockLines) (rest : List Str)
    (index : ℕ) (saw : Bool) :
    scanHeadingBlock U (marker :: rest) index shoutyLines saw =
      scanHeadingBlock U rest (index + 1) shoutyLines true := by
  have hne : marker ≠ [] := by
    rintro rfl
    exact absurd hmarker (by decide)
  rw [scanHeadingBlock, if_neg (by omega), if_neg (by simpa using hne), if_pos hmarker]

/-- The scan collects a heading line. -/
theorem scanHeadingBlock_title {line : Str} (hline : isHeadingLine U line = true)
    {shoutyLines : List Str} (hlen : shoutyLines.length ≤ maxHeadingBlockLines) (rest : List Str)
    (index : ℕ) (saw : Bool) :
    scanHeadingBlock U (line :: rest) index shoutyLines saw =
      scanHeadingBlock U rest (index + 1) (shoutyLines ++ [line]) saw := by
  have hne := ne_nil_of_isHeadingLine hline
  have hmarker := not_marker_of_isHeadingLine hline
  have hshouty : isShouty U line = true := (Bool.and_eq_true_iff.mp hline).1
  rw [scanHeadingBlock, if_neg (by omega), if_neg (by simpa using hne), if_neg (by simp [hmarker]),
    if_pos hshouty]

/-- A line of prose ends the scan. -/
theorem scanHeadingBlock_prose {line : Str} (hline : isRunLine U line = false) (rest : List Str)
    (index : ℕ) (shoutyLines : List Str) (saw : Bool) :
    scanHeadingBlock U (line :: rest) index shoutyLines saw = (shoutyLines, saw, index) := by
  simp only [isRunLine, Bool.or_eq_false_iff] at hline
  obtain ⟨⟨hempty, hmarker⟩, hshouty⟩ := hline
  simp only [scanHeadingBlock, hempty, hmarker, hshouty, Bool.false_eq_true, if_false, ite_self]

/-! ## The lines that a scan passes -/

variable (U) in
/-- A scan that has collected `k` shouty lines passes `block` and stops in front of `rest`. -/
structure IsScanned (k : ℕ) (block rest : List Str) : Prop where
  /-- The scan passes blank lines, level markers and shouty lines. -/
  run : ∀ line ∈ block, isRunLine U line = true
  /-- In front of each of them, there is room for more shouty lines. -/
  room : ∀ before line after, block = before ++ line :: after →
    k + before.countP (isHeadingLine U) ≤ maxHeadingBlockLines
  /-- The scan stops at a line of prose, or since there is no more room. -/
  stops : ∀ line ∈ rest.head?, isRunLine U line = true →
    maxHeadingBlockLines < k + block.countP (isHeadingLine U)

/-- The first line that a scan passes. -/
theorem isScanned_cons {k : ℕ} {line : Str} {block rest : List Str} :
    IsScanned U k (line :: block) rest ↔ k ≤ maxHeadingBlockLines ∧ isRunLine U line = true ∧
      IsScanned U (k + [line].countP (isHeadingLine U)) block rest := by
  have hcount : ∀ ls, k + (line :: ls).countP (isHeadingLine U) =
      k + [line].countP (isHeadingLine U) + ls.countP (isHeadingLine U) := by
    intro ls
    rw [← List.singleton_append, List.countP_append, Nat.add_assoc]
  constructor
  · intro h
    obtain ⟨hrun, hlater⟩ := List.forall_mem_cons.mp h.run
    refine ⟨h.room [] line block rfl, hrun, hlater, fun before line' after heq => ?_, ?_⟩
    · rw [← hcount]
      exact h.room (line :: before) line' after (by rw [heq, List.cons_append])
    · rw [← hcount]
      exact h.stops
  · rintro ⟨hroom, hrun, h⟩
    refine ⟨List.forall_mem_cons.mpr ⟨hrun, h.run⟩, fun before line' after heq => ?_, ?_⟩
    · cases before with
      | nil => exact hroom
      | cons first before =>
        obtain ⟨rfl, hblock⟩ := List.cons.inj heq
        rw [hcount]
        exact h.room before line' after hblock
    · rw [hcount]
      exact h.stops

/-- A scan passes some of the lines and stops. -/
theorem exists_isScanned (ls : List Str) (k : ℕ) :
    ∃ block rest, ls = block ++ rest ∧ IsScanned U k block rest := by
  induction ls generalizing k with
  | nil => exact ⟨[], [], rfl, by simp, by simp, by simp⟩
  | cons line ls ih =>
    by_cases hgo : k ≤ maxHeadingBlockLines ∧ isRunLine U line = true
    · obtain ⟨block, rest, rfl, h⟩ := ih (k + [line].countP (isHeadingLine U))
      exact ⟨line :: block, rest, rfl, isScanned_cons.mpr ⟨hgo.1, hgo.2, h⟩⟩
    · refine ⟨[], line :: ls, rfl, by simp, by simp, fun line' hline' hrun => ?_⟩
      obtain rfl : line = line' := Option.some.inj hline'
      by_contra hle
      exact hgo ⟨Nat.not_lt.mp hle, hrun⟩

/-- A scan passes a run of lines with a line of prose behind it, if there is room for them. -/
theorem isScanned_of_prose {k : ℕ} {block : List Str}
    (hrun : ∀ line ∈ block, isRunLine U line = true)
    (hroom : k + block.countP (isHeadingLine U) ≤ maxHeadingBlockLines) {prose : Str}
    (hprose : isRunLine U prose = false) (rest : List Str) :
    IsScanned U k block (prose :: rest) := by
  refine ⟨hrun, fun before line after heq => ?_, fun line hline hline' => ?_⟩
  · rw [heq, List.countP_append] at hroom
    omega
  · obtain rfl : prose = line := Option.some.inj hline
    exact absurd hline' (by simp [hprose])

/-- What is behind the line at which a scan stops does not matter. -/
theorem IsScanned.append {k : ℕ} {block rest : List Str} (h : IsScanned U k block rest)
    (hrest : rest ≠ []) (later : List Str) : IsScanned U k block (rest ++ later) := by
  refine ⟨h.run, h.room, ?_⟩
  rw [List.head?_append_of_ne_nil rest hrest]
  exact h.stops

/-- What a scan returns is in the lines that it passes. -/
theorem IsScanned.scanHeadingBlock_eq {block rest shoutyLines : List Str}
    (h : IsScanned U shoutyLines.length block rest) (index : ℕ) (saw : Bool) :
    scanHeadingBlock U (block ++ rest) index shoutyLines saw =
      (shoutyLines ++ block.filter (isHeadingLine U), saw || block.any isFeatLevelMarker,
        index + block.length) := by
  induction block generalizing shoutyLines index saw with
  | nil =>
    rw [List.nil_append]
    cases rest with
    | nil => simp [scanHeadingBlock]
    | cons line rest =>
      cases hrun : isRunLine U line with
      | false => simp [scanHeadingBlock_prose hrun]
      | true =>
        have hfull : maxHeadingBlockLines < shoutyLines.length := h.stops line rfl hrun
        rw [scanHeadingBlock, if_pos hfull]
        simp
  | cons line block ih =>
    obtain ⟨hroom, hrun, hlater⟩ := isScanned_cons.mp h
    rw [List.cons_append]
    rcases isRunLine_cases hrun with rfl | hmarker | hheading
    · have hnot : isFeatLevelMarker [] = false := by decide
      rw [scanHeadingBlock_blank hroom, ih (by simpa using hlater)]
      simp [hnot, Nat.add_assoc, Nat.add_comm 1]
    · have hnot : isHeadingLine U line = false := by simp [isHeadingLine, hmarker]
      rw [scanHeadingBlock_level hmarker hroom, ih (by simpa [hnot] using hlater)]
      simp [hmarker, hnot, Nat.add_assoc, Nat.add_comm 1]
    · rw [scanHeadingBlock_title hheading hroom, ih (by simpa [hheading] using hlater)]
      simp [hheading, not_marker_of_isHeadingLine hheading, Nat.add_assoc, Nat.add_comm 1]

/-! ## The block that is read -/

section Read

variable {lines block rest : List Str} {start : ℕ}

/-- A heading block is read from the lines that the scan passes: there must be a shouty line and a
level marker among them. -/
theorem tryReadHeadingBlock_eq (hlines : lines.drop start = block ++ rest)
    (h : IsScanned U 0 block rest) :
    tryReadHeadingBlock U lines start = match block.filter (isHeadingLine U) with
      | [] => none
      | nameLine :: traitLines =>
        if block.any isFeatLevelMarker then
          some (titleCase U nameLine, distinctTraits U traitLines, start + block.length)
        else none := by
  unfold tryReadHeadingBlock
  rw [hlines, @IsScanned.scanHeadingBlock_eq U block rest [] h, List.nil_append, Bool.false_or]
  cases block.filter (isHeadingLine U) <;> cases block.any isFeatLevelMarker <;> rfl

/-- When the lines that the scan passes are a heading block. -/
theorem tryReadHeadingBlock_ne_none_iff (hlines : lines.drop start = block ++ rest)
    (h : IsScanned U 0 block rest) :
    tryReadHeadingBlock U lines start ≠ none ↔
      (∃ line ∈ block, isHeadingLine U line = true) ∧
        ∃ line ∈ block, isFeatLevelMarker line = true := by
  rw [tryReadHeadingBlock_eq hlines h, ← List.any_eq_true (p := isFeatLevelMarker)]
  have hnil : (∃ line ∈ block, isHeadingLine U line = true) ↔
      block.filter (isHeadingLine U) ≠ [] := by
    simp [List.filter_eq_nil_iff]
  rw [hnil]
  cases block.filter (isHeadingLine U) <;> cases block.any isFeatLevelMarker <;> simp

/-- A heading block ends where the scan stops. -/
theorem next_eq_of_tryReadHeadingBlock (hlines : lines.drop start = block ++ rest)
    (h : IsScanned U 0 block rest) {name : Str} {traits : List Str} {next : ℕ}
    (hread : tryReadHeadingBlock U lines start = some (name, traits, next)) :
    next = start + block.length := by
  rw [tryReadHeadingBlock_eq hlines h] at hread
  split at hread
  case h_1 => exact absurd hread (by simp)
  case h_2 =>
    split at hread
    case isTrue =>
      obtain ⟨-, -, hnext⟩ : _ ∧ _ ∧ start + block.length = next := by simpa using hread
      exact hnext.symm
    case isFalse => exact absurd hread (by simp)

/-- A heading block ends on the page. -/
theorem next_le_of_tryReadHeadingBlock {ls : List Str} {name : Str} {traits : List Str} {next : ℕ}
    (h : tryReadHeadingBlock U ls 0 = some (name, traits, next)) : next ≤ ls.length := by
  obtain ⟨block, rest, hls, hscan⟩ := @exists_isScanned U ls 0
  have hdrop : ls.drop 0 = block ++ rest := hls
  rw [next_eq_of_tryReadHeadingBlock hdrop hscan h, hls, List.length_append, Nat.zero_add]
  exact Nat.le_add_right _ _

/-- A heading block is read from its own lines on. -/
theorem tryReadHeadingBlock_drop (lines : List Str) (start : ℕ) :
    tryReadHeadingBlock U lines start =
      (tryReadHeadingBlock U (lines.drop start) 0).map fun found =>
        (found.1, found.2.1, found.2.2 + start) := by
  obtain ⟨block, rest, hlines, hscan⟩ := @exists_isScanned U (lines.drop start) 0
  have hdrop : (lines.drop start).drop 0 = block ++ rest := hlines
  rw [tryReadHeadingBlock_eq hlines hscan, tryReadHeadingBlock_eq hdrop hscan, Nat.zero_add,
    Nat.add_comm start]
  cases block.filter (isHeadingLine U) <;> cases block.any isFeatLevelMarker <;> rfl

/-- A heading block with prose behind it. -/
theorem tryReadHeadingBlock_run {nameLine : Str} (hname : isHeadingLine U nameLine = true)
    {ls : List Str} (hrun : ∀ line ∈ ls, isRunLine U line = true)
    (hmarker : ∃ line ∈ ls, isFeatLevelMarker line = true)
    (hlen : (ls.filter (isHeadingLine U)).length < maxHeadingBlockLines)
    {prose : Str} (hprose : isRunLine U prose = false) (rest : List Str) :
    tryReadHeadingBlock U (nameLine :: ls ++ prose :: rest) 0 =
      some (titleCase U nameLine, distinctTraits U (ls.filter (isHeadingLine U)),
        ls.length + 1) := by
  have hall : ∀ line ∈ nameLine :: ls, isRunLine U line = true :=
    List.forall_mem_cons.mpr ⟨isRunLine_of_isHeadingLine hname, hrun⟩
  have hroom : 0 + (nameLine :: ls).countP (isHeadingLine U) ≤ maxHeadingBlockLines := by
    rw [List.countP_cons_of_pos hname, List.countP_eq_length_filter]
    omega
  have hsaw : (nameLine :: ls).any isFeatLevelMarker = true :=
    List.any_eq_true.mpr (by simpa using Or.inr hmarker)
  rw [tryReadHeadingBlock_eq rfl (isScanned_of_prose hall hroom hprose rest),
    List.filter_cons_of_pos hname]
  dsimp only
  rw [if_pos hsaw, List.length_cons, Nat.zero_add]

/-- A line of prose ends the reading of a heading block. -/
theorem tryReadHeadingBlock_append {ls : List Str} (h : ∃ line ∈ ls, isRunLine U line = false)
    (rest : List Str) : tryReadHeadingBlock U (ls ++ rest) 0 = tryReadHeadingBlock U ls 0 := by
  obtain ⟨block, stopped, rfl, hscan⟩ := @exists_isScanned U ls 0
  have hstopped : stopped ≠ [] := by
    rintro rfl
    obtain ⟨prose, hmem, hprose⟩ := h
    rw [List.append_nil] at hmem
    exact absurd (hscan.run prose hmem) (by simp [hprose])
  have hdrop : (block ++ stopped ++ rest).drop 0 = block ++ (stopped ++ rest) :=
    List.append_assoc block stopped rest
  rw [tryReadHeadingBlock_eq hdrop (hscan.append hstopped rest), tryReadHeadingBlock_eq rfl hscan]

/-- There is no heading block without level markers. -/
theorem tryReadHeadingBlock_of_not_marker {ls : List Str}
    (h : ∀ line ∈ ls, isFeatLevelMarker line = false) : tryReadHeadingBlock U ls 0 = none := by
  obtain ⟨block, rest, rfl, hscan⟩ := @exists_isScanned U ls 0
  by_contra hne
  obtain ⟨-, marker, hmem, hmarker⟩ := (tryReadHeadingBlock_ne_none_iff rfl hscan).mp hne
  exact absurd hmarker (by simp [h marker (List.mem_append_left _ hmem)])

end Read

/-! ## The bound -/

variable (U) in
/-- The blank lines, level markers and shouty lines from an index on, up to the first line of prose
or the end of the page. -/
def headingRun (lines : List Str) (start : ℕ) : List Str :=
  (lines.drop start).takeWhile (isRunLine U)

variable (U) in
/-- The bound holds for all lines that are not blank: no heading block has more of them, and a run
with more of them is no heading block. -/
structure HeadingBounded (lines : List Str) (start : ℕ) : Prop where
  within : ∀ name traits next, tryReadHeadingBlock U lines start = some (name, traits, next) →
    (visibleLines ((lines.take next).drop start)).length ≤ maxHeadingBlockLines
  rejected : maxHeadingBlockLines < (visibleLines (headingRun U lines start)).length →
    tryReadHeadingBlock U lines start = none

/-- A scan passes lines of the run, all of them unless it stops at the bound. -/
theorem exists_isScanned_headingRun (lines : List Str) (start : ℕ) :
    ∃ block later rest, lines.drop start = block ++ rest ∧
      headingRun U lines start = block ++ later ∧ IsScanned U 0 block rest ∧
        (later ≠ [] → maxHeadingBlockLines < block.countP (isHeadingLine U)) := by
  obtain ⟨block, rest, hlines, h⟩ := @exists_isScanned U (lines.drop start) 0
  have hrun : headingRun U lines start = block ++ rest.takeWhile (isRunLine U) := by
    unfold headingRun
    rw [hlines, List.takeWhile_append_of_pos h.run]
  refine ⟨block, _, rest, hlines, hrun, h, fun hne => ?_⟩
  obtain ⟨line, later, heq⟩ := List.exists_cons_of_ne_nil hne
  have hline : isRunLine U line = true :=
    List.mem_takeWhile_imp (heq ▸ List.mem_cons_self)
  have hhead : line ∈ rest.head? := by
    cases rest with
    | nil => simp at heq
    | cons first rest =>
      rw [List.takeWhile_cons] at heq
      split at heq
      case isTrue =>
        obtain ⟨rfl, -⟩ := List.cons.inj heq
        rfl
      case isFalse => simp at heq
  simpa using h.stops line hhead hline

/-- A line of the run that the scan does not get to is behind all that it has collected. -/
theorem lt_countP_of_not_scanned {block later before after : List Str} {line : Str}
    (hlater : later ≠ [] → maxHeadingBlockLines < block.countP (isHeadingLine U))
    (heq : block ++ later = before ++ line :: after) (hmem : line ∉ block) :
    maxHeadingBlockLines < before.countP (isHeadingLine U) := by
  have hsome : later ≠ [] := by
    rintro rfl
    rw [List.append_nil] at heq
    exact hmem (heq ▸ by simp)
  have hfront : block <+: before := by
    rcases List.append_eq_append_iff.mp heq with ⟨middle, rfl, -⟩ | ⟨middle, rfl, hmiddle⟩
    · exact List.prefix_append _ _
    · cases middle with
      | nil => simp
      | cons first middle =>
        obtain ⟨rfl, -⟩ := List.cons.inj hmiddle
        exact absurd (by simp) hmem
  exact (hlater hsome).trans_le (hfront.sublist.countP_le)

/-- When a run is rejected: it has no shouty line, or no level marker that the scan gets to. -/
theorem tryReadHeadingBlock_eq_none_iff (lines : List Str) (start : ℕ) :
    tryReadHeadingBlock U lines start = none ↔
      (∀ line ∈ headingRun U lines start, isHeadingLine U line = false) ∨
      ∀ before marker after, headingRun U lines start = before ++ marker :: after →
        isFeatLevelMarker marker = true →
          maxHeadingBlockLines < before.countP (isHeadingLine U) := by
  obtain ⟨block, later, rest, hlines, hrun, hscan, hlater⟩ :=
    @exists_isScanned_headingRun U lines start
  have hread := tryReadHeadingBlock_ne_none_iff hlines hscan
  constructor
  · intro hnone
    have hnot := mt hread.mpr (not_not.mpr hnone)
    by_cases hheading : ∃ line ∈ block, isHeadingLine U line = true
    · refine Or.inr fun before marker after heq hmarker => ?_
      have hmem : marker ∉ block := fun hmem => hnot ⟨hheading, marker, hmem, hmarker⟩
      exact lt_countP_of_not_scanned hlater (hrun.symm.trans heq) hmem
    · left
      have hall : later = [] := by
        by_contra hne
        have hcount : block.countP (isHeadingLine U) = 0 :=
          List.countP_eq_zero.mpr fun line hline hline' => hheading ⟨line, hline, hline'⟩
        exact absurd (hlater hne) (by simp [hcount])
      rw [hrun, hall, List.append_nil]
      exact fun line hline => by simpa using fun hline' => hheading ⟨line, hline, hline'⟩
  · intro h
    by_contra hne
    obtain ⟨⟨line, hline, hheading⟩, marker, hmem, hmarker⟩ := hread.mp hne
    rcases h with hprose | hlate
    · exact absurd hheading (by simp [hprose line (hrun ▸ List.mem_append_left _ hline)])
    · obtain ⟨before, after, rfl⟩ := List.append_of_mem hmem
      have hlt := hlate before marker (after ++ later) (by rw [hrun]; simp) hmarker
      have hroom := hscan.room before marker after rfl
      omega

/-- A heading block has no other lines than the run. -/
theorem length_heading_le {lines : List Str} {start : ℕ} {name : Str} {traits : List Str}
    {next : ℕ} (hread : tryReadHeadingBlock U lines start = some (name, traits, next)) :
    (visibleLines ((lines.take next).drop start)).length ≤
      (visibleLines (headingRun U lines start)).length := by
  obtain ⟨block, later, rest, hlines, hrun, hscan, -⟩ :=
    @exists_isScanned_headingRun U lines start
  have hblock : (lines.take next).drop start = block := by
    rw [next_eq_of_tryReadHeadingBlock hlines hscan hread, List.drop_take, hlines]
    simp
  rw [hblock, hrun, visibleLines_append, List.length_append]
  exact Nat.le_add_right _ _

/-- The bound is kept exactly if there are not more lines in the run, or if the run is rejected for
another reason: it has no shouty line, or it has no level marker that the scan gets to. -/
theorem heading_bounded_iff (U : CaseTables) (lines : List Str) (start : ℕ) :
    HeadingBounded U lines start ↔
      (visibleLines (headingRun U lines start)).length ≤ maxHeadingBlockLines ∨
      (∀ line ∈ headingRun U lines start, isHeadingLine U line = false) ∨
      ∀ before marker after, headingRun U lines start = before ++ marker :: after →
        isFeatLevelMarker marker = true →
          maxHeadingBlockLines < before.countP (isHeadingLine U) := by
  rw [← tryReadHeadingBlock_eq_none_iff]
  constructor
  · intro h
    rcases Nat.lt_or_ge maxHeadingBlockLines (visibleLines (headingRun U lines start)).length with
      hmany | hfew
    · exact Or.inr (h.rejected hmany)
    · exact Or.inl hfew
  · rintro (hfew | hnone)
    · exact ⟨fun name traits next hread => (length_heading_le hread).trans hfew,
        fun hmany => absurd hfew (Nat.not_le.mpr hmany)⟩
    · exact ⟨fun name traits next hread => absurd (hnone.symm.trans hread) (by simp),
        fun _ => hnone⟩

/-- Level markers are not counted: a name with eight of them is read as a heading block. -/
theorem heading_not_bounded : ¬ ∀ (lines : List Str) (start : ℕ),
    HeadingBounded .ascii lines start := by
  intro h
  have hle := (h ("STRIDE".toList :: List.replicate 8 "FEAT 1".toList) 0).within
    "Stride".toList [] 9 (by decide +kernel)
  exact absurd hle (by decide)

end Pf2eParser
