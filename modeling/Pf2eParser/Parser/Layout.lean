import Pf2eParser.Parser.Confidence

/-!
# Layout

Two blocks with the same trimmed nonblank lines are two layouts of one block.  All fields of a
candidate are read from these lines, except that the names in double brackets are looked for in the
block as it stands.  `markedNames` follows that search on the lines alone; what it finds are the
names up to layout (`map_blockLines_references`), and so the layout of a block does not matter
exactly when every name stands on one line (`layout_iff`).
-/

namespace Pf2eParser

open Text

variable {U : CaseTables}

/-! ## The lines of composed texts -/

/-- A line feed separates the lines in front of it from the lines behind it. -/
theorem blockLines_append_feed (a b : Str) :
    blockLines (a ++ '\n' :: b) = blockLines a ++ blockLines b := by
  simp only [blockLines_eq_filter, List.splitOn_append_cons_self, List.map_append,
    List.filter_append]

/-- A text without line feeds is one line, unless it is blank. -/
theorem blockLines_of_notMem {s : Str} (h : '\n' ∉ s) : blockLines s = trimmedLines [s] := by
  rw [blockLines_eq_filter, List.splitOn_eq_singleton h, trimmedLines]

/-- Blank lines and lines in front of others. -/
theorem feed_induction {motive : Str → Prop} (last : ∀ s, '\n' ∉ s → motive s)
    (line : ∀ l s, '\n' ∉ l → motive s → motive (l ++ '\n' :: s)) (s : Str) : motive s := by
  have hpat : ['\n'] ≠ [] := by simp
  induction s using split_induction hpat with
  | whole s hnone =>
    apply last
    rwa [splitOnce_eq_none_iff, List.singleton_infix_iff] at hnone
  | cut s a b hcut ih =>
    obtain ⟨rfl, ha⟩ := splitOnce_singleton_iff.mp hcut
    exact line a b ha ih

/-- Whitespace at the ends of a line does not matter. -/
theorem trimmedLines_pad {pre s post : Str} (hpre : ∀ c ∈ pre, isWhitespace c = true)
    (hpost : ∀ c ∈ post, isWhitespace c = true) :
    trimmedLines [pre ++ s ++ post] = trimmedLines [s] := by
  simp only [trimmedLines, List.map_singleton, trim_append hpre hpost]

/-- Whitespace in front of a text does not change its lines. -/
theorem blockLines_append_left {pre : Str} (hpre : ∀ c ∈ pre, isWhitespace c = true) (s : Str) :
    blockLines (pre ++ s) = blockLines s := by
  induction pre with
  | nil => rfl
  | cons c pre ih =>
    rw [List.cons_append, ← ih fun d hd => hpre d (by simp [hd])]
    have hc : ∀ d ∈ [c], isWhitespace d = true := by simpa using hpre c (by simp)
    by_cases hfeed : c = '\n'
    · subst hfeed
      exact blockLines_append_feed [] _
    · generalize pre ++ s = t
      induction t using feed_induction with
      | last t ht =>
        rw [blockLines_of_notMem ht, blockLines_of_notMem (by simp [Ne.symm hfeed, ht])]
        simpa using @trimmedLines_pad [c] t [] hc (by simp)
      | line l t hl _ =>
        rw [← List.cons_append, blockLines_append_feed, blockLines_append_feed,
          blockLines_of_notMem hl, blockLines_of_notMem (by simp [Ne.symm hfeed, hl])]
        simpa using @trimmedLines_pad [c] l [] hc (by simp)

/-- A blank text has no lines. -/
theorem blockLines_eq_nil {s : Str} (h : ∀ c ∈ s, isWhitespace c = true) : blockLines s = [] := by
  rw [← List.append_nil s, blockLines_append_left h]
  rfl

/-- Whitespace behind a text does not change its lines. -/
theorem blockLines_append_right (s : Str) {post : Str} (hpost : ∀ c ∈ post, isWhitespace c = true) :
    blockLines (s ++ post) = blockLines s := by
  induction s using feed_induction with
  | last s hs =>
    induction post using feed_induction with
    | last post hfeed =>
      rw [blockLines_of_notMem hs, blockLines_of_notMem (by simp [hs, hfeed])]
      simpa using @trimmedLines_pad [] s post (by simp) hpost
    | line l post hl _ =>
      have hl' : ∀ c ∈ l, isWhitespace c = true := fun c hc => hpost c (by simp [hc])
      have hblank : blockLines post = [] := blockLines_eq_nil fun c hc => hpost c (by simp [hc])
      rw [← List.append_assoc, blockLines_append_feed, hblank, List.append_nil,
        blockLines_of_notMem hs, blockLines_of_notMem (by simp [hs, hl])]
      simpa using @trimmedLines_pad [] s l (by simp) hl'
  | line l s hl ih =>
    rw [List.append_assoc, List.cons_append, blockLines_append_feed, blockLines_append_feed, ih]

/-- Trimming a text does not change its lines. -/
theorem blockLines_trim (s : Str) : blockLines (trim s) = blockLines s := by
  obtain ⟨pre, post, heq, hpre, hpost⟩ := exists_eq_append_trim s
  conv_rhs => rw [heq]
  rw [blockLines_append_right _ hpost, blockLines_append_left hpre]

/-- A text has a line if it is not blank. -/
theorem blockLines_ne_nil {s : Str} {c : Char} (hc : c ∈ s) (hspace : isWhitespace c = false) :
    blockLines s ≠ [] := by
  induction s using feed_induction with
  | last s hs =>
    have hne : trim s ≠ [] := fun hnil =>
      absurd (trim_eq_nil_iff.mp hnil c hc) (by simp [hspace])
    simpa [blockLines_of_notMem hs, trimmedLines] using hne
  | line l s hl ih =>
    rw [blockLines_append_feed]
    intro hnil
    obtain ⟨hfront, hback⟩ := List.append_eq_nil_iff.mp hnil
    rcases List.mem_append.mp hc with hc | hc
    · have hne : trim l ≠ [] := fun hnil =>
        absurd (trim_eq_nil_iff.mp hnil c hc) (by simp [hspace])
      simp [blockLines_of_notMem hl, trimmedLines, hne] at hfront
    · rcases List.mem_cons.mp hc with rfl | hc
      · exact absurd hspace (by decide)
      · exact ih hc hback

/-- The lines of a block are single and solid. -/
theorem isLine_of_mem_blockLines {block line : Str} (h : line ∈ blockLines block) :
    IsLine line := by
  rw [blockLines_eq_filter] at h
  obtain ⟨hmem, hne⟩ := List.mem_filter.mp h
  obtain ⟨piece, hpiece, rfl⟩ := List.mem_map.mp hmem
  refine ⟨isSolid_trim (by simpa using hne), fun hfeed => ?_⟩
  exact absurd (eq_false_of_mem_splitOnP hpiece _ (mem_of_mem_trim hfeed)) (by decide)

/-- A solid text with at most one line is that line. -/
theorem blockLines_eq_singleton {s : Str} (hs : IsSolid s) :
    blockLines s = [s] ↔ (blockLines s).length ≤ 1 := by
  refine ⟨fun h => by rw [h, List.length_singleton], fun h => ?_⟩
  by_cases hfeed : '\n' ∈ s
  · obtain ⟨a, b, rfl⟩ := List.append_of_mem hfeed
    have hspace : isWhitespace '\n' = true := by decide
    -- there is something visible on both sides of the line feed
    have ha : blockLines a ≠ [] := by
      cases a with
      | nil => exact absurd (hs.head '\n' rfl) (by simp [hspace])
      | cons c a => exact blockLines_ne_nil List.mem_cons_self (hs.head c rfl)
    have hb : blockLines b ≠ [] := by
      rcases List.eq_nil_or_concat' b with rfl | ⟨b, c, rfl⟩
      · exact absurd (hs.last '\n' (by simp)) (by simp [hspace])
      · rw [← List.cons_append, ← List.append_assoc] at hs
        exact blockLines_ne_nil (List.mem_append_right _ (List.mem_singleton_self c))
          (hs.last c List.getLast?_concat)
    have hposa := List.length_pos_iff.mpr ha
    have hposb := List.length_pos_iff.mpr hb
    rw [blockLines_append_feed, List.length_append] at h
    omega
  · simp [blockLines_of_notMem hfeed, trimmedLines, hs.trim_eq, hs.ne_nil]

/-! ## Cuts in lines -/

/-- The lines in front of the first occurrence of a pattern, and the lines behind it. -/
def cutLines (pat : Str) : List Str → Option (List Str × List Str)
  | [] => none
  | line :: ls => match splitOnce pat line with
    | some (a, b) => some (trimmedLines [a], trimmedLines [b] ++ ls)
    | none => (cutLines pat ls).map fun entry => (line :: entry.1, entry.2)

section Cuts

variable {pat : Str}

/-- Lines without the pattern, in front of others. -/
theorem cutLines_append_of_none {ls ls' : List Str} (h : cutLines pat ls = none) :
    cutLines pat (ls ++ ls') = (cutLines pat ls').map fun entry => (ls ++ entry.1, entry.2) := by
  induction ls with
  | nil => simp
  | cons line ls ih =>
    rw [cutLines] at h
    cases hcut : splitOnce pat line with
    | some entry => simp [hcut] at h
    | none =>
      rw [hcut] at h
      rw [List.cons_append, cutLines, hcut, ih (Option.map_eq_none_iff.mp h)]
      simp only [Option.map_map]
      rfl

/-- Lines with the pattern, in front of others. -/
theorem cutLines_append_of_some {ls ls' front back : List Str}
    (h : cutLines pat ls = some (front, back)) :
    cutLines pat (ls ++ ls') = some (front, back ++ ls') := by
  induction ls generalizing front with
  | nil => simp [cutLines] at h
  | cons line ls ih =>
    rw [cutLines] at h
    rw [List.cons_append, cutLines]
    cases hcut : splitOnce pat line with
    | some entry =>
      simp only [hcut, Option.some.injEq, Prod.mk.injEq] at h ⊢
      exact ⟨h.1, by rw [← h.2, List.append_assoc]⟩
    | none =>
      simp only [hcut, Option.map_eq_some_iff] at h ⊢
      obtain ⟨⟨front', back'⟩, hls, heq⟩ := h
      obtain ⟨rfl, rfl⟩ := Prod.mk.inj heq
      exact ⟨_, ih hls, rfl⟩

/-- A cut in a single line. -/
theorem cutLines_trimmedLines (hne : pat ≠ []) (hpat : ∀ c ∈ pat, isWhitespace c = false)
    (s : Str) :
    cutLines pat (trimmedLines [s]) = (splitOnce pat s).map fun entry =>
      (trimmedLines [entry.1], trimmedLines [entry.2]) := by
  obtain ⟨pre, post, heq, hpre, hpost⟩ := exists_eq_append_trim s
  have hcut : splitOnce pat s = (splitOnce pat (trim s)).map fun entry =>
      (pre ++ entry.1, entry.2 ++ post) := by
    cases htrim : splitOnce pat (trim s) with
    | none =>
      rw [splitOnce_eq_none_iff, infix_trim_iff hne hpat] at htrim
      exact splitOnce_eq_none_iff.mpr htrim
    | some entry =>
      have hfront : ∀ c ∈ pat, c ∉ pre := fun c hc hmem =>
        absurd (hpre c hmem) (by simp [hpat c hc])
      conv_lhs => rw [heq]
      exact splitOnce_append_right hne (splitOnce_append_left hne hfront htrim) post
  rw [hcut, Option.map_map]
  by_cases hblank : trim s = []
  · rw [hblank, trimmedLines, List.map_singleton, hblank]
    simp [cutLines, splitOnce, hne]
  · rw [trimmedLines, List.map_singleton, List.filter_cons_of_pos (by simpa using hblank),
      List.filter_nil, cutLines]
    cases splitOnce pat (trim s) with
    | none => rfl
    | some entry =>
      have hleft := @trimmedLines_pad pre entry.1 [] hpre (by simp)
      have hright := @trimmedLines_pad [] entry.2 post (by simp) hpost
      rw [List.append_nil] at hleft
      rw [List.nil_append] at hright
      simp [hleft, hright]

/-- The lines around the first occurrence of a pattern in a text. -/
theorem cutLines_blockLines (hne : pat ≠ []) (hpat : ∀ c ∈ pat, isWhitespace c = false) (s : Str) :
    cutLines pat (blockLines s) = (splitOnce pat s).map fun entry =>
      (blockLines entry.1, blockLines entry.2) := by
  have hfeed : '\n' ∉ pat := fun hmem => absurd (hpat '\n' hmem) (by decide)
  induction s using feed_induction with
  | last s hs =>
    rw [blockLines_of_notMem hs, cutLines_trimmedLines hne hpat]
    cases hcut : splitOnce pat s with
    | none => rfl
    | some entry =>
      have hparts := splitOnce_append hcut
      rw [Option.map_some, Option.map_some,
        blockLines_of_notMem fun hmem => hs (by simp [← hparts, hmem]),
        blockLines_of_notMem fun hmem => hs (by simp [← hparts, hmem])]
  | line l s hl ih =>
    have hline := cutLines_trimmedLines hne hpat l
    rw [blockLines_append_feed, blockLines_of_notMem hl]
    cases hcut : splitOnce pat l with
    | some entry =>
      obtain ⟨a, b⟩ := entry
      have hparts := splitOnce_append hcut
      have ha : '\n' ∉ a := fun hmem => hl (by simp [← hparts, hmem])
      have hb : '\n' ∉ b := fun hmem => hl (by simp [← hparts, hmem])
      rw [hcut, Option.map_some] at hline
      rw [cutLines_append_of_some hline, splitOnce_append_right hne hcut, Option.map_some,
        blockLines_append_feed, blockLines_of_notMem ha, blockLines_of_notMem hb]
    | none =>
      rw [hcut, Option.map_none] at hline
      rw [cutLines_append_of_none hline, ih, splitOnce_append_cons hne hfeed hcut, Option.map_map,
        Option.map_map]
      congr 1
      funext entry
      simp [blockLines_append_feed, blockLines_of_notMem hl]

end Cuts

/-! ## Names in lines -/

/-- What opens a name. -/
def openBrackets : Str := "[[".toList

/-- What closes a name. -/
def closeBrackets : Str := "]]".toList

/-- The number of characters in lines. -/
def lineSize (ls : List Str) : ℕ := (ls.map List.length).sum

/-- Behind a cut there are fewer characters. -/
theorem lineSize_cutLines {pat : Str} (hpat : pat ≠ []) {ls front back : List Str}
    (h : cutLines pat ls = some (front, back)) : lineSize back < lineSize ls := by
  induction ls generalizing front with
  | nil => simp [cutLines] at h
  | cons line ls ih =>
    rw [cutLines] at h
    cases hcut : splitOnce pat line with
    | some entry =>
      obtain ⟨a, b⟩ := entry
      simp only [hcut, Option.some.injEq, Prod.mk.injEq] at h
      have hlt := length_lt_of_splitOnce hpat hcut
      have hle : lineSize (trimmedLines [b]) ≤ b.length := by
        have htrim := (trim_isInfix b).length_le
        by_cases hblank : trim b = [] <;> simp [trimmedLines, lineSize, hblank, htrim]
      rw [← h.2]
      simp only [lineSize, List.map_append, List.sum_append, List.map_cons, List.sum_cons] at hle ⊢
      omega
    | none =>
      simp only [hcut, Option.map_eq_some_iff] at h
      obtain ⟨⟨front', back'⟩, hls, heq⟩ := h
      obtain ⟨-, rfl⟩ := Prod.mk.inj heq
      have hlt := ih hls
      simp only [lineSize, List.map_cons, List.sum_cons] at hlt ⊢
      omega

/-- The names in double brackets that the search finds in lines; each name is a list of lines. -/
def markedNames (ls : List Str) : List (List Str) :=
  match _hopen : cutLines openBrackets ls with
  | none => []
  | some (_, opened) => match _hclose : cutLines closeBrackets opened with
    | none => []
    | some (name, rest) => (if name.isEmpty then [] else [name]) ++ markedNames rest
termination_by lineSize ls
decreasing_by
  exact (lineSize_cutLines (by decide) _hclose).trans (lineSize_cutLines (by decide) _hopen)

/-! ## The search in a block -/

/-- A search finds nothing where there is nothing to cut. -/
theorem find_of_splitOnce_none {pat s : Str} (h : splitOnce pat s = none) : find pat s = none := by
  rw [find, h, Option.map_none]

/-- A search finds the end of what stands in front of the cut. -/
theorem find_of_splitOnce {pat s a b : Str} (h : splitOnce pat s = some (a, b)) :
    find pat s = some a.length := by
  rw [find, h, Option.map_some]

/-- Without an opening there are no names. -/
theorem references_unopened {s : Str} (h : splitOnce openBrackets s = none) :
    extractBracketedReferences s = [] := by
  have hfind : find "[[".toList s = none := find_of_splitOnce_none h
  rw [extractBracketedReferences, bracketedReferencesFrom]
  split
  case h_1 => rfl
  case h_2 start hstart => exact absurd (hfind.symm.trans hstart) (by simp)

/-- What is behind the opening. -/
theorem drop_of_openBrackets {s before opened : Str}
    (h : splitOnce openBrackets s = some (before, opened)) :
    s.drop (before.length + 2) = opened := by
  have hlen : before.length + 2 = (before ++ openBrackets).length := by
    rw [List.length_append]; rfl
  rw [← splitOnce_append h, hlen, List.drop_left]

/-- What is in front of the closing and what is behind it. -/
theorem take_drop_of_closeBrackets {opened name rest : Str}
    (h : splitOnce closeBrackets opened = some (name, rest)) :
    opened.take name.length = name ∧ opened.drop (name.length + 2) = rest := by
  have hlen : name.length + 2 = (name ++ closeBrackets).length := by
    rw [List.length_append]; rfl
  rw [← splitOnce_append h]
  exact ⟨by rw [List.append_assoc, List.take_left], by rw [hlen, List.drop_left]⟩

/-- Without a closing behind it, an opening opens nothing. -/
theorem references_unclosed {s before opened : Str}
    (h : splitOnce openBrackets s = some (before, opened))
    (hclose : splitOnce closeBrackets opened = none) : extractBracketedReferences s = [] := by
  have hfind : find "[[".toList s = some before.length := find_of_splitOnce h
  have hfindClose : find "]]".toList opened = none := find_of_splitOnce_none hclose
  rw [extractBracketedReferences, bracketedReferencesFrom]
  split
  case h_1 hnone => exact absurd (hfind.symm.trans hnone) (by simp)
  case h_2 start hstart =>
    obtain rfl : before.length = start := Option.some.inj (hfind.symm.trans hstart)
    rw [← drop_of_openBrackets h] at hfindClose
    dsimp only
    split
    case h_1 => rfl
    case h_2 stop hstop => exact absurd (hfindClose.symm.trans hstop) (by simp)

/-- A name is between an opening and the next closing, and the search goes on behind it. -/
theorem references_named {s before opened name rest : Str}
    (h : splitOnce openBrackets s = some (before, opened))
    (hclose : splitOnce closeBrackets opened = some (name, rest)) :
    extractBracketedReferences s =
      (if (trim name).isEmpty then [] else [trim name]) ++ extractBracketedReferences rest := by
  have hfind : find "[[".toList s = some before.length := find_of_splitOnce h
  have hfindClose : find "]]".toList opened = some name.length := find_of_splitOnce hclose
  obtain ⟨htake, hdrop⟩ := take_drop_of_closeBrackets hclose
  rw [extractBracketedReferences, bracketedReferencesFrom]
  split
  case h_1 hnone => exact absurd (hfind.symm.trans hnone) (by simp)
  case h_2 start hstart =>
    obtain rfl : before.length = start := Option.some.inj (hfind.symm.trans hstart)
    rw [← drop_of_openBrackets h] at hfindClose
    dsimp only
    split
    case h_1 hnone => exact absurd (hfindClose.symm.trans hnone) (by simp)
    case h_2 stop hstop =>
      obtain rfl : name.length = stop := Option.some.inj (hfindClose.symm.trans hstop)
      rw [drop_of_openBrackets h, htake, hdrop, extractBracketedReferences]
      by_cases hblank : (trim name).isEmpty <;> simp [hblank]

/-- The search for names reads a block from one name to the next. -/
theorem references_induction {motive : Str → Prop}
    (unopened : ∀ s, splitOnce openBrackets s = none → motive s)
    (unclosed : ∀ s before opened, splitOnce openBrackets s = some (before, opened) →
      splitOnce closeBrackets opened = none → motive s)
    (named : ∀ s before opened name rest, splitOnce openBrackets s = some (before, opened) →
      splitOnce closeBrackets opened = some (name, rest) → motive rest → motive s)
    (s : Str) : motive s := by
  induction hlen : s.length using Nat.strong_induction_on generalizing s with
  | _ n ih =>
    cases hopen : splitOnce openBrackets s with
    | none => exact unopened s hopen
    | some entry =>
      obtain ⟨before, opened⟩ := entry
      cases hclose : splitOnce closeBrackets opened with
      | none => exact unclosed s before opened hopen hclose
      | some entry =>
        obtain ⟨name, rest⟩ := entry
        have hlt : rest.length < n := hlen ▸
          (length_lt_of_splitOnce (by decide) hclose).trans
            (length_lt_of_splitOnce (by decide) hopen)
        exact named s before opened name rest hopen hclose (ih _ hlt rest rfl)

/-- Names are trimmed, and they are not blank. -/
theorem isSolid_of_mem_references {s name : Str} (h : name ∈ extractBracketedReferences s) :
    IsSolid name := by
  induction s using references_induction with
  | unopened s hopen => simp [references_unopened hopen] at h
  | unclosed s before opened hopen hclose => simp [references_unclosed hopen hclose] at h
  | named s before opened found rest hopen hclose ih =>
    rw [references_named hopen hclose] at h
    rcases List.mem_append.mp h with h | h
    · split at h
      case isTrue => simp at h
      case isFalse hne =>
        rw [List.mem_singleton.mp h]
        exact isSolid_trim (by simpa using hne)
    · exact ih h

/-! ## The search in lines -/

section Lines

variable {ls before opened name rest : List Str}

/-- Lines without an opening have no names. -/
theorem markedNames_unopened (h : cutLines openBrackets ls = none) : markedNames ls = [] := by
  rw [markedNames]
  split
  case h_1 => rfl
  case h_2 hcut => exact absurd (h.symm.trans hcut) (by simp)

/-- Lines without a closing behind the opening have no names. -/
theorem markedNames_unclosed (h : cutLines openBrackets ls = some (before, opened))
    (hclose : cutLines closeBrackets opened = none) : markedNames ls = [] := by
  rw [markedNames]
  split
  case h_1 => rfl
  case h_2 front back hcut =>
    obtain ⟨-, rfl⟩ := Prod.mk.inj (Option.some.inj (h.symm.trans hcut))
    split
    case h_1 => rfl
    case h_2 hcut => exact absurd (hclose.symm.trans hcut) (by simp)

/-- The name behind an opening, and the names behind it. -/
theorem markedNames_named (h : cutLines openBrackets ls = some (before, opened))
    (hclose : cutLines closeBrackets opened = some (name, rest)) :
    markedNames ls = (if name.isEmpty then [] else [name]) ++ markedNames rest := by
  rw [markedNames]
  split
  case h_1 hcut => exact absurd (h.symm.trans hcut) (by simp)
  case h_2 front back hcut =>
    obtain ⟨-, rfl⟩ := Prod.mk.inj (Option.some.inj (h.symm.trans hcut))
    split
    case h_1 hcut => exact absurd (hclose.symm.trans hcut) (by simp)
    case h_2 front back hcut =>
      obtain ⟨rfl, rfl⟩ := Prod.mk.inj (Option.some.inj (hclose.symm.trans hcut))
      rfl

end Lines

/-- A text has no lines exactly if trimming leaves nothing of it. -/
theorem blockLines_eq_nil_iff {s : Str} : blockLines s = [] ↔ trim s = [] := by
  rw [trim_eq_nil_iff]
  refine ⟨fun h c hc => ?_, blockLines_eq_nil⟩
  by_contra hspace
  exact blockLines_ne_nil hc (by simpa using hspace) h

/-- The lines of the names that are found in a block can be read off the lines of the block. -/
theorem map_blockLines_references (block : Str) :
    (extractBracketedReferences block).map blockLines = markedNames (blockLines block) := by
  have hopenBrackets : ∀ c ∈ openBrackets, isWhitespace c = false :=
    List.all_iff_forall_prop.mp (by decide)
  have hcloseBrackets : ∀ c ∈ closeBrackets, isWhitespace c = false :=
    List.all_iff_forall_prop.mp (by decide)
  have hcutOpen := cutLines_blockLines (by decide) hopenBrackets
  have hcutClose := cutLines_blockLines (by decide) hcloseBrackets
  induction block using references_induction with
  | unopened s hopen =>
    rw [references_unopened hopen, markedNames_unopened (by rw [hcutOpen, hopen]; rfl)]
    rfl
  | unclosed s before opened hopen hclose =>
    rw [references_unclosed hopen hclose,
      markedNames_unclosed (by rw [hcutOpen, hopen]; rfl) (by rw [hcutClose, hclose]; rfl)]
    rfl
  | named s before opened name rest hopen hclose ih =>
    rw [references_named hopen hclose,
      markedNames_named (by rw [hcutOpen, hopen]; rfl) (by rw [hcutClose, hclose]; rfl),
      List.map_append, ih]
    congr 1
    by_cases hblank : trim name = []
    · simp [hblank, blockLines_eq_nil_iff.mpr hblank]
    · have hlines : blockLines name ≠ [] := fun h => hblank (blockLines_eq_nil_iff.mp h)
      simp [hblank, hlines, blockLines_trim]

/-- If every name stands on one line, then the names of a block can be read off its lines. -/
theorem references_eq_of_blockLines_eq {block block' : Str}
    (h : blockLines block' = blockLines block)
    (hline : ∀ name ∈ markedNames (blockLines block), name.length ≤ 1) :
    extractBracketedReferences block' = extractBracketedReferences block := by
  have hsingle : ∀ block', blockLines block' = blockLines block →
      (extractBracketedReferences block').map blockLines =
        (extractBracketedReferences block').map fun name => [name] := by
    intro block' h'
    refine List.map_congr_left fun name hname => ?_
    rw [blockLines_eq_singleton (isSolid_of_mem_references hname)]
    apply hline
    rw [← h', ← map_blockLines_references]
    exact List.mem_map_of_mem hname
  have hinj : Function.Injective fun name : Str => [name] := fun _ _ => List.singleton_inj.mp
  apply List.map_injective_iff.mpr hinj
  rw [← hsingle block' h, ← hsingle block rfl, map_blockLines_references,
    map_blockLines_references, h]

/-! ## Another layout -/

/-- A text with an empty line behind every line. -/
def doubleFeeds (s : Str) : Str := s.flatMap fun c => if c = '\n' then ['\n', '\n'] else [c]

@[simp] theorem doubleFeeds_append (s t : Str) :
    doubleFeeds (s ++ t) = doubleFeeds s ++ doubleFeeds t := List.flatMap_append

@[simp] theorem doubleFeeds_feed (s : Str) :
    doubleFeeds ('\n' :: s) = '\n' :: '\n' :: doubleFeeds s := rfl

/-- Nothing happens to a single line. -/
theorem doubleFeeds_of_notMem {s : Str} (h : '\n' ∉ s) : doubleFeeds s = s := by
  induction s with
  | nil => rfl
  | cons c s ih =>
    obtain ⟨hc, hs⟩ := List.ne_and_not_mem_of_not_mem_cons h
    rw [← List.singleton_append, doubleFeeds_append, ih hs]
    simp [doubleFeeds, Ne.symm hc]

/-- The line feeds are counted twice. -/
theorem count_doubleFeeds (s : Str) : (doubleFeeds s).count '\n' = 2 * s.count '\n' := by
  induction s using feed_induction with
  | last s hs => rw [doubleFeeds_of_notMem hs, List.count_eq_zero_of_not_mem hs]
  | line l s hl ih =>
    simp only [doubleFeeds_append, doubleFeeds_of_notMem hl, doubleFeeds_feed, List.count_append,
      List.count_cons_self, List.count_eq_zero_of_not_mem hl, ih]
    omega

/-- The other layout has the same lines. -/
theorem blockLines_doubleFeeds (s : Str) : blockLines (doubleFeeds s) = blockLines s := by
  induction s using feed_induction with
  | last s hs => rw [doubleFeeds_of_notMem hs]
  | line l s hl ih =>
    rw [doubleFeeds_append, doubleFeeds_of_notMem hl, doubleFeeds_feed, blockLines_append_feed,
      blockLines_append_feed, ← List.nil_append ('\n' :: doubleFeeds s), blockLines_append_feed,
      ih]
    rfl

/-- A cut of the text is a cut of the other layout. -/
theorem splitOnce_doubleFeeds {pat : Str} (hne : pat ≠ []) (hfeed : '\n' ∉ pat) (s : Str) :
    splitOnce pat (doubleFeeds s) =
      (splitOnce pat s).map fun entry => (doubleFeeds entry.1, doubleFeeds entry.2) := by
  induction s using feed_induction with
  | last s hs =>
    rw [doubleFeeds_of_notMem hs]
    cases hcut : splitOnce pat s with
    | none => rfl
    | some entry =>
      have hparts := splitOnce_append hcut
      rw [Option.map_some, doubleFeeds_of_notMem fun hmem => hs (by simp [← hparts, hmem]),
        doubleFeeds_of_notMem fun hmem => hs (by simp [← hparts, hmem])]
  | line l s hl ih =>
    rw [doubleFeeds_append, doubleFeeds_of_notMem hl, doubleFeeds_feed]
    cases hcut : splitOnce pat l with
    | some entry =>
      obtain ⟨a, b⟩ := entry
      have hparts := splitOnce_append hcut
      have ha : '\n' ∉ a := fun hmem => hl (by simp [← hparts, hmem])
      have hb : '\n' ∉ b := fun hmem => hl (by simp [← hparts, hmem])
      rw [splitOnce_append_right hne hcut, splitOnce_append_right hne hcut, Option.map_some,
        doubleFeeds_append, doubleFeeds_of_notMem ha, doubleFeeds_of_notMem hb, doubleFeeds_feed]
    | none =>
      have hnil : splitOnce pat [] = none := by simp [splitOnce, hne]
      have hempty := @splitOnce_append_cons _ _ pat [] (doubleFeeds s) '\n' hne hfeed hnil
      rw [List.nil_append] at hempty
      rw [splitOnce_append_cons hne hfeed hcut, splitOnce_append_cons hne hfeed hcut, hempty, ih]
      simp only [Option.map_map]
      congr 1
      funext entry
      simp [doubleFeeds_of_notMem hl]

/-- The other layout of a solid text is solid. -/
theorem isSolid_doubleFeeds {s : Str} (hs : IsSolid s) : IsSolid (doubleFeeds s) := by
  have hfeed : ∀ c, isWhitespace c = false → doubleFeeds [c] = [c] := fun c hc =>
    doubleFeeds_of_notMem fun hmem => by
      rw [← List.mem_singleton.mp hmem] at hc
      exact absurd hc (by decide)
  refine ⟨⟨fun c hc => ?_, fun c hc => ?_⟩, ?_⟩
  · obtain ⟨d, t, rfl⟩ := List.exists_cons_of_ne_nil hs.ne_nil
    have hd := hs.head d rfl
    rw [← List.singleton_append, doubleFeeds_append, hfeed d hd] at hc
    rwa [← Option.some.inj hc]
  · obtain ⟨t, d, rfl⟩ := (List.eq_nil_or_concat' s).resolve_left hs.ne_nil
    have hd := hs.last d List.getLast?_concat
    rw [doubleFeeds_append, hfeed d hd, List.getLast?_concat] at hc
    rwa [← Option.some.inj hc]
  · obtain ⟨d, t, rfl⟩ := List.exists_cons_of_ne_nil hs.ne_nil
    rw [← List.singleton_append, doubleFeeds_append, hfeed d (hs.head d rfl)]
    simp

/-- The other layout of whitespace is whitespace. -/
theorem forall_mem_doubleFeeds {s : Str} (h : ∀ c ∈ s, isWhitespace c = true) :
    ∀ c ∈ doubleFeeds s, isWhitespace c = true := by
  intro c hc
  obtain ⟨d, hd, hcd⟩ := List.mem_flatMap.mp hc
  split at hcd
  case isTrue hfeed =>
    obtain rfl : c = '\n' := by simpa using hcd
    decide
  case isFalse =>
    obtain rfl := List.mem_singleton.mp hcd
    exact h c hd

/-- Trimming the other layout. -/
theorem trim_doubleFeeds (s : Str) : trim (doubleFeeds s) = doubleFeeds (trim s) := by
  obtain ⟨pre, post, heq, hpre, hpost⟩ := exists_eq_append_trim s
  conv_lhs => rw [heq]
  rw [doubleFeeds_append, doubleFeeds_append,
    trim_append (forall_mem_doubleFeeds hpre) (forall_mem_doubleFeeds hpost)]
  by_cases hnil : trim s = []
  · rw [hnil]
    rfl
  · exact (isSolid_doubleFeeds (isSolid_trim hnil)).trim_eq

/-- The names in the other layout. -/
theorem references_doubleFeeds (s : Str) :
    extractBracketedReferences (doubleFeeds s) =
      (extractBracketedReferences s).map doubleFeeds := by
  have hopenCut := @splitOnce_doubleFeeds openBrackets (by decide) (by decide)
  have hcloseCut := @splitOnce_doubleFeeds closeBrackets (by decide) (by decide)
  induction s using references_induction with
  | unopened s hopen =>
    rw [references_unopened hopen, references_unopened (by rw [hopenCut, hopen]; rfl)]
    rfl
  | unclosed s before opened hopen hclose =>
    rw [references_unclosed hopen hclose,
      references_unclosed (by rw [hopenCut, hopen]; rfl) (by rw [hcloseCut, hclose]; rfl)]
    rfl
  | named s before opened name rest hopen hclose ih =>
    rw [references_named hopen hclose,
      references_named (by rw [hopenCut, hopen]; rfl) (by rw [hcloseCut, hclose]; rfl),
      List.map_append, ih, trim_doubleFeeds]
    congr 1
    by_cases hblank : trim name = []
    · simp [hblank, doubleFeeds]
    · simp [hblank, (isSolid_doubleFeeds (isSolid_trim hblank)).ne_nil]

/-- If the other layout has the same names, then every name stands on one line. -/
theorem length_le_of_references_doubleFeeds {block : Str}
    (h : extractBracketedReferences (doubleFeeds block) = extractBracketedReferences block) :
    ∀ name ∈ markedNames (blockLines block), name.length ≤ 1 := by
  intro name hname
  rw [← map_blockLines_references] at hname
  obtain ⟨found, hfound, rfl⟩ := List.mem_map.mp hname
  rw [references_doubleFeeds] at h
  have hsame : doubleFeeds found = found :=
    List.map_inj_left.mp (h.trans (List.map_id _).symm) found hfound
  have hcount : found.count '\n' = 0 := by
    have hdouble := count_doubleFeeds found
    rw [hsame] at hdouble
    omega
  have hfeed : '\n' ∉ found := List.count_eq_zero.mp hcount
  rw [blockLines_of_notMem hfeed, trimmedLines]
  exact (List.length_filter_le _ _).trans (by simp)

/-! ## Layouts of one block -/

/-- What a candidate says: all of it but the identity and the copy of the source. -/
def Candidate.meaning (candidate : Candidate) : Candidate :=
  { candidate with candidateId := 0, sourceText := [] }

/-- The meaning of a block is read from its lines and from the names in it. -/
theorem meaning_parseBlock_eq {block block' : Str} (hlines : blockLines block' = blockLines block)
    (hnames : extractBracketedReferences block' = extractBracketedReferences block)
    (id id' : Uuid) : (parseBlock U id' block').meaning = (parseBlock U id block).meaning := by
  have hread : readLines U block' = readLines U block := by rw [readLines, hlines, readLines]
  simp only [parseBlock, hread, hnames]
  split <;> rfl

/-- The names of a block are the last of its references. -/
theorem references_meaning_parseBlock (id : Uuid) (block : Str) :
    (parseBlock U id block).meaning.references =
      (readLines U block).references ++ extractBracketedReferences block := by
  simp only [parseBlock]
  split <;> rfl

/-- All layouts of a block mean the same exactly if each of its names stands on one line. -/
theorem layout_iff (U : CaseTables) (block : Str) :
    (∀ id id' block', blockLines block' = blockLines block →
      (parseBlock U id' block').meaning = (parseBlock U id block).meaning) ↔
    ∀ name ∈ markedNames (blockLines block), name.length ≤ 1 := by
  constructor
  · intro h
    have hsame := congrArg Candidate.references
      (h 0 0 (doubleFeeds block) (blockLines_doubleFeeds block))
    rw [references_meaning_parseBlock, references_meaning_parseBlock] at hsame
    have hread : readLines U (doubleFeeds block) = readLines U block := by
      rw [readLines, blockLines_doubleFeeds, readLines]
    rw [hread] at hsame
    exact length_le_of_references_doubleFeeds (List.append_cancel_left hsame)
  · intro h id id' block' hlines
    exact meaning_parseBlock_eq hlines (references_eq_of_blockLines_eq hlines h) id id'

/-- A name that goes over two lines is recorded with all that stands between them. -/
theorem layout_matters :
    blockLines "See [[Battle\n\nCry]].".toList = blockLines "See [[Battle\nCry]].".toList ∧
    (parseBlock .ascii 0 "See [[Battle\n\nCry]].".toList).meaning ≠
      (parseBlock .ascii 0 "See [[Battle\nCry]].".toList).meaning := by
  have hnames : ∀ name : Str, splitOnce closeBrackets (name ++ "]].".toList) =
        some (name, ".".toList) → (trim name).isEmpty = false →
      extractBracketedReferences ("See [[".toList ++ name ++ "]].".toList) = [trim name] := by
    intro name hclose hname
    have hcut : splitOnce openBrackets "See [[".toList = some ("See ".toList, []) := by decide
    have hopen := splitOnce_append_right (by decide) hcut (name ++ "]].".toList)
    rw [List.nil_append] at hopen
    rw [List.append_assoc, references_named hopen hclose, references_unopened (by decide)]
    simp [hname]
  refine ⟨by decide, fun h => ?_⟩
  have hsame := congrArg Candidate.references h
  rw [references_meaning_parseBlock, references_meaning_parseBlock] at hsame
  have hfirst := hnames "Battle\n\nCry".toList (by decide) (by decide)
  have hsecond := hnames "Battle\nCry".toList (by decide) (by decide)
  have hread : readLines .ascii "See [[Battle\n\nCry]].".toList =
      readLines .ascii "See [[Battle\nCry]].".toList := by decide
  rw [hread] at hsame
  exact absurd (hfirst.symm.trans ((List.append_cancel_left hsame).trans hsecond)) (by decide)

end Pf2eParser
