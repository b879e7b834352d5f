import Pf2eParser.Parser

/-!
# Blocks and separator lines

The block parser is documented to cut a source text at the lines that contain only `---`, and it
cuts at every occurrence of `---`.  `separatedBlocks` are the blocks between the separator lines;
`parseCandidates_separatedBlocks_iff` says that they are the blocks that are parsed exactly when
`---` occurs in separator lines only.

The proof follows `sourceBlocks` through a text that is put together from parts: whitespace at its
ends does not matter, and an occurrence of `---` with whitespace around it separates the blocks on
its two sides (`sourceBlocks_append_separator`).
-/

namespace Pf2eParser

open Text

/-! ## Source blocks of composed texts -/

/-- The separator and whitespace have no symbol in common. -/
theorem notMem_of_isWhitespace {w : Str} (hw : ∀ c ∈ w, isWhitespace c = true) :
    ∀ c ∈ blockSeparator, c ∉ w := by
  have hsolid : ∀ c ∈ blockSeparator, isWhitespace c = false :=
    List.all_iff_forall_prop.mp (by decide)
  intro c hc hmem
  exact absurd (hw c hmem) (by simp [hsolid c hc])

/-- The blocks of a text without the separator: the text itself, unless it is blank. -/
theorem sourceBlocks_of_no_separator {s : Str} (h : ¬ blockSeparator <:+: s) :
    sourceBlocks s = [trim s].filter fun block => !block.isEmpty := by
  rw [sourceBlocks, split_of_unmatched h, List.map_singleton]

/-- The blocks of a text that is cut at a separator. -/
theorem sourceBlocks_of_splitOnce {s a b : Str} (h : splitOnce blockSeparator s = some (a, b)) :
    sourceBlocks s = ([trim a].filter fun block => !block.isEmpty) ++ sourceBlocks b := by
  rw [sourceBlocks, split_of_splitOnce_eq_some (by decide) h, List.map_cons,
    ← List.singleton_append, List.filter_append, sourceBlocks]

/-- Whitespace at the ends of a text does not change its blocks. -/
theorem sourceBlocks_pad {pre s post : Str} (hpre : ∀ c ∈ pre, isWhitespace c = true)
    (hpost : ∀ c ∈ post, isWhitespace c = true) :
    sourceBlocks (pre ++ s ++ post) = sourceBlocks s := by
  have hpat : blockSeparator ≠ [] := by decide
  have hpre' := notMem_of_isWhitespace hpre
  induction s using split_induction hpat generalizing pre with
  | whole s hnone =>
    have hclean := splitOnce_eq_none_iff.mp hnone
    have hpadded : ¬ blockSeparator <:+: pre ++ s ++ post := by
      rwa [infix_append_iff_left hpat (notMem_of_isWhitespace hpost),
        infix_append_iff_right hpat hpre']
    rw [sourceBlocks_of_no_separator hpadded, sourceBlocks_of_no_separator hclean,
      trim_append hpre hpost]
  | cut s a b hcut ih =>
    have hcut' : splitOnce blockSeparator (pre ++ s ++ post) = some (pre ++ a, b ++ post) :=
      splitOnce_append_right hpat (splitOnce_append_left hpat hpre' hcut) post
    have htrim : trim (pre ++ a) = trim a := by
      simpa using @trim_append pre a [] hpre (by simp)
    have hrest : sourceBlocks (b ++ post) = sourceBlocks b :=
      @ih [] (by simp) (by simp)
    rw [sourceBlocks_of_splitOnce hcut', sourceBlocks_of_splitOnce hcut, htrim, hrest]

/-- A text without blocks is made of separators and whitespace. -/
theorem isWhitespace_of_sourceBlocks_eq_nil {s : Str} (h : sourceBlocks s = []) :
    ∀ c ∈ s, c ∉ blockSeparator → isWhitespace c = true := by
  have hpat : blockSeparator ≠ [] := by decide
  have hblank : ∀ part : Str, ([trim part].filter fun block => !block.isEmpty) = [] →
      ∀ c ∈ part, isWhitespace c = true := fun part hpart =>
    trim_eq_nil_iff.mp (by simpa using hpart)
  induction s using split_induction hpat with
  | whole s hnone =>
    rw [sourceBlocks_of_no_separator (splitOnce_eq_none_iff.mp hnone)] at h
    exact fun c hc _ => hblank s h c hc
  | cut s a b hcut ih =>
    rw [sourceBlocks_of_splitOnce hcut] at h
    obtain ⟨ha, hb⟩ := List.append_eq_nil_iff.mp h
    obtain ⟨rfl, -⟩ := (splitOnce_eq_some_iff hpat).mp hcut
    intro c hc hsep
    simp only [List.mem_append] at hc
    rcases hc with (hc | hc) | hc
    · exact hblank a ha c hc
    · exact absurd hc hsep
    · exact ih hb c hc hsep

/-- A text with one block that does not start with whitespace or a separator: there is no separator,
or there is nothing behind the first one. -/
theorem sourceBlocks_eq_singleton_cases {s piece : Str} {c : Char} (hhead : s.head? = some c)
    (hc : isWhitespace c = false) (hsep : c ∉ blockSeparator) (h : sourceBlocks s = [piece]) :
    ¬ blockSeparator <:+: s ∧ piece = trim s ∨
      ∃ a b, s = a ++ (blockSeparator ++ b) ∧ piece = trim a ∧ sourceBlocks b = [] := by
  cases hcut : splitOnce blockSeparator s with
  | none =>
    have hclean := splitOnce_eq_none_iff.mp hcut
    rw [sourceBlocks_of_no_separator hclean] at h
    have hmem : piece ∈ [trim s] := List.mem_of_mem_filter (h ▸ List.mem_singleton_self piece)
    exact Or.inl ⟨hclean, List.mem_singleton.mp hmem⟩
  | some entry =>
    obtain ⟨a, b⟩ := entry
    rw [sourceBlocks_of_splitOnce hcut] at h
    obtain ⟨rfl, -⟩ := (splitOnce_eq_some_iff (by decide)).mp hcut
    have ha : trim a ≠ [] := by
      intro hblank
      cases a with
      | nil =>
        have hdash : some '-' = some c := hhead
        exact hsep (Option.some.inj hdash ▸ by decide)
      | cons d a =>
        obtain rfl : d = c := by simpa using hhead
        exact absurd (trim_eq_nil_iff.mp hblank d (by simp)) (by simp [hc])
    rw [List.filter_cons_of_pos (by simpa using ha)] at h
    simp only [List.filter_nil, List.singleton_append, List.cons.injEq] at h
    exact Or.inr ⟨a, b, by rw [List.append_assoc], h.1.symm, h.2⟩

/-- A separator with whitespace around it separates the blocks on its two sides.  Some whitespace is
needed in front of it, unless it opens the text, as it could lengthen a row of hyphens. -/
theorem sourceBlocks_append_separator {s pre post t : Str}
    (hpre : ∀ c ∈ pre, isWhitespace c = true) (hpost : ∀ c ∈ post, isWhitespace c = true)
    (hs : s ++ pre = [] ∨ pre ≠ []) :
    sourceBlocks (s ++ pre ++ (blockSeparator ++ (post ++ t))) =
      sourceBlocks s ++ sourceBlocks t := by
  have hlast : ∀ c ∈ (s ++ pre).getLast?, c ∉ blockSeparator := by
    rcases hs with hnil | hne
    · simp [hnil]
    · intro c hc hmem
      rw [List.getLast?_append_of_ne_nil _ hne] at hc
      exact notMem_of_isWhitespace hpre c hmem (List.mem_of_mem_getLast? hc)
  have hleft : sourceBlocks (s ++ pre) = sourceBlocks s := @sourceBlocks_pad [] s pre (by simp) hpre
  have hright : sourceBlocks (post ++ t) = sourceBlocks t := by
    simpa using @sourceBlocks_pad post t [] hpost (by simp)
  have hsplit : sourceBlocks (s ++ pre ++ (blockSeparator ++ (post ++ t))) =
      sourceBlocks (s ++ pre) ++ sourceBlocks (post ++ t) := by
    simp only [sourceBlocks]
    rw [split_append_pat (by decide) hlast, List.map_append, List.filter_append]
  rw [hsplit, hleft, hright]

/-! ## Separator lines -/

/-- The line contains only the separator. -/
def isSeparatorLine (line : Str) : Bool := trim line == blockSeparator

/-- The parts of a text between its separator lines, as they stand in the text. -/
def lineSegments (sourceText : Str) : List Str :=
  ((sourceText.splitOn '\n').splitOnP isSeparatorLine).map fun part => ['\n'].intercalate part

/-- The trimmed parts of a text between its separator lines that are not blank. -/
def separatedBlocks (sourceText : Str) : List Str :=
  ((lineSegments sourceText).map trim).filter fun block => !block.isEmpty

/-- The separator occurs in separator lines only. -/
def SeparatesByLines (sourceText : Str) : Prop :=
  ∀ line ∈ sourceText.splitOn '\n', blockSeparator <:+: line → isSeparatorLine line = true

/-- The separator in joined lines is the separator in one of them. -/
theorem infix_joined_lines_iff (ls : List Str) :
    blockSeparator <:+: ['\n'].intercalate ls ↔ ∃ line ∈ ls, blockSeparator <:+: line :=
  infix_intercalate_iff (by decide) (by simp) (List.all_iff_forall_prop.mp (by decide)) ls

/-- The lines up to the first separator line. -/
theorem eq_or_exists_separatorLine (ls : List Str) :
    (∀ line ∈ ls, isSeparatorLine line = false) ∨
      ∃ part line rest, ls = part ++ line :: rest ∧ (∀ l ∈ part, isSeparatorLine l = false) ∧
        isSeparatorLine line = true := by
  induction ls with
  | nil => exact Or.inl (by simp)
  | cons line ls ih =>
    cases hline : isSeparatorLine line with
    | true => exact Or.inr ⟨[], line, ls, rfl, by simp, hline⟩
    | false =>
      rcases ih with hall | ⟨part, line', rest, rfl, hpart, hline'⟩
      · exact Or.inl (by simpa [hline] using hall)
      · exact Or.inr ⟨line :: part, line', rest, rfl, by simpa [hline] using hpart, hline'⟩

/-- Joined lines around a separator line. -/
theorem sourceBlocks_joined_separatorLine (part rest : List Str) {line : Str}
    (hline : isSeparatorLine line = true) :
    sourceBlocks (['\n'].intercalate (part ++ line :: rest)) =
      sourceBlocks (['\n'].intercalate part) ++ sourceBlocks (['\n'].intercalate rest) := by
  have hfeed : isWhitespace '\n' = true := by decide
  obtain ⟨pre, post, heq, hpre, hpost⟩ := exists_eq_append_trim line
  rw [beq_iff_eq.mp hline, List.append_assoc] at heq
  -- the line feeds on both sides of the line count as its whitespace
  have hback : ∃ post', (∀ c ∈ post', isWhitespace c = true) ∧ ['\n'].intercalate (line :: rest) =
      pre ++ (blockSeparator ++ (post' ++ ['\n'].intercalate rest)) := by
    rcases eq_or_ne rest [] with rfl | hrest
    · exact ⟨post, hpost, by simp [heq]⟩
    · refine ⟨post ++ ['\n'], fun c hc => ?_, ?_⟩
      · rcases List.mem_append.mp hc with hc | hc
        · exact hpost c hc
        · exact List.mem_singleton.mp hc ▸ hfeed
      · rw [List.intercalate_cons_of_ne_nil hrest, heq]
        simp only [List.append_assoc]
  obtain ⟨post', hpost', hback⟩ := hback
  rcases eq_or_ne part [] with rfl | hpart
  · have hcut := @sourceBlocks_append_separator [] pre post' (['\n'].intercalate rest) hpre hpost'
      (by rcases eq_or_ne pre [] with rfl | hne <;> simp_all)
    rw [List.nil_append] at hcut
    rw [List.nil_append, hback, hcut, List.intercalate_nil]
  · have hfront : ∀ c ∈ '\n' :: pre, isWhitespace c = true := by simpa [hfeed] using hpre
    rw [intercalate_append ['\n'] hpart (by simp), hback,
      ← sourceBlocks_append_separator hfront hpost' (Or.inr (by simp))]
    simp only [List.append_assoc, List.cons_append, List.nil_append]

/-- The blocks of joined lines whose separators are separator lines. -/
theorem sourceBlocks_joined_lines (ls : List Str)
    (h : ∀ line ∈ ls, blockSeparator <:+: line → isSeparatorLine line = true) :
    sourceBlocks (['\n'].intercalate ls) =
      (((ls.splitOnP isSeparatorLine).map fun part => ['\n'].intercalate part).map trim).filter
        fun block => !block.isEmpty := by
  induction hlen : ls.length using Nat.strong_induction_on generalizing ls with
  | _ n ih =>
    have hclean : ∀ part : List Str, (∀ l ∈ part, l ∈ ls) →
        (∀ l ∈ part, isSeparatorLine l = false) →
          ¬ blockSeparator <:+: ['\n'].intercalate part := by
      intro part hsub hpart hoccurs
      obtain ⟨l, hl, hsep⟩ := (infix_joined_lines_iff part).mp hoccurs
      exact absurd (h l (hsub l hl) hsep) (by simp [hpart l hl])
    rcases eq_or_exists_separatorLine ls with hall | ⟨part, line, rest, rfl, hpart, hline⟩
    · rw [sourceBlocks_of_no_separator (hclean ls (fun _ hl => hl) hall),
        List.splitOnP_eq_singleton hall, List.map_singleton, List.map_singleton]
    · have hrest := ih rest.length (by simp [← hlen]; omega) rest
        (fun l hl => h l (by simp [hl])) rfl
      rw [sourceBlocks_joined_separatorLine part rest hline, hrest,
        sourceBlocks_of_no_separator (hclean part (fun l hl => by simp [hl]) hpart),
        List.splitOnP_append_cons_of_forall_mem hpart line hline]
      simp only [List.map_cons, ← List.filter_append, List.singleton_append]

/-- The blocks that are cut out of a text are the blocks between its separator lines exactly when
the separator occurs in separator lines only. -/
theorem sourceBlocks_eq_separatedBlocks_iff (sourceText : Str) :
    sourceBlocks sourceText = separatedBlocks sourceText ↔ SeparatesByLines sourceText := by
  constructor
  · intro heq line hline hsep
    by_contra hnot
    -- the line belongs to a part without separator lines, and that part is a block
    obtain ⟨part, hpart, hmem⟩ := exists_mem_splitOnP hline (Bool.not_eq_true _ ▸ hnot)
    have hoccurs : blockSeparator <:+: trim (['\n'].intercalate part) := by
      rw [infix_trim_iff (by decide) (List.all_iff_forall_prop.mp (by decide)),
        infix_joined_lines_iff]
      exact ⟨line, hmem, hsep⟩
    have hne : trim (['\n'].intercalate part) ≠ [] := fun hnil => by
      rw [hnil] at hoccurs
      exact absurd hoccurs (by decide)
    have hblock : trim (['\n'].intercalate part) ∈ sourceBlocks sourceText := by
      rw [heq]
      exact List.mem_filter.mpr
        ⟨List.mem_map_of_mem (List.mem_map_of_mem hpart), by simpa using hne⟩
    exact not_infix_of_mem_sourceBlocks hblock hoccurs
  · intro h
    have hjoined := sourceBlocks_joined_lines (sourceText.splitOn '\n') h
    rwa [List.intercalate_splitOn] at hjoined

variable {U : CaseTables}

/-- The candidates of a text are parsed from the blocks between its separator lines exactly when the
separator occurs in separator lines only. -/
theorem parseCandidates_separatedBlocks_iff (fresh : ℕ → Uuid) (sourceText : Str) :
    parseCandidates U fresh sourceText =
        (separatedBlocks sourceText).mapIdx (fun i block => parseBlock U (fresh i) block) ↔
      SeparatesByLines sourceText := by
  rw [← sourceBlocks_eq_separatedBlocks_iff, parseCandidates]
  have htexts : ∀ blocks : List Str,
      (blocks.mapIdx fun i block => parseBlock U (fresh i) block).map Candidate.sourceText =
        blocks := fun blocks => List.ext_getElem (by simp) (by simp)
  constructor
  · intro h
    rw [← htexts (sourceBlocks sourceText), h, htexts]
  · intro h
    rw [h]

/-- A text with a rule line inside of a rule. -/
def textWithRuleLine : Str := "Feat\nName: Stride\nEffect: Go on.\n----\nStop.".toList

/-- The rule line is no separator line, but the text is cut there. -/
theorem parseCandidates_cuts_ruleLine :
    ¬ ∀ (fresh : ℕ → Uuid) (sourceText : Str), parseCandidates .ascii fresh sourceText =
      (separatedBlocks sourceText).mapIdx (fun i block => parseBlock .ascii (fresh i) block) := by
  intro h
  have hlen := congrArg List.length (h (fun _ => 0) textWithRuleLine)
  have hcut : (parseCandidates .ascii (fun _ => 0) textWithRuleLine).length = 2 := by
    decide +kernel
  have hwhole : (separatedBlocks textWithRuleLine).length = 1 := by decide +kernel
  rw [hcut, List.length_mapIdx, hwhole] at hlen
  exact absurd hlen (by decide)

end Pf2eParser
