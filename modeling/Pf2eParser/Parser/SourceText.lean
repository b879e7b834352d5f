import Pf2eParser.BookAdapter.Separator

/-!
# Source texts and their candidates

Parsing is compositional: a fragment is parsed alone as it is parsed among others, if a separator
line stands between them (`parse_joined`).  Nothing of a source text is lost: the source texts of
its candidates are what remains of it when whitespace and separators are taken away, and they are
parsed to the same candidates again (`source_text_preserved`).
-/

namespace Pf2eParser

open Text

variable {U : CaseTables}

/-! ## Fragments -/

/-- The parse of two fragments with a separator line between them is the parse of the first one
followed by the parse of the second one, and the same holds for any number of fragments. -/
theorem parse_joined (fresh fresh' fresh'' : ℕ → Uuid) (a b : Str) :
    (parseCandidates U fresh (a ++ blockJoint ++ b)).map Candidate.anonymous =
        (parseCandidates U fresh' a).map Candidate.anonymous ++
          (parseCandidates U fresh'' b).map Candidate.anonymous ∧
      ∀ fragments : List Str,
        (parseCandidates U fresh (blockJoint.intercalate fragments)).map Candidate.anonymous =
          fragments.flatMap fun fragment =>
            (parseCandidates U fresh' fragment).map Candidate.anonymous := by
  have hjoined : ∀ fragments : List Str,
      (parseCandidates U fresh (blockJoint.intercalate fragments)).map Candidate.anonymous =
        fragments.flatMap fun fragment => (sourceBlocks fragment).map (parseBlock U 0) := by
    intro fragments
    rw [anonymous_parseCandidates, sourceBlocks_joined, List.map_flatMap]
  simp only [anonymous_parseCandidates] at hjoined ⊢
  refine ⟨?_, hjoined⟩
  simpa [List.intercalate] using hjoined [a, b]

/-! ## Losslessness -/

/-- Whitespace and separators. -/
inductive Filler : Str → Prop
  | nil : Filler []
  | space {c : Char} {s : Str} : isWhitespace c = true → Filler s → Filler (c :: s)
  | separator {s : Str} : Filler s → Filler (blockSeparator ++ s)

/-- The text consists of the given texts, in order, and of whitespace and separators around them. -/
inductive RecoveredFrom : List Str → Str → Prop
  | nil {gap : Str} : Filler gap → RecoveredFrom [] gap
  | cons {gap text rest : Str} {texts : List Str} :
      Filler gap → RecoveredFrom texts rest → RecoveredFrom (text :: texts) (gap ++ text ++ rest)

/-- Whitespace is filler. -/
theorem filler_of_isWhitespace {s : Str} (h : ∀ c ∈ s, isWhitespace c = true) : Filler s := by
  induction s with
  | nil => exact .nil
  | cons c s ih => exact .space (h c (by simp)) (ih fun d hd => h d (by simp [hd]))

/-- Filler is put together from filler. -/
theorem Filler.append {s t : Str} (hs : Filler s) (ht : Filler t) : Filler (s ++ t) := by
  induction hs with
  | nil => exact ht
  | space hc _ ih => exact .space hc ih
  | separator _ ih =>
    rw [List.append_assoc]
    exact .separator ih

/-- Filler in front of a text is filler in front of its first part. -/
theorem RecoveredFrom.append_left {texts : List Str} {gap s : Str} (hgap : Filler gap)
    (h : RecoveredFrom texts s) : RecoveredFrom texts (gap ++ s) := by
  cases h with
  | nil hs => exact .nil (hgap.append hs)
  | cons hs hrest =>
    rw [← List.append_assoc, ← List.append_assoc]
    exact .cons (hgap.append hs) hrest

/-- A part in front of a text: its trimmed text, unless it is blank. -/
theorem RecoveredFrom.cons_trim {texts : List Str} {s : Str} (part : Str)
    (h : RecoveredFrom texts s) :
    RecoveredFrom (([trim part].filter fun text => !text.isEmpty) ++ texts) (part ++ s) := by
  by_cases hblank : trim part = []
  · rw [hblank]
    exact h.append_left (filler_of_isWhitespace (trim_eq_nil_iff.mp hblank))
  · obtain ⟨pre, post, heq, hpre, hpost⟩ := exists_eq_append_trim part
    rw [List.filter_cons_of_pos (by simpa using hblank), List.filter_nil, List.singleton_append]
    have hparts : part ++ s = pre ++ trim part ++ (post ++ s) := by
      rw [← List.append_assoc, ← heq]
    rw [hparts]
    exact .cons (filler_of_isWhitespace hpre) (h.append_left (filler_of_isWhitespace hpost))

/-- A source text is recovered from its blocks. -/
theorem recoveredFrom_sourceBlocks (sourceText : Str) :
    RecoveredFrom (sourceBlocks sourceText) sourceText := by
  have hpat : blockSeparator ≠ [] := by decide
  induction sourceText using split_induction hpat with
  | whole s hnone =>
    rw [sourceBlocks_of_no_separator (splitOnce_eq_none_iff.mp hnone)]
    simpa using (RecoveredFrom.nil .nil).cons_trim s
  | cut s a b hcut ih =>
    obtain ⟨heq, -⟩ := (splitOnce_eq_some_iff hpat).mp hcut
    have hseparator : RecoveredFrom (sourceBlocks b) (blockSeparator ++ b) := by
      simpa using ih.append_left (Filler.separator .nil)
    rw [sourceBlocks_of_splitOnce hcut, heq, List.append_assoc]
    exact hseparator.cons_trim a

/-- The source texts of the candidates are the blocks. -/
theorem map_sourceText_parseCandidates (fresh : ℕ → Uuid) (sourceText : Str) :
    (parseCandidates U fresh sourceText).map Candidate.sourceText = sourceBlocks sourceText :=
  List.ext_getElem (by simp [parseCandidates]) (by simp [parseCandidates])

/-- A block of a source text is trimmed and not empty. -/
theorem isSolid_of_mem_sourceBlocks {sourceText block : Str}
    (h : block ∈ sourceBlocks sourceText) : IsSolid block := by
  obtain ⟨hmem, hne⟩ := List.mem_filter.mp h
  obtain ⟨piece, -, rfl⟩ := List.mem_map.mp hmem
  exact isSolid_trim (by simpa using hne)

/-- The source texts of the candidates are nonempty, trimmed and free of the separator; the source
text is recovered from them with whitespace and separators only; and joined by separator lines they
are parsed to the same candidates. -/
theorem source_text_preserved (fresh fresh' : ℕ → Uuid) (sourceText : Str) :
    (∀ text ∈ (parseCandidates U fresh sourceText).map Candidate.sourceText,
      text ≠ [] ∧ trim text = text ∧ ¬ HasSeparator text) ∧
    RecoveredFrom ((parseCandidates U fresh sourceText).map Candidate.sourceText) sourceText ∧
    (parseCandidates U fresh' (blockJoint.intercalate
        ((parseCandidates U fresh sourceText).map Candidate.sourceText))).map Candidate.anonymous =
      (parseCandidates U fresh sourceText).map Candidate.anonymous := by
  rw [map_sourceText_parseCandidates]
  refine ⟨fun text htext => ?_, recoveredFrom_sourceBlocks sourceText, ?_⟩
  · have hsolid := isSolid_of_mem_sourceBlocks htext
    exact ⟨hsolid.ne_nil, hsolid.trim_eq, not_infix_of_mem_sourceBlocks htext⟩
  · rw [anonymous_parseCandidates fresh]
    apply (parseCandidates_joined_iff fresh' fun _ => isSolid_of_mem_sourceBlocks).mpr
    exact fun _ => not_infix_of_mem_sourceBlocks

end Pf2eParser
