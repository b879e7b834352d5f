import Mathlib.Data.List.Infix

/-!
# Searching and splitting sequences

`splitOnce pat s` cuts `s` at the leftmost occurrence of the pattern `pat`, and `split pat s` cuts
it at all leftmost, non-overlapping occurrences; these are the substring operations of a string
library, stated for sequences over an arbitrary alphabet.

The results are of two kinds.  `splitOnce_eq_some_iff` and `splitOnce_singleton_iff` say what a cut
means without mentioning the search; `not_infix_of_mem_split` and `split_append_pat` say what the
pieces of a sequence look like and when a part that was put in front of a separator is cut off
again.  `split_intercalate` cuts lines that are joined by a symbol outside the pattern.
-/

namespace Text

variable {α : Type*} [DecidableEq α]

/-! ## The leftmost occurrence -/

/-- Cut `s` at the leftmost occurrence of `pat`: the part before it and the part after it. -/
def splitOnce (pat : List α) : List α → Option (List α × List α)
  | [] => if pat = [] then some ([], []) else none
  | c :: s =>
    if pat <+: c :: s then some ([], (c :: s).drop pat.length)
    else (splitOnce pat s).map fun p => (c :: p.1, p.2)

/-- The position of the leftmost occurrence of `pat` in `s`. -/
def find (pat s : List α) : Option ℕ :=
  (splitOnce pat s).map fun p => p.1.length

/-- The two halves of a cut, with the pattern between them, are the sequence. -/
theorem splitOnce_append {pat s a b : List α} (h : splitOnce pat s = some (a, b)) :
    a ++ pat ++ b = s := by
  induction s generalizing a with
  | nil =>
    simp only [splitOnce] at h
    split at h
    · simp_all
    · simp at h
  | cons c s ih =>
    simp only [splitOnce] at h
    split at h
    · rename_i hp
      obtain ⟨t, ht⟩ := hp
      simp only [Option.some.injEq, Prod.mk.injEq] at h
      obtain ⟨rfl, rfl⟩ := h
      rw [← ht]
      simp
    · obtain ⟨⟨a', b'⟩, h', he⟩ := Option.map_eq_some_iff.mp h
      simp only [Prod.mk.injEq] at he
      obtain ⟨rfl, rfl⟩ := he
      simpa using ih h'

/-- The search fails exactly on the sequences without an occurrence of the pattern. -/
theorem splitOnce_eq_none_iff {pat s : List α} : splitOnce pat s = none ↔ ¬ pat <:+: s := by
  induction s with
  | nil => simp [splitOnce]
  | cons c s ih =>
    simp only [splitOnce]
    split
    · rename_i hp
      simp [hp.isInfix]
    · rename_i hp
      rw [Option.map_eq_none_iff, ih, List.infix_cons_iff]
      simp [hp]

omit [DecidableEq α] in
/-- A sequence ending in `pat` read as its front followed by the last symbol of `pat`. -/
theorem dropLast_append_getLast_cons {pat : List α} (hpat : pat ≠ []) (b : List α) :
    pat.dropLast ++ pat.getLast hpat :: b = pat ++ b := by
  rw [List.append_cons, List.dropLast_append_getLast hpat]

omit [DecidableEq α] in
/-- An occurrence of the pattern at the very start of `a ++ pat ++ b` starts inside `a`, unless
there is nothing in front of the pattern. -/
theorem eq_nil_of_isPrefix {pat a b : List α} (hpat : pat ≠ []) (hp : pat <+: a ++ pat ++ b)
    (hn : ¬ pat <:+: a ++ pat.dropLast) : a = [] := by
  by_contra ha
  apply hn
  have hpre : pat <+: a ++ pat.dropLast ++ pat.getLast hpat :: b := by
    rwa [List.append_assoc, dropLast_append_getLast_cons hpat, ← List.append_assoc]
  have hpos : 0 < a.length := List.length_pos_iff.mpr ha
  have hlen : pat.length ≤ (a ++ pat.dropLast).length := by
    simp only [List.length_append, List.length_dropLast]
    omega
  exact (List.prefix_of_prefix_length_le hpre (List.prefix_append _ _) hlen).isInfix

omit [DecidableEq α] in
/-- A nonempty pattern does not fit into its own front. -/
theorem not_isInfix_dropLast {pat : List α} (hpat : pat ≠ []) : ¬ pat <:+: pat.dropLast := by
  intro hi
  have hlen := hi.length_le
  have hpos : 0 < pat.length := List.length_pos_iff.mpr hpat
  rw [List.length_dropLast] at hlen
  omega

/-- A cut is found exactly when the sequence is `a ++ pat ++ b` and no occurrence of the pattern
starts inside `a`. -/
theorem splitOnce_eq_some_iff {pat s a b : List α} (hpat : pat ≠ []) :
    splitOnce pat s = some (a, b) ↔ s = a ++ pat ++ b ∧ ¬ pat <:+: a ++ pat.dropLast := by
  induction s generalizing a with
  | nil => simp [splitOnce, hpat]
  | cons c s ih =>
    simp only [splitOnce]
    by_cases hp : pat <+: c :: s
    · rw [if_pos hp]
      constructor
      · intro h
        simp only [Option.some.injEq, Prod.mk.injEq] at h
        obtain ⟨rfl, rfl⟩ := h
        obtain ⟨t, ht⟩ := hp
        exact ⟨by simp [← ht], not_isInfix_dropLast hpat⟩
      · rintro ⟨hs, hn⟩
        obtain rfl := eq_nil_of_isPrefix hpat (hs ▸ hp) hn
        have hb : (c :: s).drop pat.length = b := by rw [hs]; simp
        simp [hb]
    · rw [if_neg hp, Option.map_eq_some_iff]
      constructor
      · rintro ⟨⟨a', b'⟩, h', he⟩
        simp only [Prod.mk.injEq] at he
        obtain ⟨rfl, rfl⟩ := he
        obtain ⟨hs, hn⟩ := ih.mp h'
        refine ⟨by rw [hs]; simp, ?_⟩
        rw [List.cons_append, List.infix_cons_iff]
        rintro (h | h)
        · apply hp
          refine h.trans ⟨pat.getLast hpat :: b', ?_⟩
          rw [hs, List.cons_append, List.append_assoc, List.append_assoc,
            dropLast_append_getLast_cons hpat]
        · exact hn h
      · rintro ⟨hs, hn⟩
        cases a with
        | nil => exact absurd ⟨b, by simpa using hs.symm⟩ hp
        | cons d a =>
          simp only [List.cons_append, List.cons.injEq] at hs
          obtain ⟨rfl, hs⟩ := hs
          rw [List.cons_append, List.infix_cons_iff, not_or] at hn
          exact ⟨(a, b), ih.mpr ⟨by simpa using hs, hn.2⟩, rfl⟩

/-- An occurrence of a nonempty pattern lies inside the sequence. -/
theorem find_add_length_le {pat s : List α} {i : ℕ} (h : find pat s = some i) :
    i + pat.length ≤ s.length := by
  obtain ⟨⟨a, b⟩, hs, rfl⟩ := Option.map_eq_some_iff.mp h
  rw [← splitOnce_append hs]
  simp only [List.length_append]
  omega

/-- Cutting at a single symbol: the first part is everything before the first such symbol. -/
theorem splitOnce_singleton_iff {d : α} {s a b : List α} :
    splitOnce [d] s = some (a, b) ↔ s = a ++ d :: b ∧ d ∉ a := by
  rw [splitOnce_eq_some_iff (by simp)]
  simp [List.singleton_infix_iff]

/-- A sequence is taken apart uniquely at its first delimiter. -/
theorem append_cons_inj_iff {d : α} {a a' b b' : List α} (ha : d ∉ a) (ha' : d ∉ a') :
    a ++ d :: b = a' ++ d :: b' ↔ a = a' ∧ b = b' := by
  constructor
  · intro h
    have hcut := splitOnce_singleton_iff.mpr ⟨h, ha'⟩
    rw [splitOnce_singleton_iff.mpr ⟨rfl, ha⟩] at hcut
    simpa using hcut
  · rintro ⟨rfl, rfl⟩
    rfl

omit [DecidableEq α] in
/-- A sequence that is taken apart at a delimiter, cut again where no delimiter follows. -/
theorem eq_append_cons_of_notMem {d : α} {a rest p q : List α} (hd : d ∉ rest)
    (h : a ++ rest = p ++ d :: q) : ∃ x, a = p ++ d :: x ∧ q = x ++ rest := by
  rcases List.append_eq_append_iff.mp h with ⟨middle, -, hrest⟩ | ⟨middle, ha, hq⟩
  · exact absurd (by simp [hrest] : d ∈ rest) hd
  · cases middle with
    | nil =>
      rw [List.nil_append] at hq
      exact absurd (by simp [← hq] : d ∈ rest) hd
    | cons e middle =>
      obtain ⟨rfl, rfl⟩ := List.cons.inj hq
      exact ⟨middle, ha, rfl⟩

omit [DecidableEq α] in
/-- Two sequences cut at some delimiter each are equal exactly when they are cut at the same place,
or the place of one cut lies before the place of the other. -/
theorem append_cons_eq_append_cons_iff {d : α} {a a' b b' : List α} :
    a ++ d :: b = a' ++ d :: b' ↔ (a = a' ∧ b = b') ∨
      (∃ x, a' = a ++ d :: x ∧ b = x ++ d :: b') ∨ ∃ x, a = a' ++ d :: x ∧ b' = x ++ d :: b := by
  constructor
  · intro h
    rcases List.append_eq_append_iff.mp h with ⟨x, hx, hb⟩ | ⟨x, hx, hb⟩
    · cases x with
      | nil => exact Or.inl (by simp_all)
      | cons e x =>
        obtain ⟨rfl, rfl⟩ := List.cons.inj hb
        exact Or.inr (Or.inl ⟨x, hx, rfl⟩)
    · cases x with
      | nil => exact Or.inl (by simp_all)
      | cons e x =>
        obtain ⟨rfl, rfl⟩ := List.cons.inj hb
        exact Or.inr (Or.inr ⟨x, hx, rfl⟩)
  · rintro (⟨rfl, rfl⟩ | ⟨x, rfl, rfl⟩ | ⟨x, rfl, rfl⟩)
    · rfl
    · simp
    · simp

/-- The part before the leftmost occurrence is shorter than the sequence. -/
theorem length_lt_of_splitOnce {pat s a b : List α} (hpat : pat ≠ [])
    (h : splitOnce pat s = some (a, b)) : b.length < s.length := by
  have hpos : 0 < pat.length := List.length_pos_iff.mpr hpat
  rw [← splitOnce_append h]
  simp only [List.length_append]
  omega

/-! ## Cutting everywhere -/

/-- The scan behind `split`: the first `skip` symbols belong to an occurrence already found. -/
def splitFrom (pat : List α) : ℕ → List α → List (List α)
  | _, [] => [[]]
  | skip + 1, _ :: s => splitFrom pat skip s
  | 0, c :: s =>
    if pat <+: c :: s then [] :: splitFrom pat (pat.length - 1) s
    else (splitFrom pat 0 s).modifyHead (c :: ·)

/-- The pieces of `s` between the leftmost, non-overlapping occurrences of `pat`. -/
def split (pat s : List α) : List (List α) := splitFrom pat 0 s

/-- Skipping is dropping. -/
theorem splitFrom_eq_split_drop (pat : List α) (skip : ℕ) (s : List α) :
    splitFrom pat skip s = split pat (s.drop skip) := by
  induction skip generalizing s with
  | zero => rfl
  | succ skip ih =>
    cases s with
    | nil => rfl
    | cons c s => rw [splitFrom, ih, List.drop_succ_cons]

/-- A sequence without the pattern is a single piece. -/
theorem split_of_splitOnce_eq_none {pat s : List α} (h : splitOnce pat s = none) :
    split pat s = [s] := by
  induction s with
  | nil => rfl
  | cons c s ih =>
    simp only [splitOnce] at h
    split at h
    · simp at h
    · rename_i hp
      have hs : split pat s = [s] := ih (Option.map_eq_none_iff.mp h)
      rw [split, splitFrom, if_neg hp]
      rw [split] at hs
      simp [hs]

/-- After the first cut the rest is split on its own. -/
theorem split_of_splitOnce_eq_some {pat s a b : List α} (hpat : pat ≠ [])
    (h : splitOnce pat s = some (a, b)) : split pat s = a :: split pat b := by
  induction s generalizing a with
  | nil => simp [splitOnce, hpat] at h
  | cons c s ih =>
    simp only [splitOnce] at h
    split at h
    · rename_i hp
      simp only [Option.some.injEq, Prod.mk.injEq] at h
      obtain ⟨rfl, rfl⟩ := h
      obtain ⟨n, hn⟩ := Nat.exists_eq_succ_of_ne_zero (List.length_pos_iff.mpr hpat).ne'
      rw [split, splitFrom, if_pos hp, splitFrom_eq_split_drop, hn]
      rfl
    · rename_i hp
      obtain ⟨⟨a', b'⟩, h', he⟩ := Option.map_eq_some_iff.mp h
      simp only [Prod.mk.injEq] at he
      obtain ⟨rfl, rfl⟩ := he
      have hs : split pat s = a' :: split pat b' := ih h'
      rw [split, splitFrom, if_neg hp]
      rw [split] at hs
      simp [hs]

/-- Induction along the cuts of a sequence: it is one piece, or a piece followed by a shorter
sequence. -/
theorem split_induction {pat : List α} (hpat : pat ≠ []) {motive : List α → Prop}
    (whole : ∀ s, splitOnce pat s = none → motive s)
    (cut : ∀ s a b, splitOnce pat s = some (a, b) → motive b → motive s) (s : List α) :
    motive s := by
  induction hlen : s.length using Nat.strong_induction_on generalizing s with
  | _ n ih =>
    cases h : splitOnce pat s with
    | none => exact whole s h
    | some p =>
      refine cut s p.1 p.2 h (ih p.2.length ?_ p.2 rfl)
      exact hlen ▸ length_lt_of_splitOnce hpat h

/-- No piece contains the pattern. -/
theorem not_infix_of_mem_split {pat s piece : List α} (hpat : pat ≠ [])
    (h : piece ∈ split pat s) : ¬ pat <:+: piece := by
  induction s using split_induction hpat with
  | whole s hs =>
    rw [split_of_splitOnce_eq_none hs, List.mem_singleton] at h
    exact h ▸ splitOnce_eq_none_iff.mp hs
  | cut s a b hs ih =>
    rw [split_of_splitOnce_eq_some hpat hs, List.mem_cons] at h
    rcases h with rfl | h
    · have hn := ((splitOnce_eq_some_iff hpat).mp hs).2
      exact fun hi => hn (hi.trans (List.prefix_append _ _).isInfix)
    · exact ih h

/-! ## Occurrences and separators -/

omit [DecidableEq α] in
/-- A pattern without the symbol `c` cannot straddle a `c`. -/
theorem infix_append_cons_iff {pat a b : List α} {c : α} (hc : c ∉ pat) :
    pat <:+: a ++ c :: b ↔ pat <:+: a ∨ pat <:+: b := by
  constructor
  · intro h
    rcases List.infix_append_iff.mp h with h | h | ⟨l₁, l₂, rfl, h₁, h₂⟩
    · exact Or.inl h
    · rcases List.infix_cons_iff.mp h with h | h
      · cases pat with
        | nil => exact Or.inl List.nil_infix
        | cons d pat =>
          have hd : d = c := (List.cons_prefix_cons.mp h).1
          simp [hd] at hc
      · exact Or.inr h
    · cases l₂ with
      | nil => exact Or.inl (by simpa using h₁.isInfix)
      | cons d l₂ =>
        have hd : d = c := (List.cons_prefix_cons.mp h₂).1
        simp [hd] at hc
  · rintro (h | h)
    · exact List.infix_append_of_infix_left h
    · exact List.infix_append_of_infix_right (List.infix_cons h)

omit [DecidableEq α] in
/-- A front that shares no symbol with a nonempty pattern does not matter for its occurrences. -/
theorem infix_append_iff_right {pat a b : List α} (hpat : pat ≠ []) (h : ∀ c ∈ pat, c ∉ a) :
    pat <:+: a ++ b ↔ pat <:+: b := by
  induction a with
  | nil => simp
  | cons d a ih =>
    obtain ⟨c, pat, rfl⟩ := List.exists_cons_of_ne_nil hpat
    have hne : c ≠ d := fun hcd => h c (by simp) (by simp [hcd])
    rw [List.cons_append, List.infix_cons_iff, List.cons_prefix_cons,
      ih fun e he hmem => h e he (by simp [hmem])]
    simp [hne]

omit [DecidableEq α] in
/-- An end that shares no symbol with a nonempty pattern does not matter for its occurrences. -/
theorem infix_append_iff_left {pat a b : List α} (hpat : pat ≠ []) (h : ∀ c ∈ pat, c ∉ b) :
    pat <:+: a ++ b ↔ pat <:+: a := by
  have hrev := infix_append_iff_right (a := b.reverse) (b := a.reverse)
    (List.reverse_ne_nil_iff.mpr hpat) (by simpa using h)
  rwa [← List.reverse_append, List.reverse_infix, List.reverse_infix] at hrev

omit [DecidableEq α] in
/-- Joining two lists of parts is joining what each of them is joined to. -/
theorem intercalate_append {parts parts' : List (List α)} (joint : List α) (h : parts ≠ [])
    (h' : parts' ≠ []) :
    joint.intercalate (parts ++ parts') =
      joint.intercalate parts ++ joint ++ joint.intercalate parts' := by
  induction parts with
  | nil => exact absurd rfl h
  | cons p parts ih =>
    cases parts with
    | nil => rw [List.singleton_append, List.intercalate_cons_of_ne_nil h',
        List.intercalate_singleton]
    | cons q parts =>
      rw [List.cons_append, List.intercalate_cons_of_ne_nil (by simp), ih (by simp),
        List.intercalate_cons_cons]
      simp only [List.append_assoc]

omit [DecidableEq α] in
/-- A nonempty pattern occurs in joined parts exactly when it occurs in one of them, if it has no
symbol in common with what joins them. -/
theorem infix_intercalate_iff {pat joint : List α} (hpat : pat ≠ []) (hjoint : joint ≠ [])
    (h : ∀ c ∈ pat, c ∉ joint) (parts : List (List α)) :
    pat <:+: joint.intercalate parts ↔ ∃ part ∈ parts, pat <:+: part := by
  obtain ⟨c, joint, rfl⟩ := List.exists_cons_of_ne_nil hjoint
  induction parts with
  | nil => simpa using hpat
  | cons p parts ih =>
    cases parts with
    | nil => simp
    | cons q parts =>
      rw [List.intercalate_cons_cons, List.append_assoc, List.cons_append,
        infix_append_cons_iff fun hc => h c hc (by simp),
        infix_append_iff_right hpat fun d hd hmem => h d hd (by simp [hmem]), ih]
      simp

/-- A cut is the same when something is appended. -/
theorem splitOnce_append_right {pat s a b : List α} (hpat : pat ≠ [])
    (h : splitOnce pat s = some (a, b)) (t : List α) :
    splitOnce pat (s ++ t) = some (a, b ++ t) := by
  obtain ⟨rfl, hn⟩ := (splitOnce_eq_some_iff hpat).mp h
  exact (splitOnce_eq_some_iff hpat).mpr ⟨by simp, hn⟩

/-- A cut moves when something is put in front that shares no symbol with the pattern. -/
theorem splitOnce_append_left {pat front s a b : List α} (hpat : pat ≠ [])
    (hfront : ∀ c ∈ pat, c ∉ front) (h : splitOnce pat s = some (a, b)) :
    splitOnce pat (front ++ s) = some (front ++ a, b) := by
  obtain ⟨rfl, hn⟩ := (splitOnce_eq_some_iff hpat).mp h
  refine (splitOnce_eq_some_iff hpat).mpr ⟨by simp, ?_⟩
  rwa [List.append_assoc, infix_append_iff_right hpat hfront]

/-- A cut moves when something without the pattern is put in front, with a symbol between that is
not in the pattern. -/
theorem splitOnce_append_cons {pat front s : List α} {d : α} (hpat : pat ≠ []) (hd : d ∉ pat)
    (hfront : splitOnce pat front = none) :
    splitOnce pat (front ++ d :: s) =
      (splitOnce pat s).map fun entry => (front ++ d :: entry.1, entry.2) := by
  rw [splitOnce_eq_none_iff] at hfront
  cases hcut : splitOnce pat s with
  | none =>
    rw [splitOnce_eq_none_iff] at hcut
    refine splitOnce_eq_none_iff.mpr fun hoccurs => ?_
    exact ((infix_append_cons_iff hd).mp hoccurs).elim hfront hcut
  | some entry =>
    obtain ⟨heq, hn⟩ := (splitOnce_eq_some_iff hpat).mp hcut
    refine (splitOnce_eq_some_iff hpat).mpr ⟨by simp [heq], fun hoccurs => ?_⟩
    rw [List.append_assoc, List.cons_append] at hoccurs
    exact ((infix_append_cons_iff hd).mp hoccurs).elim hfront hn

/-- An occurrence of the pattern separates the pieces on its two sides, if no other occurrence can
reach into it from the left. -/
theorem split_append_pat {pat s : List α} (hpat : pat ≠ []) (hs : ∀ c ∈ s.getLast?, c ∉ pat)
    (t : List α) : split pat (s ++ (pat ++ t)) = split pat s ++ split pat t := by
  have hlast : ¬ pat <:+: pat.dropLast := not_isInfix_dropLast hpat
  induction s using split_induction hpat with
  | whole s hnone =>
    have hclean := splitOnce_eq_none_iff.mp hnone
    have hcut : splitOnce pat (s ++ (pat ++ t)) = some (s, t) := by
      refine (splitOnce_eq_some_iff hpat).mpr ⟨by simp, ?_⟩
      rcases List.eq_nil_or_concat' s with rfl | ⟨s, c, rfl⟩
      · exact hlast
      · rw [List.append_assoc, List.singleton_append,
          infix_append_cons_iff (hs c (by simp))]
        rintro (h | h)
        · exact hclean (List.infix_append_of_infix_left h)
        · exact hlast h
    rw [split_of_splitOnce_eq_some hpat hcut, split_of_splitOnce_eq_none hnone,
      List.singleton_append]
  | cut s a b hcut ih =>
    have hb : ∀ c ∈ b.getLast?, c ∉ pat := by
      obtain rfl := splitOnce_append hcut
      intro c hc
      have hne : b ≠ [] := by
        rintro rfl
        simp at hc
      exact hs c (by rwa [List.getLast?_append_of_ne_nil _ hne])
    rw [split_of_splitOnce_eq_some hpat (splitOnce_append_right hpat hcut (pat ++ t)),
      split_of_splitOnce_eq_some hpat hcut, ih hb, List.cons_append]

/-- A sequence without the pattern is a single piece. -/
theorem split_of_unmatched {pat s : List α} (h : ¬ pat <:+: s) : split pat s = [s] :=
  split_of_splitOnce_eq_none (splitOnce_eq_none_iff.mpr h)

/-! ## Pieces of joined lines -/

/-- A sequence has at least one piece. -/
theorem split_ne_nil {pat : List α} (hpat : pat ≠ []) (s : List α) : split pat s ≠ [] := by
  induction s using split_induction hpat with
  | whole s hs => simp [split_of_splitOnce_eq_none hs]
  | cut s a b hs ih => simp [split_of_splitOnce_eq_some hpat hs]

/-- What stands in front of the first occurrence of the pattern. -/
def firstPiece (pat s : List α) : List α := (split pat s).headD []

/-- The pieces behind the first occurrence of the pattern. -/
def laterPieces (pat s : List α) : List (List α) := (split pat s).tail

/-- The pieces are the first one and the later ones. -/
theorem split_eq_cons {pat : List α} (hpat : pat ≠ []) (s : List α) :
    split pat s = firstPiece pat s :: laterPieces pat s := by
  obtain ⟨first, later, hsplit⟩ := List.exists_cons_of_ne_nil (split_ne_nil hpat s)
  simp [firstPiece, laterPieces, hsplit]

/-- A sequence without the pattern has no later pieces. -/
theorem pieces_of_unmatched {pat s : List α} (h : ¬ pat <:+: s) :
    firstPiece pat s = s ∧ laterPieces pat s = [] := by
  simp [firstPiece, laterPieces, split_of_unmatched h]

/-- Every piece is a part of the sequence. -/
theorem infix_of_mem_split {pat s piece : List α} (hpat : pat ≠ []) (h : piece ∈ split pat s) :
    piece <:+: s := by
  induction s using split_induction hpat with
  | whole s hs =>
    rw [split_of_splitOnce_eq_none hs, List.mem_singleton] at h
    exact h ▸ List.infix_refl _
  | cut s a b hs ih =>
    rw [split_of_splitOnce_eq_some hpat hs, List.mem_cons] at h
    obtain rfl := splitOnce_append hs
    rcases h with rfl | h
    · exact ⟨[], pat ++ b, by simp⟩
    · exact (ih h).trans (List.suffix_append _ _).isInfix

/-- A front that shares no symbol with the pattern belongs to the first piece. -/
theorem split_append_of_notMem {pat front : List α} (hpat : pat ≠ [])
    (hfront : ∀ c ∈ pat, c ∉ front) (s : List α) :
    split pat (front ++ s) = (split pat s).modifyHead (front ++ ·) := by
  cases hcut : splitOnce pat s with
  | none =>
    have hnone := splitOnce_eq_none_iff.mp hcut
    rw [split_of_splitOnce_eq_none hcut, split_of_unmatched, List.modifyHead_cons]
    rwa [infix_append_iff_right hpat hfront]
  | some entry =>
    rw [split_of_splitOnce_eq_some hpat (splitOnce_append_left hpat hfront hcut),
      split_of_splitOnce_eq_some hpat hcut, List.modifyHead_cons]

/-- A symbol that is not in the pattern joins the last piece in front of it and the first piece
behind it. -/
theorem split_append_cons {pat : List α} {d : α} (hpat : pat ≠ []) (hd : d ∉ pat)
    (a b : List α) : ∃ front last, split pat a = front ++ [last] ∧
      split pat (a ++ d :: b) = front ++ (split pat b).modifyHead (last ++ d :: ·) := by
  induction a using split_induction hpat with
  | whole a hnone =>
    refine ⟨[], a, split_of_splitOnce_eq_none hnone, ?_⟩
    have hmove := @splitOnce_append_cons _ _ pat a b d hpat hd hnone
    cases hcut : splitOnce pat b with
    | none =>
      rw [hcut, Option.map_none] at hmove
      simp [split_of_splitOnce_eq_none hmove, split_of_splitOnce_eq_none hcut]
    | some entry =>
      rw [hcut, Option.map_some] at hmove
      simp [split_of_splitOnce_eq_some hpat hmove, split_of_splitOnce_eq_some hpat hcut]
  | cut a x y hcut ih =>
    obtain ⟨front, last, hfront, hjoined⟩ := ih
    refine ⟨x :: front, last, ?_, ?_⟩
    · rw [split_of_splitOnce_eq_some hpat hcut, hfront, List.cons_append]
    · rw [split_of_splitOnce_eq_some hpat (splitOnce_append_right hpat hcut (d :: b)), hjoined,
        List.cons_append]

/-- The first piece stands at the beginning. -/
theorem firstPiece_isPrefix {pat : List α} (hpat : pat ≠ []) (s : List α) :
    firstPiece pat s <+: s := by
  cases hcut : splitOnce pat s with
  | none => simp [firstPiece, split_of_splitOnce_eq_none hcut]
  | some entry =>
    rw [firstPiece, split_of_splitOnce_eq_some hpat hcut, ← splitOnce_append hcut]
    exact ⟨pat ++ entry.2, by simp⟩

/-- The first piece, symbol by symbol. -/
theorem firstPiece_cons {pat : List α} (hpat : pat ≠ []) (c : α) (s : List α) :
    firstPiece pat (c :: s) = if pat <+: c :: s then [] else c :: firstPiece pat s := by
  obtain ⟨first, later, hsplit⟩ := List.exists_cons_of_ne_nil (split_ne_nil hpat s)
  have hs : splitFrom pat 0 s = first :: later := hsplit
  rw [firstPiece, firstPiece, split, splitFrom, hsplit]
  split_ifs
  · rfl
  · rw [hs]
    rfl

/-- The first piece of a sequence with a symbol in it that is not in the pattern. -/
theorem firstPiece_append_cons {pat : List α} {d : α} (hpat : pat ≠ []) (hd : d ∉ pat)
    (a b : List α) : firstPiece pat (a ++ d :: b) =
      if pat <:+: a then firstPiece pat a else a ++ d :: firstPiece pat b := by
  split_ifs with hoccurs
  · have hne : splitOnce pat a ≠ none := fun hnone => splitOnce_eq_none_iff.mp hnone hoccurs
    obtain ⟨⟨x, y⟩, hcut⟩ := Option.ne_none_iff_exists'.mp hne
    rw [firstPiece, firstPiece, split_of_splitOnce_eq_some hpat hcut,
      split_of_splitOnce_eq_some hpat (splitOnce_append_right hpat hcut (d :: b))]
    rfl
  · obtain ⟨front, last, hsplit, hjoined⟩ := split_append_cons hpat hd a b
    rw [split_of_unmatched hoccurs] at hsplit
    obtain ⟨rfl, rfl⟩ : front = [] ∧ a = last := by
      cases front with
      | nil => simpa using hsplit
      | cons first front => simp at hsplit
    rw [firstPiece, hjoined, split_eq_cons hpat b]
    rfl

/-- The pieces of joined lines, each piece by its lines: a line that is cut ends one piece, is the
pieces in its middle, and begins another one. -/
def linePieces (pat : List α) : List (List α) → List (List (List α))
  | [] => [[]]
  | line :: ls => (split pat line).dropLast.map ([·]) ++
      (linePieces pat ls).modifyHead ((split pat line).getLast?.toList ++ ·)

/-- The lines of a piece are not none, if there are lines. -/
theorem linePieces_cons {pat : List α} (hpat : pat ≠ []) (line : List α) (ls : List (List α)) :
    ∃ piece pieces, linePieces pat (line :: ls) = piece :: pieces ∧ piece ≠ [] := by
  rw [linePieces, split_eq_cons hpat]
  cases hlater : laterPieces pat line with
  | nil =>
    cases hrest : linePieces pat ls with
    | nil =>
      cases ls with
      | nil => simp [linePieces] at hrest
      | cons line' ls =>
        obtain ⟨piece, pieces, h, -⟩ := linePieces_cons hpat line' ls
        simp [h] at hrest
    | cons piece pieces => simp
  | cons second later => simp

/-- Joined lines are cut into joined lines. -/
theorem split_intercalate {pat : List α} {d : α} (hpat : pat ≠ []) (hd : d ∉ pat)
    {ls : List (List α)} (hne : ls ≠ []) :
    split pat ([d].intercalate ls) = (linePieces pat ls).map ([d].intercalate ·) := by
  have hones : ∀ pieces : List (List α),
      (pieces.map ([·])).map ([d].intercalate ·) = pieces := by simp [Function.comp_def]
  induction ls with
  | nil => exact absurd rfl hne
  | cons line ls ih =>
    cases ls with
    | nil =>
      obtain ⟨front, last, hsplit⟩ : ∃ front last, split pat line = front ++ [last] :=
        (List.eq_nil_or_concat' _).resolve_left (split_ne_nil hpat line)
      simp [linePieces, hsplit, Function.comp_def]
    | cons line' ls =>
      obtain ⟨front, last, hsplit, hjoined⟩ :=
        split_append_cons hpat hd line ([d].intercalate (line' :: ls))
      obtain ⟨piece, pieces, hpieces, hpiece⟩ := linePieces_cons hpat line' ls
      have hlines : linePieces pat (line :: line' :: ls) =
          front.map ([·]) ++ (last :: piece) :: pieces := by
        rw [linePieces, hsplit, hpieces]
        simp
      rw [List.intercalate_cons_cons, List.append_assoc, List.singleton_append, hjoined,
        ih (by simp), hlines, hpieces, List.map_append, hones]
      simp [List.intercalate_cons_of_ne_nil hpiece]

end Text
