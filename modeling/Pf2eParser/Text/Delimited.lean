import Pf2eParser.Text.Search

/-!
# Delimited parts of a sequence

A match of two delimiters in a sequence is an opening delimiter with a closing one somewhere behind
it; its content is what stands between them.  The first match is the leftmost one, and the shortest
of those that begin there.  `Matches` lists the contents of the first match, of the first match
behind it, and so on.  There is exactly one such list (`existsUnique_matches`), and
`isFirstMatch_iff` finds its members by two searches.
-/

namespace Text

variable {α : Type*} {opening closing s before content after : List α}

/-- The content stands between two delimiters in `s`. -/
def IsMatch (opening closing s before content after : List α) : Prop :=
  s = before ++ opening ++ (content ++ closing ++ after)

/-- No other match begins further to the left, and none that begins here is shorter. -/
structure IsFirstMatch (opening closing s before content after : List α) : Prop where
  isMatch : IsMatch opening closing s before content after
  leftmost : ∀ before' content' after', IsMatch opening closing s before' content' after' →
    before.length ≤ before'.length
  shortest : ∀ content' after', IsMatch opening closing s before content' after' →
    content.length ≤ content'.length

/-- The contents of the leftmost, shortest, non-overlapping matches, in order. -/
inductive Matches (opening closing : List α) : List α → List (List α) → Prop
  | none {s : List α} : (∀ before content after, ¬ IsMatch opening closing s before content after) →
      Matches opening closing s []
  | next {s before content after : List α} {contents : List (List α)} :
      IsFirstMatch opening closing s before content after → Matches opening closing after contents →
        Matches opening closing s (content :: contents)

/-- There is a match with a given front exactly if a closing delimiter is behind it. -/
theorem exists_isMatch_iff {a b : List α} (hs : s = a ++ opening ++ b) :
    (∃ content after, IsMatch opening closing s a content after) ↔ closing <:+: b := by
  unfold IsMatch
  rw [hs]
  simp only [List.append_cancel_left_eq]
  exact ⟨fun ⟨content, after, h⟩ => ⟨content, after, h.symm⟩,
    fun ⟨content, after, h⟩ => ⟨content, after, h.symm⟩⟩

/-- Behind an occurrence to the left there is all that is behind one to the right. -/
theorem suffix_of_length_le {pat a b a' b' : List α} (h : a ++ pat ++ b = a' ++ pat ++ b')
    (hle : a.length ≤ a'.length) : b' <:+ b := by
  have hlength := congrArg List.length h
  simp only [List.length_append] at hlength
  have hsuffix : b' <:+ a ++ pat ++ b := h ▸ List.suffix_append _ _
  exact List.suffix_of_suffix_length_le hsuffix (List.suffix_append _ _) (by omega)

/-- A sequence that neither has a doubled delimiter nor ends in its first half is free of it up to
the first half behind the sequence. -/
theorem not_infix_append_half {d : α} (h : ¬ [d, d] <:+: s) (hlast : s.getLast? ≠ some d) :
    ¬ [d, d] <:+: s ++ [d] := by
  intro hinfix
  obtain hsuffix | hinfix := List.infix_concat_iff.mp hinfix
  · obtain hnil | ⟨t, ht, hsuffix⟩ := List.suffix_concat_iff.mp hsuffix
    · exact absurd hnil (by simp)
    · obtain rfl : t = [d] := (List.append_inj_left' ht rfl).symm
      obtain ⟨front, rfl⟩ := hsuffix
      exact hlast (by simp)
  · exact h hinfix

variable [DecidableEq α]

/-- A cut is the one with the shortest front. -/
theorem splitOnce_eq_some_iff_leftmost {pat a b : List α} (hpat : pat ≠ []) :
    splitOnce pat s = some (a, b) ↔
      s = a ++ pat ++ b ∧ ∀ a' b', s = a' ++ pat ++ b' → a.length ≤ a'.length := by
  have hleft : ∀ {a b : List α}, splitOnce pat s = some (a, b) →
      ∀ a' b', s = a' ++ pat ++ b' → a.length ≤ a'.length := by
    intro a b h a' b' heq
    obtain ⟨hs, hfree⟩ := (splitOnce_eq_some_iff hpat).mp h
    by_contra hlt
    have hpos := List.length_pos_iff.mpr hpat
    have hfront : a ++ pat.dropLast <+: s := by
      rw [hs, List.append_assoc]
      exact (List.prefix_append_right_inj a).mpr ((List.dropLast_prefix pat).trans
        (List.prefix_append pat b))
    have hfront' : a' ++ pat <+: s := heq ▸ List.prefix_append _ _
    have hshort : a' ++ pat <+: a ++ pat.dropLast := by
      refine List.prefix_of_prefix_length_le hfront' hfront ?_
      rw [List.length_append, List.length_append, List.length_dropLast]
      omega
    exact hfree ((List.suffix_append a' pat).isInfix.trans hshort.isInfix)
  constructor
  · intro h
    exact ⟨((splitOnce_eq_some_iff hpat).mp h).1, hleft h⟩
  · rintro ⟨hs, hmin⟩
    cases hcut : splitOnce pat s with
    | none =>
      refine absurd ?_ (splitOnce_eq_none_iff.mp hcut)
      exact hs ▸ ⟨a, b, rfl⟩
    | some entry =>
      obtain ⟨a', b'⟩ := entry
      have hs' := (splitOnce_append hcut).symm
      have hlength := Nat.le_antisymm (hmin a' b' hs') (hleft hcut a b hs)
      have heq := hs.symm.trans hs'
      rw [List.append_assoc, List.append_assoc] at heq
      obtain ⟨rfl, hrest⟩ := List.append_inj heq hlength
      rw [List.append_cancel_left hrest]

/-- The first match is found by a search for the opening delimiter, and behind it one for the
closing delimiter. -/
theorem isFirstMatch_iff (hopening : opening ≠ []) (hclosing : closing ≠ []) :
    IsFirstMatch opening closing s before content after ↔
      ∃ opened, splitOnce opening s = some (before, opened) ∧
        splitOnce closing opened = some (content, after) := by
  constructor
  · intro h
    refine ⟨content ++ closing ++ after, ?_, ?_⟩
    · refine (splitOnce_eq_some_iff_leftmost hopening).mpr ⟨h.isMatch, fun a b hs => ?_⟩
      -- an opening further to the left would have the same closing behind it
      by_contra hlt
      have hsuffix := suffix_of_length_le (hs.symm.trans h.isMatch) (by omega)
      have hclosed : closing <:+: content ++ closing ++ after := ⟨content, after, rfl⟩
      obtain ⟨content', after', hmatch⟩ :=
        (exists_isMatch_iff hs).mpr (hclosed.trans hsuffix.isInfix)
      exact hlt (h.leftmost a content' after' hmatch)
    · refine (splitOnce_eq_some_iff_leftmost hclosing).mpr ⟨rfl, fun content' after' heq => ?_⟩
      apply h.shortest content' after'
      rw [IsMatch, ← heq]
      exact h.isMatch
  · rintro ⟨opened, hopen, hclose⟩
    obtain ⟨hs, hleft⟩ := (splitOnce_eq_some_iff_leftmost hopening).mp hopen
    obtain ⟨rfl, hshort⟩ := (splitOnce_eq_some_iff_leftmost hclosing).mp hclose
    refine ⟨hs, fun before' content' after' hmatch => hleft _ _ hmatch,
      fun content' after' hmatch => hshort content' after' ?_⟩
    exact List.append_cancel_left (hs.symm.trans hmatch)

/-- There is no match exactly if there is no opening delimiter, or no closing one behind the first
opening one. -/
theorem forall_not_isMatch_iff (hopening : opening ≠ []) :
    (∀ before content after, ¬ IsMatch opening closing s before content after) ↔
      splitOnce opening s = none ∨ ∃ before opened,
        splitOnce opening s = some (before, opened) ∧ splitOnce closing opened = none := by
  simp only [@splitOnce_eq_none_iff _ _ closing]
  constructor
  · intro h
    cases hopen : splitOnce opening s with
    | none => exact Or.inl rfl
    | some entry =>
      obtain ⟨a, opened⟩ := entry
      refine Or.inr ⟨a, opened, rfl, fun hclosed => ?_⟩
      obtain ⟨content, after, hmatch⟩ :=
        (exists_isMatch_iff (splitOnce_append hopen).symm).mpr hclosed
      exact h a content after hmatch
  · rintro (hnone | ⟨a, opened, hopen, hopened⟩) b content after hmatch
    · exact splitOnce_eq_none_iff.mp hnone (hmatch ▸ ⟨b, _, rfl⟩)
    · obtain ⟨hs, hleft⟩ := (splitOnce_eq_some_iff_leftmost hopening).mp hopen
      have hsuffix := suffix_of_length_le (hs.symm.trans hmatch) (hleft b _ hmatch)
      have hclosed : closing <:+: content ++ closing ++ after := ⟨content, after, rfl⟩
      exact hopened (hclosed.trans hsuffix.isInfix)

/-- A sequence has no two lists of matches. -/
theorem Matches.eq (hopening : opening ≠ []) (hclosing : closing ≠ [])
    {contents others : List (List α)} (h : Matches opening closing s contents)
    (h' : Matches opening closing s others) : contents = others := by
  induction h generalizing others with
  | none hnone =>
    cases h' with
    | none _ => rfl
    | next hfirst _ => exact absurd hfirst.isMatch (hnone _ _ _)
  | next hfirst _ ih =>
    cases h' with
    | none hnone => exact absurd hfirst.isMatch (hnone _ _ _)
    | next hfirst' hrest' =>
      obtain ⟨opened, hopen, hclose⟩ := (isFirstMatch_iff hopening hclosing).mp hfirst
      obtain ⟨opened', hopen', hclose'⟩ := (isFirstMatch_iff hopening hclosing).mp hfirst'
      obtain ⟨-, rfl⟩ := Prod.mk.inj (Option.some.inj (hopen.symm.trans hopen'))
      obtain ⟨rfl, rfl⟩ := Prod.mk.inj (Option.some.inj (hclose.symm.trans hclose'))
      rw [ih hrest']

/-- A sequence has a list of matches. -/
theorem exists_matches (hopening : opening ≠ []) (hclosing : closing ≠ []) (s : List α) :
    ∃ contents, Matches opening closing s contents := by
  induction hn : s.length using Nat.strong_induction_on generalizing s with
  | _ n ih =>
    cases hopen : splitOnce opening s with
    | none => exact ⟨[], .none ((forall_not_isMatch_iff hopening).mpr (Or.inl hopen))⟩
    | some entry =>
      obtain ⟨before, opened⟩ := entry
      cases hclose : splitOnce closing opened with
      | none =>
        refine ⟨[], .none ((forall_not_isMatch_iff hopening).mpr ?_)⟩
        exact Or.inr ⟨before, opened, hopen, hclose⟩
      | some entry =>
        obtain ⟨content, after⟩ := entry
        have hlt := (length_lt_of_splitOnce hclosing hclose).trans
          (length_lt_of_splitOnce hopening hopen)
        obtain ⟨contents, hrest⟩ := ih after.length (hn ▸ hlt) after rfl
        have hfirst := (isFirstMatch_iff hopening hclosing).mpr ⟨opened, hopen, hclose⟩
        exact ⟨content :: contents, .next hfirst hrest⟩

/-- The matches of a sequence are determined. -/
theorem existsUnique_matches (hopening : opening ≠ []) (hclosing : closing ≠ []) (s : List α) :
    ∃! contents, Matches opening closing s contents := by
  obtain ⟨contents, h⟩ := exists_matches hopening hclosing s
  exact ⟨contents, h, fun others h' => (h.eq hopening hclosing h').symm⟩

end Text
