import Pf2eParser.Text.Whitespace

/-!
# Byte offsets

A text is searched and cut at offsets that count the bytes of its UTF-8 encoding.  A cut at an
offset behind the end of the text, or inside the encoding of a character, is an error (`none`).
`splitAtByte_append` says that the offset of a part is no such offset, whatever the characters are.
-/

namespace Text

/-- The number of bytes of a text. -/
def byteLength : Str → ℕ
  | [] => 0
  | c :: s => c.utf8Size + byteLength s

/-- Cut a text at a byte offset. -/
def splitAtByte : Str → ℕ → Option (Str × Str)
  | s, 0 => some ([], s)
  | [], _ + 1 => none
  | c :: s, offset + 1 =>
    if c.utf8Size ≤ offset + 1 then
      (splitAtByte s (offset + 1 - c.utf8Size)).map fun parts => (c :: parts.1, parts.2)
    else none

/-- The text from a byte offset on. -/
def sliceFrom (s : Str) (offset : ℕ) : Option Str := (splitAtByte s offset).map Prod.snd

/-- The text up to a byte offset. -/
def sliceTo (s : Str) (offset : ℕ) : Option Str := (splitAtByte s offset).map Prod.fst

/-- The byte offset of the leftmost occurrence of `pat` in `s`. -/
def findByte (pat s : Str) : Option ℕ := (splitOnce pat s).map fun parts => byteLength parts.1

theorem byteLength_append (s t : Str) : byteLength (s ++ t) = byteLength s + byteLength t := by
  induction s with
  | nil => rw [List.nil_append, byteLength, Nat.zero_add]
  | cons c s ih => rw [List.cons_append, byteLength, ih, byteLength, Nat.add_assoc]

/-- A text is cut at the offset of its parts. -/
theorem splitAtByte_append (s t : Str) : splitAtByte (s ++ t) (byteLength s) = some (s, t) := by
  induction s with
  | nil => cases t <;> rfl
  | cons c s ih =>
    have hpos := c.utf8Size_pos
    obtain ⟨offset, hoffset⟩ : ∃ offset, c.utf8Size + byteLength s = offset + 1 :=
      ⟨c.utf8Size + byteLength s - 1, by omega⟩
    have hrest : offset + 1 - c.utf8Size = byteLength s := by omega
    rw [List.cons_append, byteLength, hoffset, splitAtByte, if_pos (by omega), hrest, ih]
    rfl

/-- The parts of a text that is cut. -/
theorem append_of_splitAtByte {s a b : Str} {offset : ℕ}
    (h : splitAtByte s offset = some (a, b)) : a ++ b = s ∧ byteLength a = offset := by
  fun_induction splitAtByte s offset generalizing a with
  | case1 s =>
    obtain ⟨rfl, rfl⟩ := Prod.mk.inj (Option.some.inj h)
    exact ⟨rfl, rfl⟩
  | case2 offset => exact absurd h (by simp)
  | case3 c s offset hle ih =>
    obtain ⟨⟨a', b'⟩, hcut, heq⟩ := Option.map_eq_some_iff.mp h
    obtain ⟨rfl, rfl⟩ := Prod.mk.inj heq
    obtain ⟨hparts, hlength⟩ := ih hcut
    refine ⟨congrArg (c :: ·) hparts, ?_⟩
    rw [byteLength, hlength]
    omega
  | case4 c s offset hlt => exact absurd h (by simp)

/-- What is behind a positive offset is shorter. -/
theorem length_lt_of_sliceFrom {s t : Str} {offset : ℕ} (h : sliceFrom s offset = some t)
    (hpos : 0 < offset) : t.length < s.length := by
  obtain ⟨⟨a, b⟩, hcut, rfl⟩ := Option.map_eq_some_iff.mp h
  obtain ⟨rfl, hlength⟩ := append_of_splitAtByte hcut
  have hne : a ≠ [] := by
    rintro rfl
    exact absurd hlength hpos.ne
  have hlt := List.length_pos_iff.mpr hne
  rw [List.length_append]
  exact Nat.lt_add_of_pos_left hlt

/-- The slices around an occurrence that was found. -/
theorem slices_of_splitOnce {pat s a b : Str} (h : splitOnce pat s = some (a, b)) :
    findByte pat s = some (byteLength a) ∧ sliceTo s (byteLength a) = some a ∧
      sliceFrom s (byteLength a + byteLength pat) = some b := by
  have hparts := splitOnce_append h
  refine ⟨by rw [findByte, h, Option.map_some], ?_, ?_⟩
  · rw [sliceTo, ← hparts, List.append_assoc, splitAtByte_append, Option.map_some]
  · rw [sliceFrom, ← hparts, ← byteLength_append, splitAtByte_append, Option.map_some]

end Text
