import Pf2eParser.Text.Whitespace
import Mathlib.Tactic.NormNum

/-!
# Decimal integers

Printing and reading of 64-bit signed integers in base ten.  Reading accepts what a number parser
accepts: an optional sign, at least one digit, any number of leading zeros, and a value in the range
of the type.  `parseInt64_displayInt64` is the round trip.
-/

namespace Text

/-- A natural number in base ten. -/
def displayNat (n : ℕ) : Str := Nat.toDigits 10 n

/-- An integer in base ten. -/
def displayInt (n : ℤ) : Str :=
  if n < 0 then '-' :: displayNat n.natAbs else displayNat n.natAbs

/-- A 64-bit integer in base ten. -/
def displayInt64 (n : Int64) : Str := displayInt n.toInt

/-- The value of a nonempty sequence of digits. -/
def parseDigits (s : Str) : Option ℕ :=
  if s.isEmpty || s.any (fun c => !c.isDigit) then none else some (Nat.ofDigitChars 10 s 0)

/-- The 64-bit integer with the given value, if there is one. -/
def checkedInt64 (n : ℤ) : Option Int64 :=
  if -2 ^ 63 ≤ n ∧ n < 2 ^ 63 then some (Int64.ofInt n) else none

/-- Read a 64-bit integer: an optional sign and then digits. -/
def parseInt64 : Str → Option Int64
  | '-' :: digits => (parseDigits digits).bind fun n => checkedInt64 (-n)
  | '+' :: digits => (parseDigits digits).bind fun n => checkedInt64 n
  | digits => (parseDigits digits).bind fun n => checkedInt64 n

/-- Every symbol of a printed natural number is a digit. -/
theorem isDigit_of_mem_displayNat {n : ℕ} {c : Char} (h : c ∈ displayNat n) : c.isDigit = true :=
  Nat.isDigit_of_mem_toDigits (by decide) (by decide) h

/-- A printed natural number is not empty. -/
theorem displayNat_ne_nil (n : ℕ) : displayNat n ≠ [] := Nat.toDigits_ne_nil

/-- A printed integer consists of digits and the minus sign. -/
theorem mem_displayInt {n : ℤ} {c : Char} (h : c ∈ displayInt n) : c = '-' ∨ c.isDigit = true := by
  unfold displayInt at h
  split at h
  · rcases List.mem_cons.mp h with rfl | h
    · exact Or.inl rfl
    · exact Or.inr (isDigit_of_mem_displayNat h)
  · exact Or.inr (isDigit_of_mem_displayNat h)

/-- Reading a printed natural number gives the number back. -/
theorem parseDigits_displayNat (n : ℕ) : parseDigits (displayNat n) = some n := by
  have hd : (displayNat n).any (fun c => !c.isDigit) = false := by
    rw [List.any_eq_false]
    intro c hc
    simp [isDigit_of_mem_displayNat hc]
  have he : (displayNat n).isEmpty = false := by simp [displayNat_ne_nil]
  rw [parseDigits, hd, he]
  simp [displayNat]

/-- Every 64-bit integer has a value in range. -/
theorem checkedInt64_toInt (n : Int64) : checkedInt64 n.toInt = some n := by
  rw [checkedInt64, if_pos ⟨Int64.le_toInt n, Int64.toInt_lt n⟩, Int64.ofInt_toInt]

/-- Reading a printed 64-bit integer gives the integer back. -/
theorem parseInt64_displayInt64 (n : Int64) : parseInt64 (displayInt64 n) = some n := by
  unfold displayInt64 displayInt
  split
  · rename_i hneg
    have hval : -(n.toInt.natAbs : ℤ) = n.toInt := by omega
    simp only [parseInt64, parseDigits_displayNat, Option.bind_some, hval, checkedInt64_toInt]
  · rename_i hpos
    have hval : (n.toInt.natAbs : ℤ) = n.toInt := by omega
    obtain ⟨c, cs, hc⟩ := List.exists_cons_of_ne_nil (displayNat_ne_nil n.toInt.natAbs)
    have hdig : c.isDigit = true := isDigit_of_mem_displayNat (n := n.toInt.natAbs) (by simp [hc])
    have hparse : parseInt64 (c :: cs) = (parseDigits (c :: cs)).bind fun n => checkedInt64 n := by
      unfold parseInt64
      split
      · rename_i heq
        simp only [List.cons.injEq] at heq
        exact absurd (heq.1 ▸ hdig) (by decide)
      · rename_i heq
        simp only [List.cons.injEq] at heq
        exact absurd (heq.1 ▸ hdig) (by decide)
      · rfl
    rw [hc, hparse, ← hc, parseDigits_displayNat, Option.bind_some, hval, checkedInt64_toInt]

/-- Different 64-bit integers are printed differently. -/
theorem displayInt64_injective : Function.Injective displayInt64 := by
  intro m n h
  have hm := parseInt64_displayInt64 m
  rw [h, parseInt64_displayInt64, Option.some.injEq] at hm
  exact hm.symm

example : parseInt64 "+007".toList = some 7 := by decide

end Text
