import Mathlib.Data.Char
import Mathlib.Tactic.IntervalCases
import Mathlib.Tactic.SplitIfs
import Pf2eParser.Text.Bytes

/-!
# UTF-8, and what is not UTF-8

The bytes of a text, and the text of any bytes: `String::from_utf8_lossy` puts one replacement
character in the place of every longest sequence of bytes that begins like a character and is none.
The bytes of a text are read as the text, whatever comes after them (`fromUtf8Lossy_toUtf8_append`).
-/

namespace Text

/-- The bytes of a text. -/
def toUtf8 (s : Str) : List UInt8 := s.flatMap String.utf8EncodeChar

/-- `U+FFFD`. -/
def replacementCharacter : Char := '\uFFFD'

/-- What a first byte announces: how many bytes follow, the bounds of the next one, and the first
bits of the character. -/
def announced (b : ℕ) : Option (ℕ × ℕ × ℕ × ℕ) :=
  if b ≤ 0x7F then some (0, 0x80, 0xBF, b)
  else if 0xC2 ≤ b ∧ b ≤ 0xDF then some (1, 0x80, 0xBF, b - 0xC0)
  else if b = 0xE0 then some (2, 0xA0, 0xBF, 0)
  else if b = 0xED then some (2, 0x80, 0x9F, 0xD)
  else if 0xE1 ≤ b ∧ b ≤ 0xEF then some (2, 0x80, 0xBF, b - 0xE0)
  else if b = 0xF0 then some (3, 0x90, 0xBF, 0)
  else if b = 0xF4 then some (3, 0x80, 0x8F, 4)
  else if 0xF1 ≤ b ∧ b ≤ 0xF3 then some (3, 0x80, 0xBF, b - 0xF0)
  else none

/-- Read the bytes that have been announced: the character, or its replacement, and what is left. -/
def continued : ℕ → ℕ → ℕ → ℕ → List UInt8 → Char × List UInt8
  | 0, _, _, bits, rest => (Char.ofNat bits, rest)
  | _ + 1, _, _, _, [] => (replacementCharacter, [])
  | n + 1, low, high, bits, b :: rest =>
    if low ≤ b.toNat ∧ b.toNat ≤ high then
      continued n 0x80 0xBF (bits * 64 + (b.toNat - 0x80)) rest
    else (replacementCharacter, b :: rest)

/-- The first character of bytes that are not empty, and what is left. -/
def nextCharacter (b : UInt8) (rest : List UInt8) : Char × List UInt8 :=
  match announced b.toNat with
  | some (n, low, high, bits) => continued n low high bits rest
  | none => (replacementCharacter, rest)

/-- The characters of bytes, at most as many as the fuel lasts for. -/
def charactersOf : ℕ → List UInt8 → Str
  | 0, _ | _, [] => []
  | fuel + 1, b :: rest =>
    (nextCharacter b rest).1 :: charactersOf fuel (nextCharacter b rest).2

/-- `String::from_utf8_lossy`. -/
def fromUtf8Lossy (bytes : List UInt8) : Str := charactersOf bytes.length bytes

/-- Reading a character leaves no more bytes. -/
theorem length_continued_le (n low high bits : ℕ) (rest : List UInt8) :
    (continued n low high bits rest).2.length ≤ rest.length := by
  fun_induction continued n low high bits rest with
  | case1 => exact le_rfl
  | case2 => exact le_rfl
  | case3 n low high bits b rest _ ih => exact ih.trans (Nat.le_succ _)
  | case4 => exact le_rfl

/-- The first byte of a character is gone. -/
theorem length_nextCharacter_le (b : UInt8) (rest : List UInt8) :
    (nextCharacter b rest).2.length ≤ rest.length := by
  unfold nextCharacter
  split
  · exact length_continued_le _ _ _ _ _
  · exact le_rfl

/-- Any fuel will do that lasts for all bytes. -/
theorem charactersOf_eq {fuel : ℕ} {bytes : List UInt8} (h : bytes.length ≤ fuel) :
    charactersOf fuel bytes = fromUtf8Lossy bytes := by
  have hmain : ∀ n m (bytes : List UInt8), bytes.length ≤ n → bytes.length ≤ m →
      charactersOf n bytes = charactersOf m bytes := by
    intro n
    induction n with
    | zero =>
      intro m bytes hn hm
      obtain rfl := List.length_eq_zero_iff.mp (Nat.le_zero.mp hn)
      cases m <;> rfl
    | succ n ih =>
      intro m bytes hn hm
      cases bytes with
      | nil => cases m <;> rfl
      | cons b rest =>
        obtain ⟨m, rfl⟩ := Nat.exists_eq_succ_of_ne_zero (Nat.ne_of_gt (Nat.lt_of_lt_of_le
          (Nat.succ_pos _) hm))
        have hle := length_nextCharacter_le b rest
        simp only [List.length_cons] at hn hm
        rw [charactersOf, charactersOf, ih m _ (by omega) (by omega)]
  exact hmain _ _ bytes h le_rfl

/-- Read one character, and then the rest. -/
theorem fromUtf8Lossy_cons (b : UInt8) (rest : List UInt8) :
    fromUtf8Lossy (b :: rest) =
      (nextCharacter b rest).1 :: fromUtf8Lossy (nextCharacter b rest).2 := by
  rw [fromUtf8Lossy, List.length_cons, charactersOf,
    charactersOf_eq (length_nextCharacter_le b rest)]

/-! ## The bytes of a text -/

/-- A byte with six bits of a character is read. -/
theorem continued_cons {n low high bits x : ℕ} {rest : List UInt8} (hx : x < 64)
    (hlow : low ≤ x + 0x80) (hhigh : x + 0x80 ≤ high) :
    continued (n + 1) low high bits (.ofNat (x + 0x80) :: rest) =
      continued n 0x80 0xBF (bits * 64 + x) rest := by
  have hbyte : (UInt8.ofNat (x + 0x80)).toNat = x + 0x80 := by
    rw [UInt8.toNat_ofNat']
    exact Nat.mod_eq_of_lt (by omega)
  rw [continued, hbyte, if_pos ⟨hlow, hhigh⟩, Nat.add_sub_cancel]

/-- The first byte of a character of two bytes. -/
theorem announced_two {x : ℕ} (hlow : 2 ≤ x) (hhigh : x < 0x20) :
    announced (UInt8.ofNat (x + 0xC0)).toNat = some (1, 0x80, 0xBF, x) := by
  have hbyte : (UInt8.ofNat (x + 0xC0)).toNat = x + 0xC0 := by
    rw [UInt8.toNat_ofNat']
    exact Nat.mod_eq_of_lt (by omega)
  rw [hbyte, announced, if_neg (by omega), if_pos ⟨by omega, by omega⟩, Nat.add_sub_cancel]

/-- The first byte of a character of three bytes, and the bounds of the second one. -/
theorem announced_three {x : ℕ} (hx : x < 0x10) :
    announced (UInt8.ofNat (x + 0xE0)).toNat =
      some (2, if x = 0 then 0xA0 else 0x80, if x = 0xD then 0x9F else 0xBF, x) := by
  have hbyte : (UInt8.ofNat (x + 0xE0)).toNat = x + 0xE0 := by
    rw [UInt8.toNat_ofNat']
    exact Nat.mod_eq_of_lt (by omega)
  rw [hbyte, announced, if_neg (by omega), if_neg (by omega)]
  by_cases h₀ : x = 0
  · simp [h₀]
  by_cases h₁ : x = 0xD
  · simp [h₁]
  rw [if_neg (by omega), if_neg (by omega), if_pos ⟨by omega, by omega⟩, if_neg h₀, if_neg h₁,
    Nat.add_sub_cancel]

/-- The first byte of a character of four bytes, and the bounds of the second one. -/
theorem announced_four {x : ℕ} (hx : x < 5) :
    announced (UInt8.ofNat (x + 0xF0)).toNat =
      some (3, if x = 0 then 0x90 else 0x80, if x = 4 then 0x8F else 0xBF, x) := by
  interval_cases x <;> rfl

/-- The bytes of a character are read as the character. -/
theorem nextCharacter_utf8EncodeChar (c : Char) (rest : List UInt8) :
    ∃ b tail, String.utf8EncodeChar c = b :: tail ∧ nextCharacter b (tail ++ rest) = (c, rest) := by
  have hread : ∀ n, n = c.val.toNat → (Char.ofNat n, rest) = (c, rest) := by
    rintro n rfl
    exact congrArg (·, rest) (Char.ofNat_toNat c)
  have hvalid : c.val.toNat < 0xD800 ∨ 0xDFFF < c.val.toNat ∧ c.val.toNat < 0x110000 := c.valid
  unfold String.utf8EncodeChar
  generalize c.val.toNat = v at *
  dsimp only
  split_ifs with h₁ h₂ h₃
  · refine ⟨_, _, rfl, ?_⟩
    have hbyte : (UInt8.ofNat v).toNat = v := by
      rw [UInt8.toNat_ofNat']
      exact Nat.mod_eq_of_lt (by omega)
    rw [nextCharacter, hbyte, announced, if_pos h₁]
    exact hread v rfl
  · refine ⟨_, _, rfl, ?_⟩
    rw [nextCharacter, announced_two (by omega) (by omega)]
    simp only [List.cons_append, List.nil_append]
    rw [continued_cons (by omega) (by omega) (by omega)]
    exact hread _ (by omega)
  · refine ⟨_, _, rfl, ?_⟩
    rw [nextCharacter, announced_three (by omega)]
    simp only [List.cons_append, List.nil_append]
    rw [continued_cons (by omega) (by split <;> omega) (by split <;> omega),
      continued_cons (by omega) (by omega) (by omega)]
    exact hread _ (by omega)
  · refine ⟨_, _, rfl, ?_⟩
    rw [nextCharacter, announced_four (by omega)]
    simp only [List.cons_append, List.nil_append]
    rw [continued_cons (by omega) (by split <;> omega) (by split <;> omega),
      continued_cons (by omega) (by omega) (by omega),
      continued_cons (by omega) (by omega) (by omega)]
    exact hread _ (by omega)

/-- The bytes of a text are read as the text, whatever comes after them. -/
theorem fromUtf8Lossy_toUtf8_append (s : Str) (rest : List UInt8) :
    fromUtf8Lossy (toUtf8 s ++ rest) = s ++ fromUtf8Lossy rest := by
  induction s with
  | nil => rfl
  | cons c s ih =>
    obtain ⟨b, tail, hbytes, hnext⟩ := nextCharacter_utf8EncodeChar c (toUtf8 s ++ rest)
    have hcons : toUtf8 (c :: s) ++ rest = b :: (tail ++ (toUtf8 s ++ rest)) := by
      simp [toUtf8, hbytes]
    rw [hcons, fromUtf8Lossy_cons, hnext, ih]
    rfl

/-- The bytes of a text are read as the text. -/
theorem fromUtf8Lossy_toUtf8 (s : Str) : fromUtf8Lossy (toUtf8 s) = s := by
  have h := fromUtf8Lossy_toUtf8_append s []
  rwa [List.append_nil, show fromUtf8Lossy [] = [] from rfl, List.append_nil] at h

/-- Bytes that are not UTF-8: an overlong form, a lone surrogate, a character that is cut. -/
example : fromUtf8Lossy [0xC0, 0x80, 0x41, 0xED, 0xA0, 0x80, 0xF0, 0x9F, 0x98] =
    [replacementCharacter, replacementCharacter, 'A', replacementCharacter, replacementCharacter,
      replacementCharacter, replacementCharacter] := by decide

end Text
