import Pf2eParser.Text.Decimal
import Mathlib.Algebra.Group.Nat.Even

/-!
# Text codecs

Codecs of the kind that services exchange text with: the hyphenated form of 128-bit identifiers,
unpadded base64 in the URL-safe alphabet, and JSON arrays of strings.  Each comes with the law that
reading inverts writing: `parseHyphenated_hyphenated`, `decodeBase64_eq_some_iff` and
`readStrings_writeStrings`.  JSON objects of strings and integers are only written here, and
different ones differently: `writeObject_injective`.
-/

namespace Codec

open Text

/-! ## Hexadecimal identifiers -/

/-- The `k` low hexadecimal digits of `n`, most significant first. -/
def nibbles : ℕ → ℕ → List ℕ
  | 0, _ => []
  | k + 1, n => nibbles k (n / 16) ++ [n % 16]

/-- The number with the given hexadecimal digits. -/
def ofNibbles (digits : List ℕ) : ℕ := digits.foldl (fun acc d => acc * 16 + d) 0

/-- The lower-case hexadecimal digits. -/
def hexDigits : Str := "0123456789abcdef".toList

/-- The value of a hexadecimal digit in either case. -/
def hexValue (c : Char) : Option ℕ :=
  if c.toLower ∈ hexDigits then some (hexDigits.idxOf c.toLower) else none

/-- The lower-case digit with the given value. -/
def hexDigit (d : ℕ) : Char := hexDigits.getD d '0'

/-- The 32 digits of an identifier without hyphens. -/
def simpleForm (u : BitVec 128) : Str := (nibbles 32 u.toNat).map hexDigit

/-- The identifier in groups of 8, 4, 4, 4 and 12 digits. -/
def hyphenated (u : BitVec 128) : Str :=
  (simpleForm u).take 8 ++ '-' :: (((simpleForm u).drop 8).take 4 ++ '-' ::
    (((simpleForm u).drop 12).take 4 ++ '-' :: (((simpleForm u).drop 16).take 4 ++ '-' ::
      (simpleForm u).drop 20)))

/-- Read an identifier that is written hyphenated, plain or in braces, in either case. -/
def parseHyphenated (s : Str) : Option (BitVec 128) :=
  let u := BitVec.ofNat 128 (ofNibbles (s.filterMap hexValue))
  let lower := s.map Char.toLower
  if lower = hyphenated u ∨ lower = simpleForm u ∨ lower = '{' :: hyphenated u ++ ['}'] then some u
  else none

/-- There are as many digits as asked for. -/
theorem length_nibbles (k n : ℕ) : (nibbles k n).length = k := by
  induction k generalizing n with
  | zero => rfl
  | succ k ih => simp [nibbles, ih]

/-- Every digit is a digit. -/
theorem lt_of_mem_nibbles {k n d : ℕ} (h : d ∈ nibbles k n) : d < 16 := by
  induction k generalizing n with
  | zero => simp [nibbles] at h
  | succ k ih =>
    rcases List.mem_append.mp h with h | h
    · exact ih h
    · rw [List.mem_singleton.mp h]
      exact Nat.mod_lt _ (by decide)

/-- The low digits determine the number modulo the base power. -/
theorem ofNibbles_nibbles (k n : ℕ) : ofNibbles (nibbles k n) = n % 16 ^ k := by
  induction k generalizing n with
  | zero => simp [nibbles, ofNibbles, Nat.mod_one]
  | succ k ih =>
    have hstep : ofNibbles (nibbles (k + 1) n) = ofNibbles (nibbles k (n / 16)) * 16 + n % 16 := by
      simp [nibbles, ofNibbles]
    rw [hstep, ih, pow_succ', Nat.mod_mul, Nat.add_comm, Nat.mul_comm]

/-- The digits of the simple form are hexadecimal digits in lower case. -/
theorem mem_simpleForm {u : BitVec 128} {c : Char} (h : c ∈ simpleForm u) :
    c ∈ hexDigits := by
  obtain ⟨d, hd, rfl⟩ := List.mem_map.mp h
  have hall : ∀ d < 16, hexDigit d ∈ hexDigits := by decide
  exact hall d (lt_of_mem_nibbles hd)

/-- The simple form has 32 digits. -/
theorem length_simpleForm (u : BitVec 128) : (simpleForm u).length = 32 := by
  simp [simpleForm, length_nibbles]

/-- The hyphenated form has 36 characters. -/
theorem length_hyphenated (u : BitVec 128) : (hyphenated u).length = 36 := by
  simp [hyphenated, length_simpleForm]

/-- The hyphenated form consists of hexadecimal digits and hyphens. -/
theorem mem_hyphenated {u : BitVec 128} {c : Char} (h : c ∈ hyphenated u) :
    c ∈ hexDigits ∨ c = '-' := by
  simp only [hyphenated, List.mem_append, List.mem_cons] at h
  rcases h with h | h | h | h | h | h | h | h | h
  · exact Or.inl (mem_simpleForm (List.mem_of_mem_take h))
  · exact Or.inr h
  · exact Or.inl (mem_simpleForm (List.mem_of_mem_drop (List.mem_of_mem_take h)))
  · exact Or.inr h
  · exact Or.inl (mem_simpleForm (List.mem_of_mem_drop (List.mem_of_mem_take h)))
  · exact Or.inr h
  · exact Or.inl (mem_simpleForm (List.mem_of_mem_drop (List.mem_of_mem_take h)))
  · exact Or.inr h
  · exact Or.inl (mem_simpleForm (List.mem_of_mem_drop h))

/-- The lower-case hexadecimal digits are the decimal digits and the letters `a` to `f`. -/
theorem isDigit_or_of_mem_hexDigits {c : Char} (h : c ∈ hexDigits) :
    c.isDigit ∨ ('a' ≤ c ∧ c ≤ 'f') := by
  have hall : ∀ c ∈ hexDigits, c.isDigit ∨ ('a' ≤ c ∧ c ≤ 'f') :=
    List.all_iff_forall_prop.mp (by decide)
  exact hall c h

/-- The hyphenated form consists of lower-case hexadecimal digits and hyphens. -/
theorem isDigit_or_of_mem_hyphenated {u : BitVec 128} {c : Char} (h : c ∈ hyphenated u) :
    c.isDigit ∨ ('a' ≤ c ∧ c ≤ 'f') ∨ c = '-' := by
  rcases mem_hyphenated h with h | h
  · exact (isDigit_or_of_mem_hexDigits h).imp id Or.inl
  · exact Or.inr (Or.inr h)

/-- The digits read off the hyphenated form are the digits of the identifier. -/
theorem filterMap_hexValue_hyphenated (u : BitVec 128) :
    (hyphenated u).filterMap hexValue = nibbles 32 u.toNat := by
  have hdash : hexValue '-' = none := by decide
  have hall : ∀ d < 16, hexValue (hexDigit d) = some d := by decide
  have hsimple : (hyphenated u).filterMap hexValue = (simpleForm u).filterMap hexValue := by
    have hjoin : simpleForm u = (simpleForm u).take 8 ++ (((simpleForm u).drop 8).take 4 ++
        (((simpleForm u).drop 12).take 4 ++ (((simpleForm u).drop 16).take 4 ++
          (simpleForm u).drop 20))) := by
      conv_lhs => rw [← List.take_append_drop 8 (simpleForm u),
        ← List.take_append_drop 4 ((simpleForm u).drop 8), List.drop_drop,
        ← List.take_append_drop 4 ((simpleForm u).drop (8 + 4)), List.drop_drop,
        ← List.take_append_drop 4 ((simpleForm u).drop (8 + 4 + 4)), List.drop_drop]
    conv_rhs => rw [hjoin]
    simp only [hyphenated, List.filterMap_append, List.filterMap_cons, hdash]
  rw [hsimple, simpleForm, List.filterMap_map]
  calc (nibbles 32 u.toNat).filterMap (hexValue ∘ hexDigit)
      = (nibbles 32 u.toNat).filterMap some :=
        List.filterMap_congr fun d hd => hall d (lt_of_mem_nibbles hd)
    _ = nibbles 32 u.toNat := List.filterMap_some

/-- A hyphenated identifier is read back. -/
theorem parseHyphenated_hyphenated (u : BitVec 128) : parseHyphenated (hyphenated u) = some u := by
  have hvalue : BitVec.ofNat 128 (ofNibbles ((hyphenated u).filterMap hexValue)) = u := by
    rw [filterMap_hexValue_hyphenated, ofNibbles_nibbles, Nat.mod_eq_of_lt (by simpa using u.isLt),
      BitVec.ofNat_toNat, BitVec.setWidth_eq]
  have hlower : (hyphenated u).map Char.toLower = hyphenated u := by
    have hall : ∀ c ∈ '-' :: hexDigits, c.toLower = c := List.all_iff_forall_prop.mp (by decide)
    calc (hyphenated u).map Char.toLower
        = (hyphenated u).map id := List.map_congr_left fun c hc => hall c (by
          rcases mem_hyphenated hc with h | rfl
          · exact List.mem_cons_of_mem _ h
          · exact List.mem_cons_self)
      _ = hyphenated u := List.map_id _
  simp only [parseHyphenated, hvalue, hlower, true_or, if_true]

/-! ## Base64 in the URL-safe alphabet -/

/-- The 64 symbols, in the order of their values. -/
def base64Symbols : Str :=
  "ABCDEFGHIJKLMNOPQRSTUVWXYZabcdefghijklmnopqrstuvwxyz0123456789-_".toList

/-- Groups of three bytes as four numbers below 64; a shorter last group as two or three. -/
def sextets : List ℕ → List ℕ
  | a :: b :: c :: rest =>
    a / 4 :: (a % 4 * 16 + b / 16) :: (b % 16 * 4 + c / 64) :: c % 64 :: sextets rest
  | [a, b] => [a / 4, a % 4 * 16 + b / 16, b % 16 * 4]
  | [a] => [a / 4, a % 4 * 16]
  | [] => []

/-- The bytes whose bits fill a sequence of numbers below 64. -/
def ofSextets : List ℕ → List ℕ
  | w :: x :: y :: z :: rest =>
    (w * 4 + x / 16) :: (x % 16 * 16 + y / 4) :: (y % 4 * 64 + z) :: ofSextets rest
  | [w, x, y] => [w * 4 + x / 16, x % 16 * 16 + y / 4]
  | [w, x] => [w * 4 + x / 16]
  | _ => []

/-- Unpadded base64 of a byte sequence. -/
def encodeBase64 (bytes : List UInt8) : Str :=
  (sextets (bytes.map UInt8.toNat)).map fun d => base64Symbols.getD d 'A'

/-- Read unpadded base64.  Only the canonical text of a byte sequence is accepted, which excludes
other symbols, padding and trailing bits. -/
def decodeBase64 (s : Str) : Option (List UInt8) :=
  let bytes := (ofSextets (s.map (base64Symbols.idxOf ·))).map UInt8.ofNat
  if encodeBase64 bytes = s then some bytes else none

/-- The numbers are below 64 when the bytes are below 256. -/
theorem lt_of_mem_sextets {bytes : List ℕ} (hb : ∀ b ∈ bytes, b < 256) {d : ℕ}
    (h : d ∈ sextets bytes) : d < 64 := by
  induction bytes using sextets.induct with
  | case1 a b c rest ih =>
    have ha := hb a (by simp)
    have hb' := hb b (by simp)
    have hc := hb c (by simp)
    simp only [sextets, List.mem_cons] at h
    rcases h with rfl | rfl | rfl | rfl | h
    · omega
    · omega
    · omega
    · omega
    · exact ih (fun e he => hb e (by simp [he])) h
  | case2 a b =>
    have ha := hb a (by simp)
    have hb' := hb b (by simp)
    simp only [sextets, List.mem_cons, List.not_mem_nil, or_false] at h
    omega
  | case3 a =>
    have ha := hb a (by simp)
    simp only [sextets, List.mem_cons, List.not_mem_nil, or_false] at h
    omega
  | case4 => simp [sextets] at h

/-- Grouping bits is undone by regrouping them. -/
theorem ofSextets_sextets {bytes : List ℕ} (hb : ∀ b ∈ bytes, b < 256) :
    ofSextets (sextets bytes) = bytes := by
  induction bytes using sextets.induct with
  | case1 a b c rest ih =>
    have hb' := hb b (by simp)
    have hc := hb c (by simp)
    simp only [sextets, ofSextets, ih fun e he => hb e (by simp [he]), List.cons.injEq, and_true]
    omega
  | case2 a b =>
    have hb' := hb b (by simp)
    simp only [sextets, ofSextets, List.cons.injEq, and_true]
    omega
  | case3 a =>
    simp only [sextets, ofSextets, List.cons.injEq, and_true]
    omega
  | case4 => rfl

/-- The values of the bytes are below 256. -/
theorem lt_of_mem_map_toNat {bytes : List UInt8} {b : ℕ} (h : b ∈ bytes.map UInt8.toNat) :
    b < 256 := by
  obtain ⟨c, -, rfl⟩ := List.mem_map.mp h
  exact c.toNat_lt

/-- Decoding accepts exactly the encodings. -/
theorem decodeBase64_eq_some_iff (s : Str) (bytes : List UInt8) :
    decodeBase64 s = some bytes ↔ encodeBase64 bytes = s := by
  constructor
  · intro h
    simp only [decodeBase64] at h
    split at h
    · rename_i hs
      rw [← Option.some.inj h, hs]
    · simp at h
  · rintro rfl
    have hall : ∀ d < 64, base64Symbols.idxOf (base64Symbols.getD d 'A') = d := by
      decide +kernel
    have hback : (encodeBase64 bytes).map (base64Symbols.idxOf ·) =
        sextets (bytes.map UInt8.toNat) := by
      rw [encodeBase64, List.map_map]
      calc (sextets (bytes.map UInt8.toNat)).map
            ((base64Symbols.idxOf ·) ∘ fun d => base64Symbols.getD d 'A')
          = (sextets (bytes.map UInt8.toNat)).map id := List.map_congr_left fun d hd =>
            hall d (lt_of_mem_sextets (fun b hb => lt_of_mem_map_toNat hb) hd)
        _ = _ := List.map_id _
    have hbytes : ((bytes.map UInt8.toNat).map UInt8.ofNat) = bytes := by
      rw [List.map_map]
      calc bytes.map (UInt8.ofNat ∘ UInt8.toNat)
          = bytes.map id := List.map_congr_left fun b _ => UInt8.ofNat_toNat
        _ = bytes := List.map_id _
    simp only [decodeBase64, hback, ofSextets_sextets fun b hb => lt_of_mem_map_toNat hb, hbytes,
      if_true]

/-- The encoding uses the letters, the digits, `-` and `_`. -/
theorem mem_encodeBase64 {bytes : List UInt8} {c : Char} (h : c ∈ encodeBase64 bytes) :
    c.isAlphanum ∨ c = '-' ∨ c = '_' := by
  obtain ⟨d, hd, rfl⟩ := List.mem_map.mp h
  have hall : ∀ d < 64, (base64Symbols.getD d 'A').isAlphanum ∨ base64Symbols.getD d 'A' = '-' ∨
      base64Symbols.getD d 'A' = '_' := by decide +kernel
  exact hall d (lt_of_mem_sextets (fun b hb => lt_of_mem_map_toNat hb) hd)

/-- Three bytes take four symbols, and a shorter rest one symbol more than it has bytes. -/
theorem length_encodeBase64 (bytes : List UInt8) :
    (encodeBase64 bytes).length = (4 * bytes.length + 2) / 3 := by
  have hlen : ∀ l : List ℕ, (sextets l).length = (4 * l.length + 2) / 3 := by
    intro l
    induction l using sextets.induct with
    | case1 a b c rest ih =>
      simp only [sextets, List.length_cons, ih]
      omega
    | case2 a b => simp [sextets]
    | case3 a => simp [sextets]
    | case4 => rfl
  rw [encodeBase64, List.length_map, hlen, List.length_map]

/-! ## JSON arrays of strings -/

/-- The quotation mark. -/
def quote : Char := Char.ofNat 0x22

/-- The backslash. -/
def backslash : Char := Char.ofNat 0x5C

/-- The characters with a short escape and the letters that stand for them. -/
def shortEscapes : List (Char × Char) :=
  [(quote, quote), (backslash, backslash), (Char.ofNat 0x08, 'b'), (Char.ofNat 0x0C, 'f'),
    ('\n', 'n'), ('\r', 'r'), ('\t', 't')]

/-- One character inside a JSON string. -/
def escapeChar (c : Char) : Str :=
  match shortEscapes.lookup c with
  | some letter => [backslash, letter]
  | none =>
    if c.toNat < 0x20 then
      [backslash, 'u', '0', '0', hexDigit (c.toNat / 16), hexDigit (c.toNat % 16)]
    else [c]

/-- A JSON string. -/
def writeString (s : Str) : Str := quote :: (s.flatMap escapeChar ++ [quote])

/-- A JSON array of strings. -/
def writeStrings (values : List Str) : Str :=
  '[' :: ([','].intercalate (values.map writeString) ++ [']'])

/-- The character that an escaped letter stands for. -/
def unescapeLetter (letter : Char) : Option Char :=
  if letter = '/' then some '/'
  else (shortEscapes.find? fun pair => pair.2 == letter).map Prod.fst

/-- The character with the given four hexadecimal digits. -/
def unescapeHex (a b c d : Char) : Option Char :=
  (hexValue a).bind fun a => (hexValue b).bind fun b => (hexValue c).bind fun c =>
    (hexValue d).map fun d => Char.ofNat (ofNibbles [a, b, c, d])

/-- Read the rest of a JSON string after its opening quotation mark: the text, and what follows the
closing one. -/
def readString : Str → Option (Str × Str)
  | [] => none
  | c :: rest =>
    if c = quote then some ([], rest)
    else if c = backslash then
      match rest with
      | 'u' :: a :: b :: d :: e :: rest' =>
        (unescapeHex a b d e).bind fun x => (readString rest').map fun p => (x :: p.1, p.2)
      | letter :: rest' =>
        (unescapeLetter letter).bind fun x => (readString rest').map fun p => (x :: p.1, p.2)
      | [] => none
    else (readString rest).map fun p => (c :: p.1, p.2)

/-- Read the strings of an array up to its closing bracket, which ends the text; `fuel` bounds their
number. -/
def readItems : ℕ → Str → Option (List Str)
  | 0, _ => none
  | fuel + 1, c :: s =>
    if c = quote then
      match readString s with
      | some (value, [']']) => some [value]
      | some (value, ',' :: rest) => (readItems fuel rest).map fun values => value :: values
      | _ => none
    else none
  | _ + 1, [] => none

/-- Read a JSON array of strings. -/
def readStrings (s : Str) : Option (List Str) :=
  if s = ['[', ']'] then some []
  else match s with
    | '[' :: rest => readItems s.length rest
    | _ => none

/-- A backslash and a letter other than `u` stand for the letter's character. -/
theorem readString_backslash {letter c : Char} (hu : letter ≠ 'u')
    (hc : unescapeLetter letter = some c) (rest : Str) :
    readString (backslash :: letter :: rest) = (readString rest).map fun p => (c :: p.1, p.2) := by
  have hne : backslash ≠ quote := by decide
  rw [readString.eq_def]
  simp only [if_neg hne, if_true]
  split
  · rename_i heq
    exact absurd (List.cons.inj heq).1 hu
  · rename_i heq
    obtain ⟨rfl, rfl⟩ := List.cons.inj heq
    rw [hc, Option.bind_some]
  · rename_i heq
    exact absurd heq (by simp)

/-- An escaped character is read back. -/
theorem readString_escapeChar (c : Char) (rest : Str) :
    readString (escapeChar c ++ rest) = (readString rest).map fun p => (c :: p.1, p.2) := by
  unfold escapeChar
  cases hl : shortEscapes.lookup c with
  | some letter =>
    have hall : ∀ pair ∈ shortEscapes, pair.2 ≠ 'u' ∧ unescapeLetter pair.2 = some pair.1 := by
      decide
    have hmem : (c, letter) ∈ shortEscapes := by
      obtain ⟨l₁, l₂, heq, -⟩ := List.lookup_eq_some_iff.mp hl
      simp [heq]
    exact readString_backslash (hall _ hmem).1 (hall _ hmem).2 rest
  | none =>
    by_cases hctl : c.toNat < 0x20
    · have hall : ∀ n < 0x20, unescapeHex '0' '0' (hexDigit (n / 16)) (hexDigit (n % 16)) =
          some (Char.ofNat n) := by decide
      have hne : backslash ≠ quote := by decide
      simp only [hctl, if_true, List.cons_append, List.nil_append]
      rw [readString, if_neg hne, if_pos rfl]
      simp only [hall c.toNat hctl, Char.ofNat_toNat, Option.bind_some]
    · have hplain : c ≠ quote ∧ c ≠ backslash := by
        constructor <;> rintro rfl <;> exact absurd hl (by decide)
      simp only [hctl, if_false, List.cons_append, List.nil_append]
      rw [readString.eq_def]
      simp only [if_neg hplain.1, if_neg hplain.2]

/-- A written text is read back up to its closing quotation mark. -/
theorem readString_flatMap_escapeChar (s rest : Str) :
    readString (s.flatMap escapeChar ++ quote :: rest) = some (s, rest) := by
  induction s with
  | nil =>
    rw [List.flatMap_nil, List.nil_append, readString.eq_def]
    simp only [if_true]
  | cons c s ih =>
    rw [List.flatMap_cons, List.append_assoc, readString_escapeChar, ih, Option.map_some]

/-- The strings of a written array are read back, if the fuel covers them. -/
theorem readItems_intercalate (value : Str) (values : List Str) (fuel : ℕ)
    (hfuel : values.length < fuel) :
    readItems fuel ([','].intercalate ((value :: values).map writeString) ++ [']']) =
      some (value :: values) := by
  induction values generalizing value fuel with
  | nil =>
    obtain ⟨fuel, rfl⟩ := Nat.exists_eq_add_of_lt hfuel
    have hread := readString_flatMap_escapeChar value [']']
    simp only [List.map_cons, List.map_nil, List.intercalate_singleton, writeString,
      List.cons_append, List.append_assoc, List.nil_append, readItems, if_true, hread]
  | cons next values ih =>
    obtain ⟨fuel, rfl⟩ := Nat.exists_eq_succ_of_ne_zero (Nat.ne_zero_of_lt hfuel)
    have hread := readString_flatMap_escapeChar value
      (',' :: ([','].intercalate ((next :: values).map writeString) ++ [']']))
    have hrest := ih next fuel (by simpa using hfuel)
    simp only [List.map_cons, List.intercalate_cons_cons, List.append_assoc, List.cons_append,
      List.nil_append, writeString, readItems, if_true] at hread hrest ⊢
    rw [hread]
    simp only [hrest, Option.map_some]

/-- A written array of strings is at least as long as the array. -/
theorem length_le_length_writeStrings (values : List Str) :
    values.length ≤ ([','].intercalate (values.map writeString)).length := by
  induction values with
  | nil => simp
  | cons value values ih =>
    cases values with
    | nil => simp [writeString]
    | cons next values =>
      simp only [List.map_cons, List.intercalate_cons_cons, List.length_append, writeString,
        List.length_cons] at ih ⊢
      omega

/-- A written array of strings is read back. -/
theorem readStrings_writeStrings (values : List Str) :
    readStrings (writeStrings values) = some values := by
  cases values with
  | nil => rfl
  | cons value values =>
    have hne : writeStrings (value :: values) ≠ ['[', ']'] := by
      cases values <;> simp [writeStrings, writeString, quote]
    have hlen := length_le_length_writeStrings (value :: values)
    rw [readStrings.eq_def, if_neg hne]
    apply readItems_intercalate value values
    simp only [writeStrings, List.length_cons, List.length_append] at hlen ⊢
    omega

/-! ## JSON objects of strings and integers -/

/-- A value in an object. -/
inductive JsonValue where
  | text (s : Str)
  | number (n : Int64)
  deriving DecidableEq

/-- The members of an object, in the order in which they are written. -/
abbrev JsonObject := List (Str × JsonValue)

/-- A member of an object, whose value is written already. -/
def writeMember (member : Str × Str) : Str := writeString member.1 ++ ':' :: member.2

/-- An object with the given members, whose values are written already. -/
def writeMembers (members : List (Str × Str)) : Str :=
  '{' :: ([','].intercalate (members.map writeMember) ++ ['}'])

/-- A written value. -/
def writeValue : JsonValue → Str
  | .text s => writeString s
  | .number n => displayInt64 n

/-- A written object. -/
def writeObject (object : JsonObject) : Str :=
  writeMembers (object.map fun m => (m.1, writeValue m.2))

/-- A written string is followed by what follows it. -/
theorem writeString_append_inj {s t a b : Str} (h : writeString s ++ a = writeString t ++ b) :
    s = t ∧ a = b := by
  simp only [writeString, List.cons_append, List.append_assoc, List.nil_append,
    List.cons.injEq, true_and] at h
  have hread := congrArg readString h
  rw [readString_flatMap_escapeChar, readString_flatMap_escapeChar] at hread
  exact Prod.mk.inj (Option.some.inj hread)

/-- The symbols of a printed integer. -/
def isNumeral (c : Char) : Bool := c == '-' || c.isDigit

/-- A printed integer is as long as there are its symbols. -/
theorem takeWhile_displayInt64_append (n : Int64) {a : Str} (ha : a.takeWhile isNumeral = []) :
    (displayInt64 n ++ a).takeWhile isNumeral = displayInt64 n := by
  have hall : ∀ c ∈ displayInt64 n, isNumeral c = true := by
    intro c hc
    have := mem_displayInt hc
    simpa [isNumeral] using this
  rw [List.takeWhile_append_of_pos hall, ha, List.append_nil]

theorem displayInt64_ne_nil (n : Int64) : displayInt64 n ≠ [] := by
  unfold displayInt64 displayInt
  split
  · exact List.cons_ne_nil _ _
  · exact displayNat_ne_nil _

/-- A written value is followed by what follows it, if that is no part of a number. -/
theorem writeValue_append_inj {v w : JsonValue} {a b : Str} (ha : a.takeWhile isNumeral = [])
    (hb : b.takeWhile isNumeral = []) (h : writeValue v ++ a = writeValue w ++ b) :
    v = w ∧ a = b := by
  have htext : ∀ (s : Str) (n : Int64) (a b : Str), b.takeWhile isNumeral = [] →
      writeString s ++ a ≠ displayInt64 n ++ b := by
    intro s n a b hb heq
    have hrun := congrArg (List.takeWhile isNumeral) heq
    rw [takeWhile_displayInt64_append n hb] at hrun
    exact displayInt64_ne_nil n hrun.symm
  cases v with
  | text s =>
    cases w with
    | text t =>
      obtain ⟨rfl, rfl⟩ := writeString_append_inj h
      exact ⟨rfl, rfl⟩
    | number n => exact absurd h (htext s n a b hb)
  | number m =>
    cases w with
    | text t => exact absurd h.symm (htext t m b a ha)
    | number n =>
      have hrun := congrArg (List.takeWhile isNumeral) h
      simp only [writeValue] at h hrun
      rw [takeWhile_displayInt64_append m ha, takeWhile_displayInt64_append n hb] at hrun
      obtain rfl := displayInt64_injective hrun
      exact ⟨rfl, List.append_cancel_left h⟩

/-- A written member is followed by what follows it, if that is no part of a number. -/
theorem writeMember_append_inj {m m' : Str × JsonValue} {a b : Str}
    (ha : a.takeWhile isNumeral = []) (hb : b.takeWhile isNumeral = [])
    (h : writeMember (m.1, writeValue m.2) ++ a = writeMember (m'.1, writeValue m'.2) ++ b) :
    m = m' ∧ a = b := by
  simp only [writeMember, List.append_assoc, List.cons_append] at h
  obtain ⟨hname, hrest⟩ := writeString_append_inj h
  obtain ⟨hvalue, hend⟩ := writeValue_append_inj ha hb (List.cons.inj hrest).2
  exact ⟨Prod.ext hname hvalue, hend⟩

/-- What stands behind the first member of an object. -/
def writeRest : JsonObject → Str
  | [] => ['}']
  | m :: object => ',' :: (writeMember (m.1, writeValue m.2) ++ writeRest object)

theorem takeWhile_writeRest (object : JsonObject) :
    (writeRest object).takeWhile isNumeral = [] := by
  cases object <;> rfl

/-- An object is written member by member. -/
theorem writeObject_cons (m : Str × JsonValue) (object : JsonObject) :
    writeObject (m :: object) =
      '{' :: (writeMember (m.1, writeValue m.2) ++ writeRest object) := by
  induction object generalizing m with
  | nil => simp [writeObject, writeMembers, writeRest]
  | cons next object ih =>
    have hnext := (List.cons.inj (ih next)).2
    simp only [List.map_cons] at hnext
    unfold writeObject writeMembers writeRest
    rw [← hnext]
    simp [List.intercalate_cons_cons]

/-- The members behind the first one can be read off. -/
theorem writeRest_injective : Function.Injective writeRest := by
  intro object object' h
  induction object generalizing object' with
  | nil =>
    cases object' with
    | nil => rfl
    | cons m' object' => exact absurd (List.cons.inj h).1 (by decide)
  | cons m object ih =>
    cases object' with
    | nil => exact absurd (List.cons.inj h).1 (by decide)
    | cons m' object' =>
      obtain ⟨rfl, hrest⟩ := writeMember_append_inj (takeWhile_writeRest object)
        (takeWhile_writeRest object') (List.cons.inj h).2
      rw [ih hrest]

/-- Different objects are written differently. -/
theorem writeObject_injective : Function.Injective writeObject := by
  have hempty : ∀ (m : Str × JsonValue) (object : JsonObject),
      writeObject [] ≠ writeObject (m :: object) := by
    intro m object heq
    rw [writeObject_cons] at heq
    exact absurd (List.cons.inj (List.cons.inj heq).2).1 (by decide)
  intro object object' h
  cases object with
  | nil =>
    cases object' with
    | nil => rfl
    | cons m' object' => exact absurd h (hempty m' object')
  | cons m object =>
    cases object' with
    | nil => exact absurd h.symm (hempty m object)
    | cons m' object' =>
      rw [writeObject_cons, writeObject_cons] at h
      obtain ⟨rfl, hrest⟩ := writeMember_append_inj (takeWhile_writeRest object)
        (takeWhile_writeRest object') (List.cons.inj h).2
      rw [writeRest_injective hrest]

end Codec
