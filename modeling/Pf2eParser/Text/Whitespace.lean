import Mathlib.Data.Bool.AllAny
import Mathlib.Data.List.DropRight
import Mathlib.Data.Nat.Notation
import Pf2eParser.Text.Search

/-!
# Texts, whitespace and lines

A text is the sequence of its Unicode scalar values.  This file has the operations of a string
library that depend on whitespace (`trim`, `splitWhitespace`) and on line ends (`lines`).

`IsTrimmed` is the property that `trim` establishes and `IsSolid` adds that something is left.
Solid texts are closed under joining with any separator (`isSolid_intercalate`), and trimming
recovers a solid text from any padding with whitespace (`trim_pad`).
-/

namespace Text

/-- A text, as the sequence of its Unicode scalar values. -/
abbrev Str := List Char

/-- The Unicode property `White_Space`. -/
def isWhitespace (c : Char) : Bool :=
  let n := c.toNat
  (0x09 ≤ n && n ≤ 0x0D) || n == 0x20 || n == 0x85 || n == 0xA0 || n == 0x1680 ||
    (0x2000 ≤ n && n ≤ 0x200A) || n == 0x2028 || n == 0x2029 || n == 0x202F || n == 0x205F ||
    n == 0x3000

/-- Remove whitespace at both ends. -/
def trim (s : Str) : Str := (s.dropWhile isWhitespace).rdropWhile isWhitespace

/-- The maximal whitespace-free parts of a text. -/
def splitWhitespace (s : Str) : List Str :=
  (s.splitOnP isWhitespace).filter fun word => !word.isEmpty

/-- The content of a line that was ended by a line feed: one carriage return before it belongs to
the line end. -/
def stripCarriageReturn (line : Str) : Str :=
  if line.getLast? = some '\r' then line.dropLast else line

/-- The lines of a text: each line feed ends a line, and an empty rest after the last line feed is
not a line. -/
def lines (s : Str) : List Str :=
  let parts := s.splitOn '\n'
  parts.dropLast.map stripCarriageReturn ++
    (parts.getLast?.toList.filter fun rest => !rest.isEmpty)

/-- ASCII letters compare without case. -/
def eqIgnoreAsciiCase (s t : Str) : Bool := s.map Char.toLower == t.map Char.toLower

/-- Cut `pre` off the front of `s`. -/
def stripPrefix (pre s : Str) : Option Str :=
  if pre <+: s then some (s.drop pre.length) else none

/-- Cut `suf` off the end of `s`. -/
def stripSuffix (suf s : Str) : Option Str :=
  if suf <:+ s then some (s.take (s.length - suf.length)) else none

/-- What is left behind a front that was cut off. -/
theorem stripPrefix_eq_some_iff {front s rest : Str} :
    stripPrefix front s = some rest ↔ s = front ++ rest := by
  unfold stripPrefix
  constructor
  · intro h
    split at h
    case isTrue hp =>
      obtain ⟨t, rfl⟩ := hp
      simpa using h
    case isFalse => simp at h
  · rintro rfl
    rw [if_pos (List.prefix_append _ _), List.drop_left]

/-- What is left in front of an end that was cut off. -/
theorem stripSuffix_eq_some_iff {back s rest : Str} :
    stripSuffix back s = some rest ↔ s = rest ++ back := by
  unfold stripSuffix
  constructor
  · intro h
    split at h
    case isTrue hs =>
      obtain ⟨t, rfl⟩ := hs
      simpa using h
    case isFalse => simp at h
  · rintro rfl
    rw [if_pos (List.suffix_append _ _), List.length_append, Nat.add_sub_cancel, List.take_left]

/-! ## Trimmed and solid texts -/

/-- A text without whitespace at its ends. -/
structure IsTrimmed (s : Str) : Prop where
  /-- The text does not start with whitespace. -/
  head : ∀ c ∈ s.head?, isWhitespace c = false
  /-- The text does not end with whitespace. -/
  last : ∀ c ∈ s.getLast?, isWhitespace c = false

/-- A nonempty text without whitespace at its ends. -/
structure IsSolid (s : Str) : Prop extends IsTrimmed s where
  /-- Something is left. -/
  ne_nil : s ≠ []

/-- The last symbol of a right-trimmed text is not whitespace. -/
theorem getLast?_rdropWhile {s : Str} {p : Char → Bool} {c : Char}
    (h : c ∈ (s.rdropWhile p).getLast?) : p c = false := by
  obtain ⟨hne, rfl⟩ := List.mem_getLast?_eq_getLast h
  simpa using List.rdropWhile_last_not p s hne

/-- The first symbol of a left-trimmed text is not whitespace. -/
theorem head?_dropWhile {s : Str} {p : Char → Bool} {c : Char}
    (h : c ∈ (s.dropWhile p).head?) : p c = false := by
  have hnot := List.head?_dropWhile_not p s
  rwa [Option.mem_def.mp h] at hnot

/-- A prefix starts with the same symbol. -/
theorem head?_mono {s t : Str} {c : Char} (hp : s <+: t) (h : c ∈ s.head?) :
    c ∈ t.head? := by
  obtain ⟨u, rfl⟩ := hp
  cases s with
  | nil => simp at h
  | cons d s => simpa using h

/-- Trimming leaves a trimmed text. -/
theorem isTrimmed_trim (s : Str) : IsTrimmed (trim s) where
  head _ hc := head?_dropWhile (head?_mono (List.rdropWhile_prefix _ _) hc)
  last _ hc := getLast?_rdropWhile hc

/-- Trimming keeps a contiguous part of the text. -/
theorem trim_isInfix (s : Str) : trim s <:+: s :=
  (List.rdropWhile_prefix _ _).isInfix.trans (List.dropWhile_suffix _).isInfix

/-- Whatever trimming leaves is solid, unless it leaves nothing. -/
theorem isSolid_trim {s : Str} (h : trim s ≠ []) : IsSolid (trim s) :=
  ⟨isTrimmed_trim s, h⟩

/-- A text of whitespace only is trimmed away. -/
theorem trim_eq_nil_iff {s : Str} : trim s = [] ↔ ∀ c ∈ s, isWhitespace c = true := by
  rw [trim, List.rdropWhile_eq_nil_iff]
  constructor
  · intro h
    have hnil : s.dropWhile isWhitespace = [] := by
      by_contra hne
      have hhead := List.head?_eq_some_head hne
      have hws := h _ (List.head_mem hne)
      simp [head?_dropWhile hhead] at hws
    exact List.dropWhile_eq_nil_iff.mp hnil
  · exact fun h c hc => h c ((List.dropWhile_suffix _).subset hc)

/-- A text is what trimming leaves of it, between two stretches of whitespace. -/
theorem exists_eq_append_trim (s : Str) : ∃ pre post, s = pre ++ trim s ++ post ∧
    (∀ c ∈ pre, isWhitespace c = true) ∧ ∀ c ∈ post, isWhitespace c = true := by
  refine ⟨s.takeWhile isWhitespace, (s.dropWhile isWhitespace).rtakeWhile isWhitespace, ?_,
    fun c hc => List.mem_takeWhile_imp hc, fun c hc => ?_⟩
  · rw [List.append_assoc, trim, List.rdropWhile, List.rtakeWhile, ← List.reverse_append,
      List.takeWhile_append_dropWhile, List.reverse_reverse, List.takeWhile_append_dropWhile]
  · exact List.mem_takeWhile_imp (List.mem_reverse.mp hc)

/-- A text without the whitespace at its end. -/
theorem exists_eq_append_back (s : Str) : ∃ front back, s = front ++ back ∧
    (∀ c ∈ front.getLast?, isWhitespace c = false) ∧ ∀ c ∈ back, isWhitespace c = true :=
  ⟨s.rdropWhile isWhitespace, s.rtakeWhile isWhitespace,
    (List.rdropWhile_append_rtakeWhile ..).symm, fun _ hc => getLast?_rdropWhile hc,
    fun _ hc => List.mem_takeWhile_imp (List.mem_reverse.mp hc)⟩

/-- Trimming undoes any padding of a solid text with whitespace. -/
theorem trim_pad {pre s post : Str} (hs : IsSolid s)
    (hpre : ∀ c ∈ pre, isWhitespace c = true) (hpost : ∀ c ∈ post, isWhitespace c = true) :
    trim (pre ++ s ++ post) = s := by
  obtain ⟨c, t, rfl⟩ := List.exists_cons_of_ne_nil hs.ne_nil
  have hc : isWhitespace c = false := hs.head c (by simp)
  have hd : (pre ++ (c :: t) ++ post).dropWhile isWhitespace = (c :: t) ++ post := by
    rw [List.append_assoc, List.dropWhile_append_of_pos hpre, List.cons_append,
      List.dropWhile_cons, if_neg (by simp [hc])]
  have hlast : ¬ isWhitespace ((c :: t).getLast hs.ne_nil) = true := by
    simp [hs.last _ (List.getLast?_eq_some_getLast hs.ne_nil)]
  rw [trim, hd, List.rdropWhile, List.reverse_append,
    List.dropWhile_append_of_pos (by simpa using hpost)]
  exact List.rdropWhile_eq_self_iff.mpr fun _ => hlast

/-- A space in front of a solid text is trimmed away. -/
theorem trim_cons_space {s : Str} (hs : IsSolid s) : trim (' ' :: s) = s := by
  have hspace : ∀ c ∈ [' '], isWhitespace c = true := List.all_iff_forall_prop.mp (by decide)
  simpa using @trim_pad [' '] s [] hs hspace (by simp)

/-- Whitespace on either side of a text is trimmed away. -/
theorem trim_append {pre s post : Str} (hpre : ∀ c ∈ pre, isWhitespace c = true)
    (hpost : ∀ c ∈ post, isWhitespace c = true) : trim (pre ++ s ++ post) = trim s := by
  obtain ⟨pre', post', hs, hpre', hpost'⟩ := exists_eq_append_trim s
  by_cases hnil : trim s = []
  · rw [hnil, trim_eq_nil_iff]
    have hall := trim_eq_nil_iff.mp hnil
    simp only [List.mem_append]
    rintro c ((hc | hc) | hc)
    · exact hpre c hc
    · exact hall c hc
    · exact hpost c hc
  · have heq : pre ++ s ++ post = (pre ++ pre') ++ trim s ++ (post' ++ post) := by
      conv_lhs => rw [hs]
      simp only [List.append_assoc]
    rw [heq]
    refine trim_pad (isSolid_trim hnil) (fun c hc => ?_) fun c hc => ?_
    · exact (List.mem_append.mp hc).elim (hpre c) (hpre' c)
    · exact (List.mem_append.mp hc).elim (hpost' c) (hpost c)

/-- Trimming does not touch a pattern without whitespace. -/
theorem infix_trim_iff {pat s : Str} (hne : pat ≠ []) (hpat : ∀ c ∈ pat, isWhitespace c = false) :
    pat <:+: trim s ↔ pat <:+: s := by
  obtain ⟨pre, post, hs, hpre, hpost⟩ := exists_eq_append_trim s
  have hfree : ∀ w : Str, (∀ c ∈ w, isWhitespace c = true) → ∀ c ∈ pat, c ∉ w :=
    fun w hw c hc hmem => absurd (hw c hmem) (by simp [hpat c hc])
  conv_rhs => rw [hs, infix_append_iff_left hne (hfree post hpost),
    infix_append_iff_right hne (hfree pre hpre)]

/-- A text that ends without whitespace is solid behind a solid front. -/
theorem IsSolid.append_of_last {front body : Str} (hfront : IsSolid front)
    (hbody : ∀ c ∈ body.getLast?, isWhitespace c = false) : IsSolid (front ++ body) where
  head c hc := hfront.head c (by rwa [List.head?_append_of_ne_nil _ hfront.ne_nil] at hc)
  last c hc := by
    rcases eq_or_ne body [] with rfl | hne
    · exact hfront.last c (by simpa using hc)
    · exact hbody c (by rwa [List.getLast?_append_of_ne_nil _ hne] at hc)
  ne_nil := List.append_ne_nil_of_left_ne_nil hfront.ne_nil body

/-- A text that starts like one solid text and ends like another is solid. -/
theorem IsSolid.append {s t : Str} (hs : IsSolid s) (ht : IsSolid t) (mid : Str) :
    IsSolid (s ++ mid ++ t) where
  head c hc := hs.head c (by
    rw [List.append_assoc, List.head?_append_of_ne_nil _ hs.ne_nil] at hc
    exact hc)
  last c hc := ht.last c (by
    rw [List.getLast?_append_of_ne_nil _ ht.ne_nil] at hc
    exact hc)
  ne_nil := by simp [hs.ne_nil]

/-- Solid texts joined by any separator are solid. -/
theorem isSolid_intercalate {parts : List Str} (sep : Str) (hne : parts ≠ [])
    (h : ∀ part ∈ parts, IsSolid part) : IsSolid (sep.intercalate parts) := by
  induction parts with
  | nil => exact absurd rfl hne
  | cons p parts ih =>
    have hp : IsSolid p := h p (by simp)
    cases parts with
    | nil => simpa using hp
    | cons q parts =>
      rw [List.intercalate_cons_cons]
      exact hp.append (ih (by simp) fun part hpart => h part (by simp [hpart])) sep

/-! ## Words -/

/-- The pieces between separating symbols contain no such symbol. -/
theorem eq_false_of_mem_splitOnP {α : Type} {s piece : List α} {p : α → Bool}
    (h : piece ∈ s.splitOnP p) : ∀ c ∈ piece, p c = false := by
  induction s generalizing piece with
  | nil => simp_all
  | cons d s ih =>
    rw [List.splitOnP_cons_eq_if_modifyHead] at h
    split at h
    case isTrue hd =>
      rcases List.mem_cons.mp h with rfl | h
      · simp
      · exact ih h
    case isFalse hd =>
      obtain ⟨first, rest, hs⟩ := List.exists_cons_of_ne_nil (List.splitOnP_ne_nil p s)
      rw [hs, List.modifyHead_cons] at h
      rcases List.mem_cons.mp h with rfl | h
      · rintro c hc
        rcases List.mem_cons.mp hc with rfl | hc
        · simpa using hd
        · exact ih (hs ▸ List.mem_cons_self) c hc
      · exact ih (hs ▸ List.mem_cons_of_mem _ h)

/-- A piece is a part of the whole. -/
theorem infix_of_mem_splitOnP {α : Type} {s piece : List α} {p : α → Bool}
    (h : piece ∈ s.splitOnP p) : piece <:+: s := by
  obtain ⟨first, rest, hsplit, hfirst, hrest⟩ : ∃ first rest, s.splitOnP p = first :: rest ∧
      first <+: s ∧ ∀ piece ∈ rest, piece <:+: s := by
    clear h
    induction s with
    | nil => exact ⟨[], [], rfl, List.nil_prefix, nofun⟩
    | cons d s ih =>
      obtain ⟨first, rest, hsplit, hfirst, hrest⟩ := ih
      have hlater : ∀ piece ∈ rest, piece <:+: d :: s := fun piece hpiece =>
        (hrest piece hpiece).trans (List.suffix_cons d s).isInfix
      rw [List.splitOnP_cons_eq_if_modifyHead, hsplit]
      split
      · have hoccurs : first <:+: d :: s := hfirst.isInfix.trans (List.suffix_cons d s).isInfix
        exact ⟨[], first :: rest, rfl, List.nil_prefix, List.forall_mem_cons.mpr ⟨hoccurs, hlater⟩⟩
      · exact ⟨d :: first, rest, rfl, List.cons_prefix_cons.mpr ⟨rfl, hfirst⟩, hlater⟩
  rw [hsplit] at h
  rcases List.mem_cons.mp h with rfl | h
  · exact hfirst.isInfix
  · exact hrest piece h

/-- The symbols of a piece are symbols of the whole. -/
theorem mem_of_mem_splitOnP {α : Type} {s piece : List α} {p : α → Bool} (h : piece ∈ s.splitOnP p)
    {c : α} (hc : c ∈ piece) : c ∈ s := (infix_of_mem_splitOnP h).subset hc

/-- A symbol that does not separate is in one of the pieces. -/
theorem exists_mem_splitOnP {α : Type} {p : α → Bool} {s : List α} {c : α} (hc : c ∈ s)
    (hp : p c = false) : ∃ piece ∈ s.splitOnP p, c ∈ piece := by
  induction s with
  | nil => simp at hc
  | cons d s ih =>
    rw [List.splitOnP_cons_eq_if_modifyHead]
    obtain ⟨first, rest, hs⟩ := List.exists_cons_of_ne_nil (List.splitOnP_ne_nil p s)
    rcases List.mem_cons.mp hc with rfl | hc
    · exact ⟨c :: first, by simp [hp, hs], by simp⟩
    · obtain ⟨piece, hpiece, hmem⟩ := ih hc
      split
      · exact ⟨piece, List.mem_cons_of_mem _ hpiece, hmem⟩
      · rw [hs] at hpiece ⊢
        rcases List.mem_cons.mp hpiece with rfl | hpiece
        · exact ⟨d :: piece, by simp, by simp [hmem]⟩
        · exact ⟨piece, by simp [hpiece], hmem⟩

/-- The words of a text are solid. -/
theorem isSolid_of_mem_splitWhitespace {s word : Str} (h : word ∈ splitWhitespace s) :
    IsSolid word := by
  obtain ⟨hmem, hne⟩ := List.mem_filter.mp h
  have hall := eq_false_of_mem_splitOnP hmem
  exact ⟨⟨fun c hc => hall c (List.mem_of_mem_head? hc), fun c hc => hall c
    (List.mem_of_mem_getLast? hc)⟩, by simpa using hne⟩

/-- A text with a character that is not whitespace has a word. -/
theorem splitWhitespace_ne_nil {s : Str} (h : ∃ c ∈ s, isWhitespace c = false) :
    splitWhitespace s ≠ [] := by
  have hpiece : ∃ piece ∈ s.splitOnP isWhitespace, piece ≠ [] := by
    induction s with
    | nil => simp at h
    | cons d s ih =>
      rw [List.splitOnP_cons_eq_if_modifyHead]
      split
      case isTrue hd =>
        obtain ⟨c, hc, hws⟩ := h
        rcases List.mem_cons.mp hc with rfl | hc
        · simp [hws] at hd
        · obtain ⟨piece, hp, hne⟩ := ih ⟨c, hc, hws⟩
          exact ⟨piece, List.mem_cons_of_mem _ hp, hne⟩
      case isFalse hd =>
        obtain ⟨first, rest, hs⟩ :=
          List.exists_cons_of_ne_nil (List.splitOnP_ne_nil isWhitespace s)
        exact ⟨d :: first, by simp [hs], by simp⟩
  obtain ⟨piece, hp, hne⟩ := hpiece
  exact List.ne_nil_of_mem (List.mem_filter.mpr ⟨hp, by simpa using hne⟩)

/-- A solid text has a word. -/
theorem IsSolid.splitWhitespace_ne_nil {s : Str} (h : IsSolid s) : splitWhitespace s ≠ [] := by
  obtain ⟨c, t, rfl⟩ := List.exists_cons_of_ne_nil h.ne_nil
  exact Text.splitWhitespace_ne_nil ⟨c, by simp, h.head c (by simp)⟩

/-- Whitespace separates the words on its two sides. -/
theorem splitWhitespace_append_cons (a : Str) {c : Char} (hc : isWhitespace c = true) (b : Str) :
    splitWhitespace (a ++ c :: b) = splitWhitespace a ++ splitWhitespace b := by
  rw [splitWhitespace, List.splitOnP_append_cons _ _ hc, List.filter_append, splitWhitespace,
    splitWhitespace]

/-- There are no words in whitespace. -/
theorem splitWhitespace_eq_nil {s : Str} (h : ∀ c ∈ s, isWhitespace c = true) :
    splitWhitespace s = [] := by
  induction s with
  | nil => rfl
  | cons c s ih =>
    rw [← List.nil_append (c :: s), splitWhitespace_append_cons [] (h c (by simp)),
      ih fun d hd => h d (by simp [hd])]
    rfl

/-- Trimming does not change the words of a text. -/
theorem splitWhitespace_trim (s : Str) : splitWhitespace (trim s) = splitWhitespace s := by
  obtain ⟨pre, post, hs, hpre, hpost⟩ := exists_eq_append_trim s
  generalize trim s = core at hs
  subst hs
  have hback : splitWhitespace (core ++ post) = splitWhitespace core := by
    cases post with
    | nil => rw [List.append_nil]
    | cons c post =>
      have hrest : splitWhitespace post = [] :=
        splitWhitespace_eq_nil fun d hd => hpost d (by simp [hd])
      rw [splitWhitespace_append_cons core (hpost c (by simp)), hrest, List.append_nil]
  rw [← hback, List.append_assoc]
  induction pre with
  | nil => rfl
  | cons c pre ih =>
    rw [ih fun d hd => hpre d (by simp [hd]), List.cons_append, ← List.nil_append (c :: _),
      splitWhitespace_append_cons [] (hpre c (by simp))]
    rfl

/-- The words of texts that are joined by spaces. -/
theorem splitWhitespace_intercalate (parts : List Str) :
    splitWhitespace ([' '].intercalate parts) = parts.flatMap splitWhitespace := by
  induction parts with
  | nil => rfl
  | cons p parts ih =>
    cases parts with
    | nil => simp
    | cons q parts =>
      rw [List.intercalate_cons_cons, List.append_assoc, List.singleton_append,
        splitWhitespace_append_cons p (by decide), ih]
      simp only [List.flatMap_cons]

/-- A text without whitespace is a word. -/
theorem splitWhitespace_eq_singleton {s : Str} (hne : s ≠ [])
    (h : ∀ c ∈ s, isWhitespace c = false) : splitWhitespace s = [s] := by
  rw [splitWhitespace, List.splitOnP_eq_singleton fun c hc => by simp [h c hc],
    List.filter_cons_of_pos (by simpa using hne), List.filter_nil]

/-! ## Single lines -/

/-- A solid text without line feeds: a trimmed line of a page that is not blank. -/
structure IsLine (s : Str) : Prop extends IsSolid s where
  /-- There is no line feed in the text. -/
  feed_notMem : '\n' ∉ s

/-- A line is trimmed already. -/
theorem IsSolid.trim_eq {s : Str} (h : IsSolid s) : trim s = s := by
  simpa using @trim_pad [] s [] h (by simp) (by simp)

/-- The symbols of joined texts come from the texts or from what joins them. -/
theorem mem_of_mem_intercalate {α : Type} {joint : List α} {parts : List (List α)} {c : α}
    (h : c ∈ joint.intercalate parts) : c ∈ joint ∨ ∃ part ∈ parts, c ∈ part := by
  induction parts with
  | nil => simp at h
  | cons p parts ih =>
    cases parts with
    | nil => exact Or.inr ⟨p, by simp, by simpa using h⟩
    | cons q parts =>
      rw [List.intercalate_cons_cons, List.mem_append, List.mem_append] at h
      rcases h with (h | h) | h
      · exact Or.inr ⟨p, by simp, h⟩
      · exact Or.inl h
      · rcases ih h with h | ⟨part, hpart, h⟩
        · exact Or.inl h
        · exact Or.inr ⟨part, List.mem_cons_of_mem _ hpart, h⟩

/-- Lines joined by any text without line feeds are one line. -/
theorem isLine_intercalate {parts : List Str} {joint : Str} (hjoint : '\n' ∉ joint)
    (hne : parts ≠ []) (h : ∀ part ∈ parts, IsLine part) : IsLine (joint.intercalate parts) where
  toIsSolid := isSolid_intercalate joint hne fun part hpart => (h part hpart).toIsSolid
  feed_notMem hmem := by
    rcases mem_of_mem_intercalate hmem with hmem | ⟨part, hpart, hmem⟩
    · exact hjoint hmem
    · exact (h part hpart).feed_notMem hmem

/-- A line is what stands between line feeds, perhaps without a carriage return at its end. -/
theorem exists_piece_of_mem_lines {s line : Str} (h : line ∈ lines s) :
    ∃ piece ∈ s.splitOn '\n', line <+: piece := by
  rcases List.mem_append.mp h with h | h
  · obtain ⟨piece, hpiece, rfl⟩ := List.mem_map.mp h
    refine ⟨piece, List.dropLast_subset _ hpiece, ?_⟩
    unfold stripCarriageReturn
    split
    · exact List.dropLast_prefix piece
    · exact List.prefix_rfl
  · obtain ⟨hlast, -⟩ := List.mem_filter.mp h
    exact ⟨line, List.mem_of_mem_getLast? (by simpa using hlast), List.prefix_rfl⟩

/-- The lines of a text have no line feed. -/
theorem feed_notMem_of_mem_lines {s line : Str} (h : line ∈ lines s) : '\n' ∉ line := by
  obtain ⟨piece, hpiece, hline⟩ := exists_piece_of_mem_lines h
  intro hmem
  have hfalse := eq_false_of_mem_splitOnP hpiece '\n' (hline.subset hmem)
  simp at hfalse

/-- A line is a part of the text. -/
theorem infix_of_mem_lines {s line : Str} (h : line ∈ lines s) : line <:+: s := by
  obtain ⟨piece, hpiece, hline⟩ := exists_piece_of_mem_lines h
  exact hline.isInfix.trans (infix_of_mem_splitOnP hpiece)

/-- Trimming brings in no symbols. -/
theorem mem_of_mem_trim {s : Str} {c : Char} (h : c ∈ trim s) : c ∈ s := (trim_isInfix s).subset h

/-! ## Words in front of a pattern -/

/-- The words in front of the first occurrence of the pattern, which may begin within a word. -/
def firstWords (pat : Str) : List Str → List Str
  | [] => []
  | word :: words =>
    if pat <:+: word then [firstPiece pat word].filter fun front => !front.isEmpty
    else word :: firstWords pat words

section Pattern

variable {pat : Str} (hpat : pat ≠ []) (hsolid : ∀ c ∈ pat, isWhitespace c = false)
include hpat hsolid

/-- What stands in front of a pattern without whitespace, word by word. -/
theorem splitWhitespace_firstPiece (s : Str) :
    splitWhitespace (firstPiece pat s) = firstWords pat (splitWhitespace s) := by
  have hnot : ∀ c, isWhitespace c = true → c ∉ pat := fun c hc hmem => by
    simp [hsolid c hmem] at hc
  have hword : ∀ word : Str, word ≠ [] → (∀ c ∈ word, isWhitespace c = false) →
      splitWhitespace (firstPiece pat word) = firstWords pat [word] := by
    intro word hne hall
    rw [firstWords]
    split_ifs with hoccurs
    · have hsub : ∀ c ∈ firstPiece pat word, isWhitespace c = false := fun c hc =>
        hall c ((infix_of_mem_split hpat (split_eq_cons hpat word ▸ List.mem_cons_self)).subset hc)
      rcases eq_or_ne (firstPiece pat word) [] with hnil | hfirst
      · simp [hnil, splitWhitespace]
      · rw [splitWhitespace_eq_singleton hfirst hsub,
          List.filter_cons_of_pos (by simpa using hfirst), List.filter_nil]
    · rw [(pieces_of_unmatched hoccurs).1, splitWhitespace_eq_singleton hne hall, firstWords]
  induction hlen : s.length using Nat.strong_induction_on generalizing s with
  | _ n ih =>
    obtain ⟨word, rest, rfl, hall, hrest⟩ : ∃ word rest, s = word ++ rest ∧
        (∀ c ∈ word, isWhitespace c = false) ∧ ∀ c ∈ rest.head?, isWhitespace c = true :=
      ⟨s.takeWhile fun c => !isWhitespace c, s.dropWhile fun c => !isWhitespace c,
        List.takeWhile_append_dropWhile.symm,
        fun c hc => by simpa using List.mem_takeWhile_imp hc,
        fun c hc => by simpa using head?_dropWhile hc⟩
    cases rest with
    | nil =>
      rw [List.append_nil]
      rcases eq_or_ne word [] with rfl | hne
      · rfl
      · rw [hword word hne hall, splitWhitespace_eq_singleton hne hall]
    | cons c rest =>
      have hc : isWhitespace c = true := hrest c rfl
      have hlater := ih rest.length (by rw [← hlen, List.length_append, List.length_cons]; omega)
        rest rfl
      rw [firstPiece_append_cons hpat (hnot c hc), splitWhitespace_append_cons word hc]
      rcases eq_or_ne word [] with rfl | hne
      · rw [if_neg (by simpa using hpat), splitWhitespace_append_cons [] hc, hlater]
        rfl
      · rw [splitWhitespace_eq_singleton hne hall, List.singleton_append, firstWords]
        split_ifs with hoccurs
        · rw [hword word hne hall, firstWords, if_pos hoccurs]
        · rw [splitWhitespace_append_cons word hc, splitWhitespace_eq_singleton hne hall, hlater,
            List.singleton_append]

omit hsolid in
/-- The words in front of a pattern are words. -/
theorem mem_firstWords {words : List Str}
    (h : ∀ word ∈ words, word ≠ [] ∧ ∀ c ∈ word, isWhitespace c = false) :
    ∀ word ∈ firstWords pat words, word ≠ [] ∧ ∀ c ∈ word, isWhitespace c = false := by
  induction words with
  | nil => exact nofun
  | cons word words ih =>
    obtain ⟨⟨hne, hall⟩, hwords⟩ := List.forall_mem_cons.mp h
    intro w hw
    rw [firstWords] at hw
    split_ifs at hw
    · obtain ⟨hmem, hne⟩ := List.mem_filter.mp hw
      obtain rfl := List.mem_singleton.mp hmem
      exact ⟨by simpa using hne, fun c hc => hall c ((firstPiece_isPrefix hpat word).subset hc)⟩
    · rcases List.mem_cons.mp hw with rfl | hw
      · exact ⟨hne, hall⟩
      · exact ih hwords w hw

/-- What stands in front of a pattern in words that are joined by spaces is the words in front of
it, joined by spaces. -/
theorem trim_firstPiece_intercalate {words : List Str}
    (h : ∀ word ∈ words, word ≠ [] ∧ ∀ c ∈ word, isWhitespace c = false) :
    trim (firstPiece pat ([' '].intercalate words)) =
      [' '].intercalate (firstWords pat words) := by
  have hspace : ' ' ∉ pat := fun hmem => absurd (hsolid ' ' hmem) (by decide)
  have hword : ∀ word : Str, word ≠ [] → (∀ c ∈ word, isWhitespace c = false) → IsSolid word :=
    fun word hne hall => ⟨⟨fun c hc => hall c (List.mem_of_mem_head? hc), fun c hc =>
      hall c (List.mem_of_mem_getLast? hc)⟩, hne⟩
  have hoccurs : ∀ word : Str, (∀ c ∈ word, isWhitespace c = false) →
      trim (firstPiece pat word) =
        [' '].intercalate ([firstPiece pat word].filter fun front => !front.isEmpty) := by
    intro word hall
    rcases eq_or_ne (firstPiece pat word) [] with hnil | hne
    · simp [hnil, trim]
    · have hfirst := hword _ hne fun c hc => hall c ((firstPiece_isPrefix hpat word).subset hc)
      rw [hfirst.trim_eq, List.filter_cons_of_pos (by simpa using hne)]
      simp
  induction words with
  | nil => rfl
  | cons word words ih =>
    obtain ⟨⟨hne, hall⟩, hwords⟩ := List.forall_mem_cons.mp h
    rw [firstWords]
    cases words with
    | nil =>
      split_ifs with hin
      · rw [List.intercalate_singleton, hoccurs word hall]
      · rw [List.intercalate_singleton, (pieces_of_unmatched hin).1, (hword word hne hall).trim_eq,
          firstWords, List.intercalate_singleton]
    | cons second words =>
      have hlater := ih hwords
      obtain ⟨⟨hne', hall'⟩, -⟩ := List.forall_mem_cons.mp hwords
      rw [List.intercalate_cons_cons, List.append_assoc, List.singleton_append,
        firstPiece_append_cons hpat hspace]
      split_ifs with hin
      · exact hoccurs word hall
      rcases eq_or_ne (firstWords pat (second :: words)) [] with hnone | hsome
      · have hblank : ∀ c ∈ ' ' :: firstPiece pat ([' '].intercalate (second :: words)),
            isWhitespace c = true := by
          rw [hnone, List.intercalate_nil] at hlater
          exact List.forall_mem_cons.mpr ⟨by decide, trim_eq_nil_iff.mp hlater⟩
        have htrim := @trim_pad [] word _ (hword word hne hall) (by simp) hblank
        rw [hnone, List.intercalate_singleton]
        simpa using htrim
      · -- the next word is not padded, so that only what stands behind the last word is trimmed
        obtain ⟨pre, post, hx, hpre, hpost⟩ :=
          exists_eq_append_trim (firstPiece pat ([' '].intercalate (second :: words)))
        have hfront : pre = [] := by
          cases pre with
          | nil => rfl
          | cons c pre =>
            obtain ⟨d, second, rfl⟩ := List.exists_cons_of_ne_nil hne'
            have hhead := head?_mono (firstPiece_isPrefix hpat _) (hx ▸ rfl :
              c ∈ (firstPiece pat ([' '].intercalate ((d :: second) :: words))).head?)
            have hd : c = d := by
              cases words <;> simpa [eq_comm] using hhead
            have hc := hpre c List.mem_cons_self
            rw [hd, hall' d List.mem_cons_self] at hc
            exact absurd hc (by decide)
        have hrest : IsSolid ([' '].intercalate (firstWords pat (second :: words))) :=
          isSolid_intercalate _ hsome fun w hw =>
            (mem_firstWords hpat hwords w hw).elim fun hne hall => hword w hne hall
        have htrim := @trim_pad [] _ post ((hword word hne hall).append hrest [' ']) (by simp) hpost
        rw [List.intercalate_cons_of_ne_nil hsome, hx, hfront, hlater]
        simpa using htrim

end Pattern

end Text
