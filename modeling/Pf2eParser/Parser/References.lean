import Pf2eParser.Parser.Explicit
import Pf2eParser.Parser.Layout

/-!
# References

The references of a block come from two places: the items of its `See also` and `References` lines,
and the names in double brackets anywhere in it.  `MarkedLine` says what the markup of a line is,
and `references_of_markedLines` that the second search finds the names of all lines.  It looks at
the lines with items as well, and there the markup is part of the items, so that each reference is
recorded once and without brackets exactly when no such line has markup (`references_recorded_iff`).
-/

namespace Pf2eParser

open Text

variable {U : CaseTables}

/-! ## The markup of a line -/

/-- A name that may stand between double brackets. -/
structure IsReferenceName (name : Str) : Prop where
  /-- The name is not blank. -/
  not_blank : trim name ≠ []
  /-- Brackets would be markup, and a comma would separate two names. -/
  plain : ∀ c ∈ name, c ≠ '[' ∧ c ≠ ']' ∧ c ≠ ','

/-- The markup of a line is well formed: every opening is closed on the line, and there is one name
in between.  The list has these names. -/
inductive MarkedLine : Str → List Str → Prop
  | plain {text : Str} : ¬ openBrackets <:+: text → MarkedLine text []
  | name {text name rest : Str} {names : List Str} :
      ¬ openBrackets <:+: text ++ ['['] → IsReferenceName name → MarkedLine rest names →
      MarkedLine (text ++ openBrackets ++ (name ++ closeBrackets ++ rest)) (trim name :: names)

/-- The items of the `See also` and `References` lines. -/
def referenceItems (U : CaseTables) (block : Str) : List Str :=
  (fieldValues U .references (blockLines block)).flatMap splitList

/-- The items that are not marked as names. -/
def unmarkedItems (U : CaseTables) (block : Str) : List Str :=
  (referenceItems U block).filter fun item => ¬ openBrackets <:+: item

/-- A text without double brackets. -/
def IsPlain (text : Str) : Prop := ¬ openBrackets <:+: text ∧ ¬ closeBrackets <:+: text

instance (text : Str) : Decidable (IsPlain text) := inferInstanceAs (Decidable (_ ∧ _))

/-! ## The names of marked lines -/

/-- A line without openings has no part in the search. -/
theorem references_append_feed {front : Str} (h : splitOnce openBrackets front = none) (s : Str) :
    extractBracketedReferences (front ++ '\n' :: s) = extractBracketedReferences s := by
  have hcut := @splitOnce_append_cons _ _ openBrackets front s '\n' (by decide) (by decide) h
  cases hopen : splitOnce openBrackets s with
  | none =>
    rw [hopen] at hcut
    rw [references_unopened hopen, references_unopened hcut]
  | some entry =>
    obtain ⟨before, opened⟩ := entry
    rw [hopen] at hcut
    cases hclose : splitOnce closeBrackets opened with
    | none => rw [references_unclosed hopen hclose, references_unclosed hcut hclose]
    | some entry =>
      obtain ⟨name, rest⟩ := entry
      rw [references_named hopen hclose, references_named hcut hclose]

/-- The search finds a name in front of everything behind it. -/
theorem references_append_name {text name : Str} (h : ¬ openBrackets <:+: text ++ ['['])
    (hname : IsReferenceName name) (s : Str) :
    extractBracketedReferences (text ++ openBrackets ++ (name ++ closeBrackets ++ s)) =
      trim name :: extractBracketedReferences s := by
  have hopen : splitOnce openBrackets (text ++ openBrackets ++ (name ++ closeBrackets ++ s)) =
      some (text, name ++ closeBrackets ++ s) :=
    (splitOnce_eq_some_iff (by decide)).mpr ⟨rfl, h⟩
  have hclose : splitOnce closeBrackets (name ++ closeBrackets ++ s) = some (name, s) := by
    refine (splitOnce_eq_some_iff (by decide)).mpr ⟨rfl, fun hsub => ?_⟩
    have hfree : ∀ c ∈ closeBrackets, c ∉ name := by
      intro c hc hmem
      obtain rfl : c = ']' := by simpa [closeBrackets] using hc
      exact (hname.plain _ hmem).2.1 rfl
    rw [infix_append_iff_right (by decide) hfree] at hsub
    exact not_isInfix_dropLast (by decide) hsub
  rw [references_named hopen hclose]
  simp [hname.not_blank]

/-- The search finds the names of a line in front of those behind it. -/
theorem MarkedLine.references_append_feed {line : Str} {names : List Str}
    (h : MarkedLine line names) (s : Str) : extractBracketedReferences (line ++ '\n' :: s) =
      names ++ extractBracketedReferences s := by
  induction h with
  | plain h => exact Pf2eParser.references_append_feed (splitOnce_eq_none_iff.mpr h) s
  | @name text name rest names h hname _ ih =>
    rw [List.append_assoc (text ++ openBrackets), List.append_assoc (name ++ closeBrackets),
      references_append_name h hname, ih, List.cons_append]

/-- The names of a line have no brackets. -/
theorem MarkedLine.isPlain {line name : Str} {names : List Str} (h : MarkedLine line names)
    (hname : name ∈ names) : IsPlain name := by
  induction h with
  | plain => simp at hname
  | @name text found rest names _ hfound _ ih =>
    rcases List.mem_cons.mp hname with rfl | hname
    · have hfree : ∀ c ∈ trim found, c ≠ '[' ∧ c ≠ ']' := fun c hc =>
        ⟨(hfound.plain c (mem_of_mem_trim hc)).1, (hfound.plain c (mem_of_mem_trim hc)).2.1⟩
      exact ⟨fun hsub => (hfree '[' (hsub.subset (by decide))).1 rfl,
        fun hsub => (hfree ']' (hsub.subset (by decide))).2 rfl⟩
    · exact ih hname

/-- The names of a line stand on that line. -/
theorem MarkedLine.feed_notMem {line name : Str} {names : List Str} (h : MarkedLine line names)
    (hline : '\n' ∉ line) (hname : name ∈ names) : '\n' ∉ name := by
  induction h with
  | plain => simp at hname
  | @name text found rest names _ _ _ ih =>
    simp only [List.mem_append, not_or] at hline
    rcases List.mem_cons.mp hname with rfl | hname
    · exact fun hmem => hline.2.1.1 (mem_of_mem_trim hmem)
    · exact ih hline.2.2 hname

/-- The lines of a block under each other, each with its line end. -/
def plainLayout (ls : List Str) : Str := ls.flatMap fun line => line ++ ['\n']

/-- The plain layout of the lines of a block has these lines. -/
theorem blockLines_plainLayout {ls : List Str} (h : ∀ line ∈ ls, IsLine line) :
    blockLines (plainLayout ls) = ls := by
  induction ls with
  | nil => rfl
  | cons line ls ih =>
    obtain ⟨hline, hrest⟩ := List.forall_mem_cons.mp h
    rw [plainLayout, List.flatMap_cons, List.append_assoc, List.singleton_append,
      blockLines_append_feed, ← plainLayout, ih hrest, blockLines_of_notMem hline.feed_notMem,
      trimmedLines, List.map_singleton, hline.trim_eq]
    simp [hline.ne_nil]

/-- The search finds the names of all lines of the plain layout. -/
theorem references_plainLayout {ls : List Str} {names : List (List Str)}
    (h : List.Forall₂ MarkedLine ls names) :
    extractBracketedReferences (plainLayout ls) = names.flatten := by
  induction h with
  | nil => exact references_unopened (by decide)
  | @cons line found ls names hline _ ih =>
    rw [plainLayout, List.flatMap_cons, List.append_assoc, List.singleton_append,
      hline.references_append_feed, ← plainLayout, ih, List.flatten_cons]

/-- The names of a block come from its lines. -/
theorem exists_markedLine {ls found : List Str} {names : List (List Str)}
    (h : List.Forall₂ MarkedLine ls names) (hfound : found ∈ names) :
    ∃ line ∈ ls, MarkedLine line found := by
  induction h with
  | nil => simp at hfound
  | @cons line first ls names hline _ ih =>
    rcases List.mem_cons.mp hfound with rfl | hfound
    · exact ⟨line, List.mem_cons_self, hline⟩
    · obtain ⟨later, hlater, hmarked⟩ := ih hfound
      exact ⟨later, List.mem_cons_of_mem _ hlater, hmarked⟩

/-- The search finds the names of all lines of a block. -/
theorem references_of_markedLines {block : Str} {names : List (List Str)}
    (h : List.Forall₂ MarkedLine (blockLines block) names) :
    extractBracketedReferences block = names.flatten := by
  have hlines : blockLines block = blockLines (plainLayout (blockLines block)) :=
    (blockLines_plainLayout fun _ hline => isLine_of_mem_blockLines hline).symm
  rw [← references_plainLayout h]
  refine references_eq_of_blockLines_eq hlines fun lines hmem => ?_
  rw [← map_blockLines_references, references_plainLayout h] at hmem
  obtain ⟨name, hname, rfl⟩ := List.mem_map.mp hmem
  obtain ⟨found, hfound, hname⟩ := List.mem_flatten.mp hname
  obtain ⟨line, hline, hmarked⟩ := exists_markedLine h hfound
  have hfeed := hmarked.feed_notMem (isLine_of_mem_blockLines hline).feed_notMem hname
  rw [blockLines_of_notMem hfeed]
  exact (List.length_filter_le _ _).trans (by simp)

/-! ## The items of a list -/

/-- A pattern without commas and whitespace occurs in a list exactly if it occurs in an item. -/
theorem infix_splitList_iff {pat : Str} (hne : pat ≠ []) (hcomma : ',' ∉ pat)
    (hpat : ∀ c ∈ pat, isWhitespace c = false) (value : Str) :
    pat <:+: value ↔ ∃ item ∈ splitList value, pat <:+: item := by
  have hjoint : ∀ c ∈ pat, c ∉ [','] := fun c hc hmem =>
    hcomma (List.mem_singleton.mp hmem ▸ hc)
  have hjoined : [','].intercalate (value.splitOn ',') = value := List.intercalate_splitOn ','
  conv_lhs => rw [← hjoined, infix_intercalate_iff hne (by simp) hjoint]
  constructor
  · rintro ⟨part, hpart, hsub⟩
    have htrim := (infix_trim_iff hne hpat).mpr hsub
    refine ⟨trim part, List.mem_filter.mpr ⟨List.mem_map_of_mem hpart, ?_⟩, htrim⟩
    have hnil : trim part ≠ [] := fun hnil => hne (by simpa [hnil] using htrim)
    simpa using hnil
  · rintro ⟨item, hitem, hsub⟩
    obtain ⟨part, hpart, rfl⟩ := List.mem_map.mp (List.mem_filter.mp hitem).1
    exact ⟨part, hpart, (infix_trim_iff hne hpat).mp hsub⟩

/-- A list is free of double brackets exactly if its items are. -/
theorem isPlain_iff_splitList (value : Str) :
    IsPlain value ↔ ∀ item ∈ splitList value, IsPlain item := by
  have hopen := infix_splitList_iff (by decide) (by decide)
    (List.all_iff_forall_prop.mp (by decide) : ∀ c ∈ openBrackets, isWhitespace c = false) value
  have hclose := infix_splitList_iff (by decide) (by decide)
    (List.all_iff_forall_prop.mp (by decide) : ∀ c ∈ closeBrackets, isWhitespace c = false) value
  simp only [IsPlain, hopen, hclose]
  grind

/-! ## The references of a block -/

/-- The references of a block are its items and its names. -/
theorem references_parseBlock (hA : U.FollowsAscii) (id : Uuid) (block : Str) :
    (parseBlock U id block).references =
      referenceItems U block ++ extractBracketedReferences block := by
  have hread : (readLines U block).references = referenceItems U block := by
    rw [readLines_eq, referenceItems, ← fieldValues_labelLines hA]
  rw [← hread]
  simp only [parseBlock]
  split <;> rfl

/-- The references of a block are its unmarked items and its names, and they are free of brackets,
exactly if no value of a `See also` or `References` line has double brackets. -/
theorem references_recorded_iff (hA : U.FollowsAscii) (id : Uuid) (block : Str)
    (names : List (List Str)) (h : List.Forall₂ MarkedLine (blockLines block) names) :
    ((parseBlock U id block).references.Perm (unmarkedItems U block ++ names.flatten) ∧
        ∀ reference ∈ (parseBlock U id block).references, IsPlain reference) ↔
      ∀ line ∈ blockLines block, ∀ value, lineField U line = some (.references, value) →
        IsPlain value := by
  rw [references_parseBlock hA, references_of_markedLines h]
  have hvalues : (∀ line ∈ blockLines block, ∀ value,
      lineField U line = some (.references, value) → IsPlain value) ↔
        ∀ item ∈ referenceItems U block, IsPlain item := by
    simp only [referenceItems, List.forall_mem_flatMap, ← isPlain_iff_splitList,
      mem_fieldValues_iff]
    grind
  rw [hvalues]
  constructor
  · rintro ⟨-, hplain⟩ item hitem
    exact hplain item (List.mem_append_left _ hitem)
  · intro hplain
    have hitems : unmarkedItems U block = referenceItems U block :=
      List.filter_eq_self.mpr fun item hitem => by simpa using (hplain item hitem).1
    refine ⟨by rw [hitems], fun reference hmem => ?_⟩
    rcases List.mem_append.mp hmem with hitem | hname
    · exact hplain reference hitem
    · obtain ⟨found, hfound, hname⟩ := List.mem_flatten.mp hname
      obtain ⟨line, -, hmarked⟩ := exists_markedLine h hfound
      exact hmarked.isPlain hname

/-- A line that is one marked name behind a text. -/
theorem MarkedLine.single {text name : Str} (h : ¬ openBrackets <:+: text ++ ['['])
    (hname : IsReferenceName name) :
    MarkedLine (text ++ openBrackets ++ (name ++ closeBrackets)) [trim name] := by
  simpa using MarkedLine.name h hname (.plain (by decide : ¬ openBrackets <:+: []))

/-- The name of the examples. -/
theorem isReferenceName_fireball : IsReferenceName "Fireball".toList where
  not_blank := by decide
  plain := List.all_iff_forall_prop.mp (by decide)

/-- A marked name in a list is recorded twice, once with its brackets. -/
theorem references_recorded_fails :
    List.Forall₂ MarkedLine (blockLines "See also: [[Fireball]]".toList) [["Fireball".toList]] ∧
    ¬ ((parseBlock .ascii 0 "See also: [[Fireball]]".toList).references.Perm
        (unmarkedItems .ascii "See also: [[Fireball]]".toList ++ ["Fireball".toList]) ∧
      ∀ reference ∈ (parseBlock .ascii 0 "See also: [[Fireball]]".toList).references,
        IsPlain reference) := by
  have hline : MarkedLine "See also: [[Fireball]]".toList ["Fireball".toList] :=
    MarkedLine.single (by decide : ¬ openBrackets <:+: "See also: ".toList ++ ['['])
      isReferenceName_fireball
  refine ⟨.cons hline .nil, fun h => ?_⟩
  rw [references_parseBlock CaseTables.ascii_followsAscii] at h
  have hitem : "[[Fireball]]".toList ∈ referenceItems .ascii "See also: [[Fireball]]".toList := by
    decide
  exact (h.2 _ (List.mem_append_left _ hitem)).1 (by decide)

/-- Outside of lists a marked name is recorded once. -/
theorem references_recorded_examples :
    (parseBlock .ascii 0 "See also: Frost\nEffect: [[Fireball]]".toList).references.Perm
      (unmarkedItems .ascii "See also: Frost\nEffect: [[Fireball]]".toList ++
        ["Fireball".toList]) := by
  have hplain : MarkedLine "See also: Frost".toList [] := .plain (by decide)
  have hline : MarkedLine "Effect: [[Fireball]]".toList ["Fireball".toList] :=
    MarkedLine.single (by decide : ¬ openBrackets <:+: "Effect: ".toList ++ ['['])
      isReferenceName_fireball
  have hvalues : ∀ value ∈ fieldValues .ascii .references
      (blockLines "See also: Frost\nEffect: [[Fireball]]".toList), IsPlain value :=
    List.all_iff_forall_prop.mp (by decide)
  have hmarked : List.Forall₂ MarkedLine
      (blockLines "See also: Frost\nEffect: [[Fireball]]".toList) [[], ["Fireball".toList]] :=
    .cons hplain (.cons hline .nil)
  refine ((references_recorded_iff CaseTables.ascii_followsAscii 0 _ _ hmarked).mpr
    fun line hmem value hvalue => ?_).1
  exact hvalues value (mem_fieldValues_iff.mpr ⟨line, hmem, hvalue⟩)

end Pf2eParser
