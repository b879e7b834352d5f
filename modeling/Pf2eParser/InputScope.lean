import Pf2eParser.Dispatch

/-!
# The grammar of input scopes

`parseInputScope` cuts a scope at the first `|`, then the header at the first `!`, what is before it
at the first `#`, and what is before that at the first `@`.  The cuts are nested in an order that is
not the order of the fields, so it is not obvious which delimiters a field may contain.
`ScopeParts.Separated` answers that: the location may contain `@` and `#`, and the source text
everything.

The main result is `parseInputScope_grammar`: the parser accepts exactly the texts of separated
parts that denote a source reference, those parts are unique, and every other text is a
`MalformedScope` error.
-/

namespace Pf2eParser

open Text

/-- The five fields of an input scope, as texts. -/
structure ScopeParts where
  documentId : Str
  version : Str
  location : Str
  digest : Str
  sourceText : Str

/-- The scope with the given fields. -/
def ScopeParts.text (p : ScopeParts) : Str :=
  p.documentId ++ '@' ::
    (p.version ++ '#' :: (p.location ++ '!' :: (p.digest ++ '|' :: p.sourceText)))

/-- No field contains a delimiter that would cut it short. -/
structure ScopeParts.Separated (p : ScopeParts) : Prop where
  documentId : '@' ∉ p.documentId ∧ '#' ∉ p.documentId ∧ '!' ∉ p.documentId ∧ '|' ∉ p.documentId
  version : '#' ∉ p.version ∧ '!' ∉ p.version ∧ '|' ∉ p.version
  location : '!' ∉ p.location ∧ '|' ∉ p.location
  digest : '|' ∉ p.digest

/-- The fields spell the components of a source reference, and the location is not empty. -/
structure ScopeParts.Denotes (E : Externals) (p : ScopeParts) (r : SourceReference) : Prop where
  documentId : E.uuid.parse p.documentId = some r.documentId
  version : parseInt64 p.version = some r.documentVersion
  location : p.location = r.location
  location_ne_nil : p.location ≠ []
  digest : p.digest = E.base64.encode r.contentDigest.toList
  sourceText : p.sourceText = r.sourceText

/-- The fields of the documented encoding of a source reference. -/
def SourceReference.scopeParts (E : Externals) (r : SourceReference) : ScopeParts where
  documentId := E.uuid.toStr r.documentId
  version := displayInt64 r.documentVersion
  location := r.location
  digest := E.base64.encode r.contentDigest.toList
  sourceText := r.sourceText

variable {E : Externals}

/-! ## The steps of the parser -/

/-- A well-formed part is passed on. -/
theorem wellFormed_eq_ok_iff {α : Type} {part : Option α} {reason : String} {a : α} :
    wellFormed part reason = .ok a ↔ part = some a := by
  cases part <;> simp [wellFormed]

/-- A sequence of checks succeeds exactly when the first succeeds and the others succeed on its
result. -/
theorem except_bind_eq_ok_iff {ε α β : Type} {x : Except ε α} {f : α → Except ε β} {b : β} :
    (x >>= f) = .ok b ↔ ∃ a, x = .ok a ∧ f a = .ok b := by
  cases x <;> simp [bind, Except.bind]

/-- The digest of a scope is decoded from its canonical text only. -/
theorem decodeDigest_eq_ok_iff (hE : E.base64.Lawful) {value : Str} {digest : Digest} :
    decodeDigest E value = .ok digest ↔ value = E.base64.encode digest.toList := by
  simp only [decodeDigest, except_bind_eq_ok_iff, wellFormed_eq_ok_iff, hE.decode_eq_some_iff]
  constructor
  · rintro ⟨bytes, rfl, h⟩
    split at h
    · rw [← Option.some.inj h]
      rfl
    · simp at h
  · rintro rfl
    exact ⟨digest.toList, rfl, by simp⟩

/-- The parser succeeds exactly when all four cuts succeed, in the order in which it makes them, and
their parts spell the components of the result. -/
theorem parseInputScope_eq_ok_iff (hE : E.base64.Lawful) {s : Str} {r : SourceReference} :
    parseInputScope E s = .ok r ↔
      ∃ header idVersionLocation idVersion, ∃ p : ScopeParts,
        splitOnce ['|'] s = some (header, p.sourceText) ∧
        splitOnce ['!'] header = some (idVersionLocation, p.digest) ∧
        splitOnce ['#'] idVersionLocation = some (idVersion, p.location) ∧
        splitOnce ['@'] idVersion = some (p.documentId, p.version) ∧ p.Denotes E r := by
  simp only [parseInputScope, except_bind_eq_ok_iff, wellFormed_eq_ok_iff,
    decodeDigest_eq_ok_iff hE]
  constructor
  · rintro ⟨⟨header, t⟩, h₁, ⟨ivl, d⟩, h₂, ⟨iv, l⟩, h₃, ⟨u, v⟩, h₄, id, hu, version, hv, hrest⟩
    obtain ⟨⟨⟩, hl, digest, hd, hr⟩ := hrest
    obtain rfl := Except.ok.inj hr
    refine ⟨header, ivl, iv, ⟨u, v, l, d, t⟩, h₁, h₂, h₃, h₄, hu, hv, rfl, ?_, hd, rfl⟩
    rintro rfl
    simp at hl
  · rintro ⟨header, ivl, iv, p, h₁, h₂, h₃, h₄, hp⟩
    refine ⟨_, h₁, _, h₂, _, h₃, _, h₄, _, hp.documentId, _, hp.version, (), ?_, _, hp.digest, ?_⟩
    · simp [hp.location_ne_nil]
    · rw [hp.location, hp.sourceText]
      rfl

/-! ## The grammar -/

/-- The four nested cuts take a text apart into separated parts, and nothing else. -/
theorem cuts_iff_separated {s : Str} {p : ScopeParts} :
    (∃ header idVersionLocation idVersion,
      splitOnce ['|'] s = some (header, p.sourceText) ∧
      splitOnce ['!'] header = some (idVersionLocation, p.digest) ∧
      splitOnce ['#'] idVersionLocation = some (idVersion, p.location) ∧
      splitOnce ['@'] idVersion = some (p.documentId, p.version)) ↔
      p.text = s ∧ p.Separated := by
  simp only [splitOnce_singleton_iff]
  constructor
  · rintro ⟨header, ivl, iv, ⟨hs, hbar⟩, ⟨rfl, hbang⟩, ⟨rfl, hhash⟩, rfl, hat⟩
    refine ⟨by rw [hs]; simp [ScopeParts.text], ?_⟩
    simp only [List.mem_append, List.mem_cons, not_or] at hbar hbang hhash
    exact ⟨⟨hat, hhash.1, hbang.1.1, hbar.1.1.1⟩, ⟨hhash.2.2, hbang.1.2.2, hbar.1.1.2.2⟩,
      ⟨hbang.2.2, hbar.1.2.2⟩, hbar.2.2⟩
  · rintro ⟨rfl, hp⟩
    obtain ⟨hu₁, hu₂, hu₃, hu₄⟩ := hp.documentId
    obtain ⟨hv₁, hv₂, hv₃⟩ := hp.version
    obtain ⟨hl₁, hl₂⟩ := hp.location
    refine ⟨p.documentId ++ '@' :: (p.version ++ '#' :: (p.location ++ '!' :: p.digest)),
      p.documentId ++ '@' :: (p.version ++ '#' :: p.location),
      p.documentId ++ '@' :: p.version, ⟨by simp [ScopeParts.text], ?_⟩, ⟨by simp, ?_⟩,
      ⟨by simp, ?_⟩, rfl, hu₁⟩
    · simp [hu₄, hv₃, hl₂, hp.digest]
    · simp [hu₃, hv₂, hl₁]
    · simp [hu₂, hv₁]

/-- The parser accepts exactly the texts of separated parts that denote a source reference. -/
theorem parseInputScope_eq_ok_iff_parts (hE : E.base64.Lawful) {s : Str} {r : SourceReference} :
    parseInputScope E s = .ok r ↔ ∃ p : ScopeParts, p.text = s ∧ p.Separated ∧ p.Denotes E r := by
  rw [parseInputScope_eq_ok_iff hE]
  constructor
  · rintro ⟨header, ivl, iv, p, h₁, h₂, h₃, h₄, hp⟩
    obtain ⟨htext, hsep⟩ := cuts_iff_separated.mp ⟨header, ivl, iv, h₁, h₂, h₃, h₄⟩
    exact ⟨p, htext, hsep, hp⟩
  · rintro ⟨p, htext, hsep, hp⟩
    obtain ⟨header, ivl, iv, h₁, h₂, h₃, h₄⟩ := cuts_iff_separated.mpr ⟨htext, hsep⟩
    exact ⟨header, ivl, iv, p, h₁, h₂, h₃, h₄, hp⟩

/-- Separated parts are determined by their text. -/
theorem ScopeParts.Separated.eq_of_text_eq {p q : ScopeParts} (hp : p.Separated) (hq : q.Separated)
    (h : p.text = q.text) : p = q := by
  obtain ⟨header, ivl, iv, h₁, h₂, h₃, h₄⟩ := cuts_iff_separated.mpr ⟨h, hp⟩
  obtain ⟨header', ivl', iv', h₁', h₂', h₃', h₄'⟩ := cuts_iff_separated.mpr ⟨rfl, hq⟩
  rw [h₁'] at h₁
  simp only [Option.some.injEq, Prod.mk.injEq] at h₁
  rw [← h₁.1, h₂'] at h₂
  simp only [Option.some.injEq, Prod.mk.injEq] at h₂
  rw [← h₂.1, h₃'] at h₃
  simp only [Option.some.injEq, Prod.mk.injEq] at h₃
  rw [← h₃.1, h₄'] at h₄
  simp only [Option.some.injEq, Prod.mk.injEq] at h₄
  cases p
  cases q
  simp only [mk.injEq]
  exact ⟨h₄.1.symm, h₄.2.symm, h₃.2.symm, h₂.2.symm, h₁.2.symm⟩

/-- Every failure of a check is a `MalformedScope` error. -/
def MalformedOnly {α : Type} (x : Except ParserError α) : Prop :=
  ∀ e, x = .error e → ∃ reason, e = .malformedScope reason

/-- A single check fails with `MalformedScope` only. -/
theorem malformedOnly_wellFormed {α : Type} (part : Option α) (reason : String) :
    MalformedOnly (wellFormed part reason) := by
  intro e he
  cases part with
  | none => exact ⟨reason.toList, (Except.error.inj he).symm⟩
  | some a => simp [wellFormed] at he

/-- A sequence of checks fails with `MalformedScope` only. -/
theorem MalformedOnly.bind {α β : Type} {x : Except ParserError α} {f : α → Except ParserError β}
    (hx : MalformedOnly x) (hf : ∀ a, MalformedOnly (f a)) : MalformedOnly (x >>= f) := by
  cases x with
  | error e => exact fun e' he => hx e' (congrArg Except.error (Except.error.inj he))
  | ok a => exact hf a

/-- The parser fails with `MalformedScope` only. -/
theorem malformedOnly_parseInputScope (s : Str) : MalformedOnly (parseInputScope E s) := by
  refine (malformedOnly_wellFormed _ _).bind fun _ => (malformedOnly_wellFormed _ _).bind fun _ =>
    (malformedOnly_wellFormed _ _).bind fun _ => (malformedOnly_wellFormed _ _).bind fun _ =>
    (malformedOnly_wellFormed _ _).bind fun _ => (malformedOnly_wellFormed _ _).bind fun _ =>
    (malformedOnly_wellFormed _ _).bind fun _ => MalformedOnly.bind ?_ fun _ => ?_
  · exact (malformedOnly_wellFormed _ _).bind fun _ => malformedOnly_wellFormed _ _
  · intro e he
    simp [pure, Except.pure] at he

/-! ## The documented encoding -/

/-- A printed UUID contains no delimiter of a scope. -/
theorem UuidText.Lawful.notMem_toStr {uuid : UuidText} (h : uuid.Lawful) (u : Uuid) {c : Char}
    (hc : c ∈ "@#!|~".toList) : c ∉ uuid.toStr u := by
  have hno : ∀ c ∈ "@#!|~".toList, ¬ (c.isDigit ∨ ('a' ≤ c ∧ c ≤ 'f') ∨ c = '-') :=
    List.all_iff_forall_prop.mp (by decide)
  exact fun hu => hno c hc (h.mem_toStr u c hu)

/-- A printed integer contains no delimiter of a scope. -/
theorem notMem_displayInt64 (n : Int64) {c : Char} (hc : c ∈ "@#!|~".toList) :
    c ∉ displayInt64 n := by
  have hno : ∀ c ∈ "@#!|~".toList, ¬ (c = '-' ∨ c.isDigit = true) :=
    List.all_iff_forall_prop.mp (by decide)
  exact fun hn => hno c hc (mem_displayInt hn)

/-- A base64url text contains no delimiter of a scope. -/
theorem Base64Url.Lawful.notMem_encode {base64 : Base64Url} (h : base64.Lawful) (bytes : List UInt8)
    {c : Char} (hc : c ∈ "@#!|~".toList) : c ∉ base64.encode bytes := by
  have hno : ∀ c ∈ "@#!|~".toList, ¬ (c.isAlphanum ∨ c = '-' ∨ c = '_') :=
    List.all_iff_forall_prop.mp (by decide)
  exact fun hb => hno c hc (h.mem_encode bytes c hb)

/-- The documented encoding of a reference with an admissible location has separated parts. -/
theorem SourceReference.separated_scopeParts (hE : E.Lawful) {r : SourceReference}
    (hbang : '!' ∉ r.location) (hbar : '|' ∉ r.location) : (r.scopeParts E).Separated where
  documentId := ⟨hE.uuid.notMem_toStr _ (by decide), hE.uuid.notMem_toStr _ (by decide),
    hE.uuid.notMem_toStr _ (by decide), hE.uuid.notMem_toStr _ (by decide)⟩
  version := ⟨notMem_displayInt64 _ (by decide), notMem_displayInt64 _ (by decide),
    notMem_displayInt64 _ (by decide)⟩
  location := ⟨hbang, hbar⟩
  digest := hE.base64.notMem_encode _ (by decide)

/-- The documented encoding of a reference with a location denotes the reference. -/
theorem SourceReference.denotes_scopeParts (hE : E.Lawful) {r : SourceReference}
    (hne : r.location ≠ []) : (r.scopeParts E).Denotes E r where
  documentId := hE.uuid.parse_toStr _
  version := parseInt64_displayInt64 _
  location := rfl
  location_ne_nil := hne
  digest := rfl
  sourceText := rfl

/-- The documented encoding of a source reference with an admissible location is read back. -/
theorem parseInputScope_scopeParts (hE : E.Lawful) {r : SourceReference} (hne : r.location ≠ [])
    (hbang : '!' ∉ r.location) (hbar : '|' ∉ r.location) :
    parseInputScope E (r.scopeParts E).text = .ok r :=
  (parseInputScope_eq_ok_iff_parts hE.base64).mpr
    ⟨_, rfl, r.separated_scopeParts hE hbang hbar, r.denotes_scopeParts hE hne⟩

/-- The parser accepts exactly its grammar, which is unambiguous; everything else is a
`MalformedScope` error; and the documented encoding of a source reference is read back. -/
theorem parseInputScope_grammar (hE : E.Lawful) :
    (∀ s r, parseInputScope E s = .ok r ↔
      ∃ p : ScopeParts, p.text = s ∧ p.Separated ∧ p.Denotes E r) ∧
    (∀ s (p q : ScopeParts), p.text = s → p.Separated → q.text = s → q.Separated → p = q) ∧
    (∀ s, (¬ ∃ (p : ScopeParts) (r : SourceReference),
        p.text = s ∧ p.Separated ∧ p.Denotes E r) →
      ∃ reason, parseInputScope E s = .error (.malformedScope reason)) ∧
    ∀ r : SourceReference, r.location ≠ [] → '!' ∉ r.location → '|' ∉ r.location →
      parseInputScope E (r.scopeParts E).text = .ok r := by
  refine ⟨fun s r => parseInputScope_eq_ok_iff_parts hE.base64, ?_, fun s hs => ?_,
    fun r hne hbang hbar => parseInputScope_scopeParts hE hne hbang hbar⟩
  · rintro s p q hp hpsep hq hqsep
    exact hpsep.eq_of_text_eq hqsep (hp.trans hq.symm)
  · cases h : parseInputScope E s with
    | error e =>
      obtain ⟨reason, rfl⟩ := malformedOnly_parseInputScope s e h
      exact ⟨reason, rfl⟩
    | ok r =>
      obtain ⟨p, hp⟩ := (parseInputScope_eq_ok_iff_parts hE.base64).mp h
      exact absurd ⟨p, r, hp⟩ hs

/-- The grammar of the reference externals; a location may contain `@` and `#`. -/
theorem parseInputScope_grammar_reference :
    (∀ s r, parseInputScope .reference s = .ok r ↔
      ∃ p : ScopeParts, p.text = s ∧ p.Separated ∧ p.Denotes .reference r) ∧
    ∃ r : SourceReference, r.location = "p@1#2".toList ∧
      parseInputScope .reference (r.scopeParts .reference).text = .ok r :=
  ⟨(parseInputScope_grammar Externals.reference_lawful).1,
    ⟨1, 2, List.Vector.replicate 32 3, "p@1#2".toList, "a|b!c#d@e".toList⟩, rfl,
    (parseInputScope_grammar Externals.reference_lawful).2.2.2 _ (by decide) (by decide)
      (by decide)⟩

end Pf2eParser
