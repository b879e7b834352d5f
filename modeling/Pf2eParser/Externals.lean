import Pf2eParser.Codec
import Pf2eParser.Domain
import Pf2eParser.Text.Case

/-!
# What the service takes from other crates

The text forms of UUIDs, base64url and JSON are computed by crates whose code is not part of the
repository, and letter case is read from the Unicode character database.  The model takes them as
one parameter, `Externals`; `Externals.Lawful` is what the service relies on, law by law as those
crates document it.
-/

namespace Pf2eParser

open Text

/-- The text form of UUIDs. -/
structure UuidText where
  /-- `Display`: the hyphenated form. -/
  toStr : Uuid → Str
  /-- `FromStr`: every documented spelling of a UUID. -/
  parse : Str → Option Uuid

/-- What the service relies on in the text form of UUIDs. -/
structure UuidText.Lawful (uuid : UuidText) : Prop where
  /-- A printed UUID is read back. -/
  parse_toStr : ∀ u, uuid.parse (uuid.toStr u) = some u
  /-- The hyphenated form has 36 characters. -/
  length_toStr : ∀ u, (uuid.toStr u).length = 36
  /-- The hyphenated form consists of lower-case hexadecimal digits and hyphens. -/
  mem_toStr : ∀ u, ∀ c ∈ uuid.toStr u, c.isDigit ∨ ('a' ≤ c ∧ c ≤ 'f') ∨ c = '-'

/-- Base64 in the URL-safe alphabet without padding. -/
structure Base64Url where
  encode : List UInt8 → Str
  decode : Str → Option (List UInt8)

/-- What the service relies on in base64url. -/
structure Base64Url.Lawful (base64 : Base64Url) : Prop where
  /-- Decoding accepts exactly the canonical texts: unpadded, and with zero trailing bits. -/
  decode_eq_some_iff : ∀ s bytes, base64.decode s = some bytes ↔ base64.encode bytes = s
  /-- The URL-safe alphabet. -/
  mem_encode : ∀ bytes, ∀ c ∈ base64.encode bytes, c.isAlphanum ∨ c = '-' ∨ c = '_'
  /-- Three bytes take four characters, and the rest as few as hold its bits. -/
  length_encode : ∀ bytes, (base64.encode bytes).length = (4 * bytes.length + 2) / 3

/-- JSON arrays of strings. -/
structure JsonStringList where
  toStr : List Str → Str
  fromStr : Str → Option (List Str)

/-- What the service relies on in JSON arrays of strings. -/
structure JsonStringList.Lawful (json : JsonStringList) : Prop where
  /-- A serialized list is deserialized to itself. -/
  fromStr_toStr : ∀ values, json.fromStr (json.toStr values) = some values

/-- Everything the service takes from outside the repository. -/
structure Externals where
  caseTables : CaseTables
  uuid : UuidText
  base64 : Base64Url
  json : JsonStringList

/-- What the service relies on in the crates it uses. -/
structure Externals.Lawful (E : Externals) : Prop where
  uuid : E.uuid.Lawful
  base64 : E.base64.Lawful
  json : E.json.Lawful

/-- Different UUIDs are printed differently. -/
theorem UuidText.Lawful.toStr_injective {uuid : UuidText} (h : uuid.Lawful) :
    Function.Injective uuid.toStr := by
  intro u v huv
  have hp := congrArg uuid.parse huv
  rwa [h.parse_toStr, h.parse_toStr, Option.some.injEq] at hp

/-- Different byte sequences have different base64url texts. -/
theorem Base64Url.Lawful.encode_injective {base64 : Base64Url} (h : base64.Lawful) :
    Function.Injective base64.encode := by
  intro a b hab
  have ha := (h.decode_eq_some_iff (base64.encode a) a).mpr rfl
  rw [hab, (h.decode_eq_some_iff (base64.encode b) b).mpr rfl, Option.some.injEq] at ha
  exact ha.symm

/-- The hyphenated form of UUIDs. -/
def UuidText.reference : UuidText where
  toStr := Codec.hyphenated
  parse := Codec.parseHyphenated

/-- Base64 as the URL-safe alphabet defines it. -/
def Base64Url.reference : Base64Url where
  encode := Codec.encodeBase64
  decode := Codec.decodeBase64

/-- JSON arrays without any insignificant whitespace. -/
def JsonStringList.reference : JsonStringList where
  toStr := Codec.writeStrings
  fromStr := Codec.readStrings

/-- Externals that follow the documented formats, with the letter case of the ASCII characters. -/
def Externals.reference : Externals where
  caseTables := .ascii
  uuid := .reference
  base64 := .reference
  json := .reference

/-- The hyphenated form of UUIDs is lawful. -/
theorem UuidText.reference_lawful : UuidText.reference.Lawful where
  parse_toStr u := by
    simp only [reference]
    exact Codec.parseHyphenated_hyphenated u
  length_toStr u := Codec.length_hyphenated u
  mem_toStr _ _ hc := Codec.isDigit_or_of_mem_hyphenated hc

/-- The reference externals are lawful. -/
theorem Externals.reference_lawful : Externals.reference.Lawful where
  uuid := UuidText.reference_lawful
  base64 := ⟨Codec.decodeBase64_eq_some_iff, fun _ _ => Codec.mem_encodeBase64,
    Codec.length_encodeBase64⟩
  json := ⟨Codec.readStrings_writeStrings⟩

end Pf2eParser
