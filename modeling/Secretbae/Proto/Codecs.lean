import Secretbae.Proto.Text
import Secretbae.Lib.Codec
import Secretbae.Lib.Except

/-!
# The protocol types in JSON

Paths, tags and selectors are their texts, and versions their numbers: each is
written in one way and validated when it is read.
-/

namespace Secretbae
namespace Proto

open Lib

/-- `Display for TagSelector`. -/
def TagSelector.toText : TagSelector → String
  | .key name => name
  | .exact tag => tag.toText

/-- `FromStr for TagSelector`. -/
def TagSelector.parse (raw : String) : Except ProtoError TagSelector :=
  if '=' ∈ raw.toList then (Tag.parse raw).map .exact
  else
    match validatePart "key" raw with
    | .error e => .error e
    | .ok () => .ok (.key raw)

/-- The selector is one that a text names; the type has others. -/
def TagSelector.Named (selector : TagSelector) : Prop :=
  TagSelector.parse selector.toText = .ok selector

theorem Tag.new_eq_ok
    {key value : String} {tag : Tag}
    (h : Tag.new key value = .ok tag) :
    key = tag.key ∧ value = tag.value := by
  unfold Tag.new at h
  split at h
  · cases h
  split at h
  · cases h
  · cases h
    exact ⟨rfl, rfl⟩

/-- Only its text is read as a tag. -/
theorem Tag.eq_toText
    {raw : String} {tag : Tag}
    (h : Tag.parse raw = .ok tag) :
    raw = tag.toText := by
  unfold Tag.parse at h
  split at h
  · cases h
  · rename_i key value hsplit
    obtain ⟨hraw, -⟩ := splitOnce_eq_some_iff.mp hsplit
    obtain ⟨hkey, hvalue⟩ := Tag.new_eq_ok h
    rw [← String.toList_inj, hraw, Tag.toText, ← hkey, ← hvalue]
    simp

theorem TagSelector.eq_toText
    {raw : String} {selector : TagSelector}
    (h : TagSelector.parse raw = .ok selector) :
    raw = selector.toText := by
  unfold TagSelector.parse at h
  split at h
  · cases htag : Tag.parse raw with
    | error e =>
        rw [htag] at h
        cases h
    | ok tag =>
        rw [htag] at h
        cases h
        exact Tag.eq_toText htag
  · split at h
    · cases h
    · cases h
      rfl

/-- What is read as a selector is named by its text. -/
theorem TagSelector.named_of_parse
    {raw : String} {selector : TagSelector}
    (h : TagSelector.parse raw = .ok selector) :
    selector.Named := by
  unfold TagSelector.Named
  rw [← TagSelector.eq_toText h]
  exact h

/-- `try_from = "String", into = "String"`. -/
def pathCodec : Codec SecretPath :=
  Codec.string.via SecretPath.asStr (fun raw => (SecretPath.new raw).toOption)
    fun _ => toOption_eq_some.mpr (SecretPath.new_eq_ok_iff.mpr rfl)

theorem exact_pathCodec : pathCodec.Exact :=
  Codec.exact_string.via fun _ _ h => SecretPath.new_eq_ok_iff.mp (toOption_eq_some.mp h)

def tagCodec : Codec Tag :=
  Codec.string.via Tag.toText (fun raw => (Tag.parse raw).toOption)
    fun tag => toOption_eq_some.mpr tag.parse_toText

theorem exact_tagCodec : tagCodec.Exact :=
  Codec.exact_string.via fun _ _ h => Tag.eq_toText (toOption_eq_some.mp h)

/-- A selector as it is read. -/
abbrev NamedSelector := { selector : TagSelector // selector.Named }

def selectorCodec : Codec NamedSelector :=
  Codec.string.via (fun selector => selector.val.toText)
    (fun raw => (TagSelector.parse raw).toOption.pmap (fun selector h => ⟨selector, h⟩)
      fun _ h => TagSelector.named_of_parse (toOption_eq_some.mp h))
    fun selector => by
      have hparse := toOption_eq_some.mpr selector.property
      simp only [hparse, Option.pmap_some]

theorem exact_selectorCodec : selectorCodec.Exact :=
  Codec.exact_string.via fun raw selector h => by
    obtain ⟨named, hnamed, hparse, rfl⟩ := Option.pmap_eq_some_iff.mp h
    exact TagSelector.eq_toText (toOption_eq_some.mp hparse)

def u32Codec : Codec UInt32 :=
  (Codec.unsigned (2 ^ 32)).via (fun n => ⟨n.toNat, n.toNat_lt⟩)
    (fun n => some (UInt32.ofNat n)) fun n => by rw [UInt32.ofNat_toNat]

theorem exact_u32Codec : u32Codec.Exact :=
  (Codec.exact_unsigned _).via fun n m h => by
    cases h
    exact Fin.ext (UInt32.toNat_ofNat_of_lt' n.isLt).symm

def u64Codec : Codec UInt64 :=
  (Codec.unsigned (2 ^ 64)).via (fun n => ⟨n.toNat, n.toNat_lt⟩)
    (fun n => some (UInt64.ofNat n)) fun n => by rw [UInt64.ofNat_toNat]

theorem exact_u64Codec : u64Codec.Exact :=
  (Codec.exact_unsigned _).via fun n m h => by
    cases h
    exact Fin.ext (UInt64.toNat_ofNat_of_lt' n.isLt).symm

/-- `try_from = "u32", into = "u32"`. -/
def versionCodec : Codec Version :=
  u32Codec.via Version.get (fun n => (Version.new n).toOption)
    fun version => toOption_eq_some.mpr version.new_get

theorem exact_versionCodec : versionCodec.Exact :=
  exact_u32Codec.via fun _ _ h => Version.new_eq_ok.mp (toOption_eq_some.mp h)

/-- The state with a name. -/
def VersionState.named (name : String) : Option VersionState :=
  [VersionState.active, .deleted, .destroyed].find? fun state => decide (state.asStr = name)

/-- `rename_all = "lowercase"`; a unit variant may also be an object with its name and `null`. -/
def stateCodec : Codec VersionState where
  encode state := .string state.asStr
  decode
    | .string name => VersionState.named name
    | .object [(name, .null)] => VersionState.named name
    | _ => none
  decode_encode state := by
    cases state <;> decide

end Proto
end Secretbae
