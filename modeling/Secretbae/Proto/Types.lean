import Secretbae.Lib.Except
import Secretbae.Lib.Bytes

/-!
# Validated protocol types

Versions, version states, secret paths and tags of `sbae-proto`.  Each type
that the source validates at construction is a structure whose field states
what validation established, so a malformed value cannot be built.
-/

namespace Secretbae
namespace Proto

open Lib

inductive ProtoError where
  | invalidVersion
  | invalidVersionState
  | invalidPath (path reason : String)
  | invalidTag (what reason : String)
deriving DecidableEq

/-- A secret version number: a nonzero `u32`. -/
structure Version where
  get : UInt32
  ne_zero : get ≠ 0
deriving DecidableEq

/-- `Version::new`. -/
def Version.new (value : UInt32) : Except ProtoError Version :=
  if h : value ≠ 0 then .ok ⟨value, h⟩ else .error .invalidVersion

/-- The version number as a natural number. -/
def Version.toNat (v : Version) : Nat :=
  v.get.toNat

theorem Version.toNat_inj
    {v w : Version} :
    v.toNat = w.toNat ↔ v = w := by
  constructor
  · intro h
    obtain ⟨v, hv⟩ := v
    obtain ⟨w, hw⟩ := w
    have : v = w := UInt32.toNat_inj.mp h
    subst this
    rfl
  · rintro rfl
    rfl

theorem Version.toNat_pos
    (v : Version) :
    0 < v.toNat := by
  rcases Nat.eq_zero_or_pos v.toNat with h | h
  · have hzero : v.get.toNat = (0 : UInt32).toNat := h
    exact absurd (UInt32.toNat_inj.mp hzero) v.ne_zero
  · exact h

theorem Version.toNat_lt
    (v : Version) :
    v.toNat < 2 ^ 32 :=
  v.get.toNat_lt

@[simp] theorem Version.new_get
    (v : Version) :
    Version.new v.get = .ok v := by
  simp [Version.new, v.ne_zero]

theorem Version.new_eq_ok
    {value : UInt32} {v : Version} :
    Version.new value = .ok v ↔ value = v.get := by
  constructor
  · intro h
    unfold Version.new at h
    split at h
    · cases h
      rfl
    · cases h
  · rintro rfl
    exact Version.new_get v

/-- Lifecycle of a single version. -/
inductive VersionState where
  | active
  | deleted
  | destroyed
deriving DecidableEq

def VersionState.asStr : VersionState → String
  | .active => "active"
  | .deleted => "deleted"
  | .destroyed => "destroyed"

/-- Whether the plaintext can still be returned to a caller. -/
def VersionState.isReadable : VersionState → Bool
  | .active => true
  | _ => false

@[simp] theorem VersionState.isReadable_iff
    (s : VersionState) :
    s.isReadable = true ↔ s = .active := by
  cases s <;> simp [isReadable]

def maxSegments : Nat := 16
def maxSegmentLen : Nat := 64
def maxPathLen : Nat := 512

/-- `b'a'..=b'z' | b'0'..=b'9' | b'_' | b'-' | b'.'`. -/
def isNameByte (b : UInt8) : Bool :=
  (97 ≤ b && b ≤ 122) || (48 ≤ b && b ≤ 57) || b == 95 || b == 45 || b == 46

/-- The byte loop of `validate_segment`; the first offending byte decides. -/
def checkSegmentBytes : Bytes → Except String Unit
  | [] => .ok ()
  | b :: bs =>
      if isNameByte b then checkSegmentBytes bs
      else if 65 ≤ b && b ≤ 90 then
        .error "contains uppercase; paths are lowercase only"
      else .error "contains characters outside [a-z0-9._-] and '/'"

def validateSegment (segment : Bytes) : Except String Unit :=
  if segment = [] then
    .error "contains an empty segment (leading, trailing or doubled '/')"
  else if segment.length > maxSegmentLen then
    .error "contains a segment longer than 64 characters"
  else if segment = [46] ∨ segment = [46, 46] then
    .error "contains a '.' or '..' segment"
  else checkSegmentBytes segment

/-- The `/`-separated segments of a path, as bytes. -/
def pathSegments (raw : String) : List Bytes :=
  (utf8 raw).splitOn 47

/-- Validation of `SecretPath::new`, with the reason of a refusal. -/
def checkPath (raw : String) : Except String Unit :=
  if raw.utf8ByteSize = 0 ∨ raw.utf8ByteSize > maxPathLen then
    .error "must be between 1 and 512 characters"
  else if (pathSegments raw).length > maxSegments then
    .error "has more than 16 segments"
  else (pathSegments raw).forM validateSegment

/-- A validated secret path. -/
structure SecretPath where
  asStr : String
  valid : checkPath asStr = .ok ()
deriving DecidableEq

theorem SecretPath.asStr_inj
    {p q : SecretPath}
    (h : p.asStr = q.asStr) :
    p = q := by
  cases p
  cases q
  cases h
  rfl

/-- The first 64 characters, for error messages. -/
def truncateForError (raw : String) : String :=
  String.ofList (raw.toList.take 64)

/-- `SecretPath::new`. -/
def SecretPath.new (raw : String) : Except ProtoError SecretPath :=
  match h : checkPath raw with
  | .ok () => .ok ⟨raw, h⟩
  | .error reason => .error (.invalidPath (truncateForError raw) reason)

theorem SecretPath.utf8ByteSize_le
    (p : SecretPath) :
    p.asStr.utf8ByteSize ≤ maxPathLen := by
  have h := p.valid
  unfold checkPath at h
  split at h
  · cases h
  · omega

def maxTagPartLen : Nat := 64

/-- `validate_part` of a tag. -/
def validatePart (what part : String) : Except ProtoError Unit :=
  if part.utf8ByteSize = 0 then .error (.invalidTag what "must not be empty")
  else if part.utf8ByteSize > maxTagPartLen then
    .error (.invalidTag what "must be at most 64 characters")
  else if !(utf8 part).all isNameByte then
    .error (.invalidTag what "must contain only [a-z0-9._-]")
  else .ok ()

/-- A `key=value` label on a secret. -/
structure Tag where
  key : String
  value : String
  validKey : validatePart "key" key = .ok ()
  validValue : validatePart "value" value = .ok ()
deriving DecidableEq

/-- What `tag rm` names. -/
inductive TagSelector where
  | key (name : String)
  | exact (tag : Tag)
deriving DecidableEq

/-- `TagSelector::matches`. -/
def TagSelector.matches : TagSelector → Tag → Bool
  | .key name, tag => tag.key == name
  | .exact named, tag => named == tag

end Proto
end Secretbae
