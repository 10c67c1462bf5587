import Secretbae.Core.Primitives
import Secretbae.Lib.Except

/-!
# Envelope encryption of one secret version

A version is encrypted under a fresh data key, and the data key is wrapped by
the master key.  Rotation rewraps the data key and never touches the payload.
The two facts the rest of the development uses are

* `SealedVersion.open_seal`: a sealed version opens in its own slot;
* `SealedVersion.open_rewrap`: rewrapping moves a version that opens under the
  old master key to one that opens under the new one, to the same plaintext.
-/

namespace Secretbae
namespace Core

open Lib

/-- The slot a ciphertext belongs to. -/
structure VersionBinding where
  secretId : Uuid
  version : UInt32
deriving DecidableEq

/-- `VersionBinding::payload_aad`. -/
def VersionBinding.payloadAad (b : VersionBinding) : Bytes :=
  b.secretId.toList ++ leBytes 4 b.version.toNat

/-- `VersionBinding::wrap_aad`: the wrap is also bound to the generation. -/
def VersionBinding.wrapAad (b : VersionBinding) (mkGeneration : UInt32) : Bytes :=
  b.payloadAad ++ leBytes 4 mkGeneration.toNat

/-- The wrapped data key, separated from the payload it opens. -/
structure WrappedKey where
  wrappedDek : Bytes
  dekNonce : Nonce
  mkGeneration : UInt32
deriving DecidableEq

/-- `WrappedKey::open`. -/
def WrappedKey.openKey (P : Primitives) (w : WrappedKey) (master : MasterKey)
    (binding : VersionBinding) : Except Error DataKey := do
  let material ←
    aeadOpen P master.raw w.dekNonce (binding.wrapAad w.mkGeneration) w.wrappedDek
  let bytes ← key32OfBytes "wrapped data key" material
  .ok ⟨bytes⟩

/-- `WrappedKey::rewrap`: move the key from one master key to another. -/
def WrappedKey.rewrap (P : Primitives) (draw : Option Nonce) (w : WrappedKey)
    (old new : MasterKey) (newGeneration : UInt32) (binding : VersionBinding) :
    Except Error WrappedKey := do
  let dek ← w.openKey P old binding
  let (dekNonce, wrappedDek) ←
    aeadSeal P draw new.raw (binding.wrapAad newGeneration) dek.raw.toList
  .ok { wrappedDek, dekNonce, mkGeneration := newGeneration }

/-- A secret version at rest. -/
structure SealedVersion where
  ciphertext : Bytes
  nonce : Nonce
  key : WrappedKey
deriving DecidableEq

/-- What `SealedVersion::seal` draws from the entropy source. -/
structure SealDraws where
  dek : Option Key32
  nonce : Option Nonce
  dekNonce : Option Nonce

/-- `SealedVersion::seal`: encrypt under a fresh data key wrapped by `master`. -/
def SealedVersion.seal (P : Primitives) (draws : SealDraws) (master : MasterKey)
    (mkGeneration : UInt32) (binding : VersionBinding) (plaintext : Bytes) :
    Except Error SealedVersion := do
  let dek ← Key32.generate draws.dek
  let (nonce, ciphertext) ←
    aeadSeal P draws.nonce dek binding.payloadAad plaintext
  let (dekNonce, wrappedDek) ←
    aeadSeal P draws.dekNonce master.raw (binding.wrapAad mkGeneration) dek.toList
  .ok { ciphertext, nonce, key := { wrappedDek, dekNonce, mkGeneration } }

/-- `SealedVersion::open`. -/
def SealedVersion.openAt (P : Primitives) (s : SealedVersion) (master : MasterKey)
    (binding : VersionBinding) : Except Error Bytes := do
  let dek ← s.key.openKey P master binding
  aeadOpen P dek.raw s.nonce binding.payloadAad s.ciphertext

theorem aeadSeal_eq_ok
    {P : Primitives} {draw : Option Nonce} {key : Key32}
    {aad m : Bytes} {r : Nonce × Bytes} :
    aeadSeal P draw key aad m = .ok r ↔
      ∃ n, draw = some n ∧ r = (n, P.encrypt key n aad m) := by
  cases draw with
  | none =>
      simp [aeadSeal]
  | some n =>
      simp [aeadSeal, eq_comm]

/-- The entropy source gave all that a seal draws. -/
def SealDraws.Complete (draws : SealDraws) : Prop :=
  draws.dek.isSome ∧ draws.nonce.isSome ∧ draws.dekNonce.isSome

/-- A seal fails only for want of entropy. -/
theorem SealedVersion.seal_isOk_iff
    {P : Primitives} {draws : SealDraws} {master : MasterKey} {g : UInt32}
    {binding : VersionBinding} {plaintext : Bytes} :
    (∃ s, SealedVersion.seal P draws master g binding plaintext = .ok s) ↔
      draws.Complete := by
  obtain ⟨dek, nonce, dekNonce⟩ := draws
  unfold SealDraws.Complete
  cases dek <;> cases nonce <;> cases dekNonce <;>
    simp [SealedVersion.seal, Key32.generate, aeadSeal, bind, Except.bind]

section Correct

variable {P : Primitives} (hP : AeadCorrect P)
include hP

/-- A data key wrapped under a master key opens under it in the same slot. -/
theorem WrappedKey.openKey_encrypt
    (master : MasterKey) (binding : VersionBinding)
    (n : Nonce) (g : UInt32) (dek : Key32) :
    WrappedKey.openKey P
        { wrappedDek := P.encrypt master.raw n (binding.wrapAad g) dek.toList
          dekNonce := n
          mkGeneration := g }
        master binding = .ok ⟨dek⟩ := by
  simp [WrappedKey.openKey, aeadOpen_encrypt hP, bind, Except.bind]

/-- A sealed version opens in its own slot to what was sealed. -/
theorem SealedVersion.open_seal
    {draws : SealDraws} {master : MasterKey} {g : UInt32}
    {binding : VersionBinding} {plaintext : Bytes} {s : SealedVersion}
    (h : SealedVersion.seal P draws master g binding plaintext = .ok s) :
    s.openAt P master binding = .ok plaintext := by
  obtain ⟨dek, _, h⟩ := bind_eq_ok.mp h
  obtain ⟨r, hr, h⟩ := bind_eq_ok.mp h
  obtain ⟨w, hw, h⟩ := bind_eq_ok.mp h
  obtain ⟨n, _, rfl⟩ := aeadSeal_eq_ok.mp hr
  obtain ⟨dn, _, rfl⟩ := aeadSeal_eq_ok.mp hw
  cases h
  simp only [SealedVersion.openAt, WrappedKey.openKey_encrypt hP]
  exact aeadOpen_encrypt hP _ _ _ _

/-- A rewrapped data key is the same data key. -/
theorem WrappedKey.openKey_rewrap
    {draw : Option Nonce} {w w' : WrappedKey} {old new : MasterKey}
    {g : UInt32} {binding : VersionBinding}
    (h : w.rewrap P draw old new g binding = .ok w') :
    w'.openKey P new binding = w.openKey P old binding := by
  obtain ⟨dek, hdek, h⟩ := bind_eq_ok.mp h
  obtain ⟨r, hr, h⟩ := bind_eq_ok.mp h
  obtain ⟨n, _, rfl⟩ := aeadSeal_eq_ok.mp hr
  cases h
  rw [WrappedKey.openKey_encrypt hP, hdek]

/-- Rewrapping preserves what a version opens to. -/
theorem SealedVersion.open_rewrap
    {draw : Option Nonce} {s : SealedVersion} {w' : WrappedKey}
    {old new : MasterKey} {g : UInt32} {binding : VersionBinding}
    (h : s.key.rewrap P draw old new g binding = .ok w') :
    SealedVersion.openAt P { s with key := w' } new binding =
      s.openAt P old binding := by
  simp only [SealedVersion.openAt, WrappedKey.openKey_rewrap hP h]

end Correct

/-- With entropy available, a key that opens under `old` can be rewrapped. -/
theorem WrappedKey.rewrap_ok
    {P : Primitives} {n : Nonce} {w : WrappedKey} {old new : MasterKey}
    {g : UInt32} {binding : VersionBinding} {dek : DataKey}
    (h : w.openKey P old binding = .ok dek) :
    ∃ w', w.rewrap P (some n) old new g binding = .ok w' := by
  simp only [WrappedKey.rewrap, h]
  exact ⟨_, rfl⟩

/-- A version that opens has a data key that opens. -/
theorem SealedVersion.openKey_of_open
    {P : Primitives} {s : SealedVersion} {master : MasterKey}
    {binding : VersionBinding} {m : Bytes}
    (h : s.openAt P master binding = .ok m) :
    ∃ dek, s.key.openKey P master binding = .ok dek := by
  obtain ⟨dek, hdek, _⟩ := bind_eq_ok.mp h
  exact ⟨dek, hdek⟩

end Core
end Secretbae
