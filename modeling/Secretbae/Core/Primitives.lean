import Secretbae.Lib.Bytes

/-!
# Keys and cryptographic primitives

The key hierarchy of `sbae-core` rests on four primitives that come from other
crates: XChaCha20-Poly1305, keyed BLAKE3, HKDF-SHA256 and the operating
system's random number generator.  The first three are fields of `Primitives`;
what a result relies on is a named hypothesis about them (`AeadCorrect`,
`MacCollisionFreeOn`).  Random values are arguments of the functions that draw
them, and `none` is a failing entropy source.
-/

namespace Secretbae
namespace Core

open Lib

/-- A 32-byte symmetric key. -/
abbrev Key32 := List.Vector UInt8 32

/-- Length of an XChaCha20-Poly1305 nonce. -/
def nonceLen : Nat := 24

/-- A 24-byte XChaCha20-Poly1305 nonce. -/
abbrev Nonce := List.Vector UInt8 24

/-- A 32-byte BLAKE3 output. -/
abbrev Digest := List.Vector UInt8 32

/-- A secret's immutable id. -/
abbrev Uuid := List.Vector UInt8 16

/-- Root of the key hierarchy. -/
structure MasterKey where
  raw : Key32
deriving DecidableEq

/-- Per-version key. -/
structure DataKey where
  raw : Key32
deriving DecidableEq

/-- Key-encryption key of a seal backend. -/
structure WrapKey where
  raw : Key32
deriving DecidableEq

/-- Failures of the cryptographic core. -/
inductive Error where
  | decrypt
  | entropy
  | kdf
  | malformed (what : String) (expected found : Nat)
  | unsupportedSeal (message : String)
  | sealVersion (found supported : Nat)
deriving DecidableEq

/-- The primitives that other crates supply. -/
structure Primitives where
  /-- XChaCha20-Poly1305 encryption: key, nonce, associated data, plaintext. -/
  encrypt : Key32 → Nonce → Bytes → Bytes → Bytes
  /-- XChaCha20-Poly1305 decryption: key, nonce, associated data, ciphertext. -/
  decrypt : Key32 → Nonce → Bytes → Bytes → Option Bytes
  /-- Keyed BLAKE3. -/
  keyedHash : Key32 → Bytes → Digest
  /-- HKDF-SHA256 with a 32-byte output, which is never too long to expand to. -/
  hkdf : Bytes → Bytes → Key32

/-- Decryption undoes encryption, and a ciphertext carries at least its tag. -/
structure AeadCorrect (P : Primitives) : Prop where
  decrypt_encrypt :
    ∀ (k : Key32) (n : Nonce) (aad m : Bytes),
      P.decrypt k n aad (P.encrypt k n aad m) = some m
  encrypt_ne_nil :
    ∀ (k : Key32) (n : Nonce) (aad m : Bytes),
      P.encrypt k n aad m ≠ []

/-- No two different messages of `ms` have the same MAC under `k`. -/
def MacCollisionFreeOn (P : Primitives) (k : Key32) (ms : List Bytes) : Prop :=
  ∀ m ∈ ms, ∀ m' ∈ ms, P.keyedHash k m = P.keyedHash k m' → m = m'

/-- `Nonce::from_slice`. -/
def Nonce.fromSlice (bytes : Bytes) : Except Error Nonce :=
  match fixed? 24 bytes with
  | some n => .ok n
  | none => .error (.malformed "nonce" nonceLen bytes.length)

@[simp] theorem Nonce.fromSlice_toList
    (n : Nonce) :
    Nonce.fromSlice n.toList = .ok n := by
  simp [Nonce.fromSlice]

theorem Nonce.fromSlice_eq_ok_iff
    {bytes : Bytes} {n : Nonce} :
    Nonce.fromSlice bytes = .ok n ↔ bytes = n.toList := by
  rw [← fixed?_eq_some_iff]
  unfold Nonce.fromSlice
  cases fixed? 24 bytes <;> simp

/-- `aead::seal`: a fresh nonce and the ciphertext bound to `aad`. -/
def aeadSeal (P : Primitives) (draw : Option Nonce) (key : Key32)
    (aad plaintext : Bytes) : Except Error (Nonce × Bytes) :=
  match draw with
  | none => .error .entropy
  | some nonce => .ok (nonce, P.encrypt key nonce aad plaintext)

/-- `aead::open`. -/
def aeadOpen (P : Primitives) (key : Key32) (nonce : Nonce)
    (aad ciphertext : Bytes) : Except Error Bytes :=
  match P.decrypt key nonce aad ciphertext with
  | some plaintext => .ok plaintext
  | none => .error .decrypt

theorem aeadOpen_encrypt
    {P : Primitives}
    (hP : AeadCorrect P)
    (key : Key32) (nonce : Nonce) (aad plaintext : Bytes) :
    aeadOpen P key nonce aad (P.encrypt key nonce aad plaintext) =
      .ok plaintext := by
  simp [aeadOpen, hP.decrypt_encrypt]

theorem aeadOpen_eq_ok
    {P : Primitives} {key : Key32} {nonce : Nonce} {aad ciphertext m : Bytes} :
    aeadOpen P key nonce aad ciphertext = .ok m ↔
      P.decrypt key nonce aad ciphertext = some m := by
  unfold aeadOpen
  cases P.decrypt key nonce aad ciphertext <;> simp

/-- `Key32::generate` from one draw of the entropy source. -/
def Key32.generate (draw : Option Key32) : Except Error Key32 :=
  match draw with
  | none => .error .entropy
  | some key => .ok key

/-- `kdf::derive`. -/
def derive (P : Primitives) (inputMaterial info : Bytes) : Key32 :=
  P.hkdf inputMaterial info

/-- HKDF domain separator of the audit log's MAC key. -/
def auditKeyInfo : Bytes := utf8 "secretbae/audit/v1"

/-- `MasterKey::audit_key`. -/
def MasterKey.auditKey (P : Primitives) (master : MasterKey) : Key32 :=
  derive P master.raw.toList auditKeyInfo

/-- Read 32 bytes of key material back as a key. -/
def key32OfBytes (what : String) (material : Bytes) : Except Error Key32 :=
  match fixed? 32 material with
  | some key => .ok key
  | none => .error (.malformed what 32 material.length)

@[simp] theorem key32OfBytes_toList
    (what : String) (key : Key32) :
    key32OfBytes what key.toList = .ok key := by
  simp [key32OfBytes]

/-- Fold bytes into a number, starting from `seed`. -/
def mixBytes (seed : Nat) (bs : Bytes) : Nat :=
  bs.foldl (fun acc b => acc * 257 + b.toNat + 1) seed

def mixDigest (seed : Nat) (bs : Bytes) : List.Vector UInt8 32 :=
  ⟨leBytes 32 (mixBytes seed bs), leBytes_length 32 _⟩

/--
A small instance of the primitives that evaluates, for concrete runs: every
output depends on all of its inputs, and a ciphertext is a tag and the plaintext.
-/
def samplePrimitives : Primitives where
  encrypt k n aad m := (mixDigest (ofLe k.toList) (n.toList ++ (aad ++ m))).toList ++ m
  decrypt k n aad c :=
    let m := c.drop 32
    if c.take 32 = (mixDigest (ofLe k.toList) (n.toList ++ (aad ++ m))).toList then
      some m
    else none
  keyedHash k m := mixDigest (ofLe k.toList) m
  hkdf ikm info := mixDigest (ofLe ikm) info

theorem samplePrimitives_correct :
    AeadCorrect samplePrimitives where
  decrypt_encrypt := by
    intro k n aad m
    have hlen :
        (mixDigest (ofLe k.toList) (n.toList ++ (aad ++ m))).toList.length = 32 := by
      simp
    simp only [samplePrimitives, List.take_left' hlen, List.drop_left' hlen, if_true]
  encrypt_ne_nil := by
    intro k n aad m h
    have hlen := congrArg List.length h
    simp [samplePrimitives] at hlen

/-- A key for concrete runs. -/
def sampleKey (n : Nat) : Key32 :=
  ⟨leBytes 32 n, leBytes_length 32 n⟩

def sampleNonce (n : Nat) : Nonce :=
  ⟨leBytes 24 n, leBytes_length 24 n⟩

def sampleUuid (n : Nat) : Uuid :=
  ⟨leBytes 16 n, leBytes_length 16 n⟩

end Core
end Secretbae
