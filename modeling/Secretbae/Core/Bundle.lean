import Secretbae.Core.Envelope
import Secretbae.Lib.Slice

/-!
# Backup bundles

`seal_bundle` and `open_bundle`: a payload encrypted under a key that Argon2id
derives from a passphrase, behind a header of magic, format version, salt and
nonce.  Argon2id comes from another crate and is an argument; `none` is a
derivation that it refuses.
-/

namespace Secretbae
namespace Core

open Lib

/-- A salt of Argon2id. -/
abbrev Salt := List.Vector UInt8 16

def bundleMagic : Bytes := [83, 66, 65, 69, 66, 75]

def bundleFormatVersion : Nat := 1

/-- Magic, format version, salt and nonce. -/
def bundleHeaderLen : Nat := 6 + 2 + 16 + 24

/-- What `seal_bundle` draws from the entropy source. -/
structure BundleDraws where
  salt : Option Salt
  nonce : Option Nonce

/-- `kdf::generate_salt`. -/
def generateSalt (draw : Option Salt) : Except Error Salt :=
  match draw with
  | some salt => .ok salt
  | none => .error .entropy

/-- `kdf::derive_from_passphrase`. -/
def deriveFromPassphrase (argon2 : Bytes → Salt → Option Key32) (passphrase : Bytes)
    (salt : Salt) : Except Error Key32 :=
  match argon2 passphrase salt with
  | some key => .ok key
  | none => .error .kdf

/-- Binds the ciphertext to the header. -/
def headerAad (salt : Salt) : Bytes :=
  bundleMagic ++ leBytes 2 bundleFormatVersion ++ salt.toList

/-- `backup::seal_bundle`. -/
def sealBundle (P : Primitives) (argon2 : Bytes → Salt → Option Key32) (draws : BundleDraws)
    (passphrase plaintext : Bytes) : Except Error Bytes :=
  if passphrase = [] then .error .kdf
  else do
    let salt ← generateSalt draws.salt
    let key ← deriveFromPassphrase argon2 passphrase salt
    let (nonce, ciphertext) ← aeadSeal P draws.nonce key (headerAad salt) plaintext
    .ok (headerAad salt ++ (nonce.toList ++ ciphertext))

/-- `backup::open_bundle`. -/
def openBundle (P : Primitives) (argon2 : Bytes → Salt → Option Key32)
    (passphrase bundle : Bytes) : Except Error Bytes :=
  if bundle.length ≤ bundleHeaderLen ∨ bundle.take 6 ≠ bundleMagic then
    .error (.malformed "backup bundle" (bundleHeaderLen + 1) bundle.length)
  else
    let formatVersion := ofLe ((bundle.drop 6).take 2)
    if formatVersion ≠ bundleFormatVersion then
      .error (.sealVersion formatVersion bundleFormatVersion)
    else
      match fixed? 16 ((bundle.drop 8).take 16) with
      | none => .error (.malformed "backup salt" 16 bundle.length)
      | some salt => do
          let key ← deriveFromPassphrase argon2 passphrase salt
          let nonce ← Nonce.fromSlice ((bundle.drop 24).take 24)
          aeadOpen P key nonce (headerAad salt) (bundle.drop bundleHeaderLen)

section Format

variable {P : Primitives} {argon2 : Bytes → Salt → Option Key32}

@[simp] theorem headerAad_length
    (salt : Salt) :
    (headerAad salt).length = 24 := by
  simp [headerAad, bundleMagic]

theorem deriveFromPassphrase_eq_ok
    {passphrase : Bytes} {salt : Salt} {key : Key32} :
    deriveFromPassphrase argon2 passphrase salt = .ok key ↔
      argon2 passphrase salt = some key := by
  unfold deriveFromPassphrase
  cases argon2 passphrase salt <;> simp

/-- What `seal_bundle` writes. -/
theorem sealBundle_eq_ok_iff
    {draws : BundleDraws} {passphrase plaintext bundle : Bytes} :
    sealBundle P argon2 draws passphrase plaintext = .ok bundle ↔
      passphrase ≠ [] ∧ ∃ salt nonce key,
        draws.salt = some salt ∧ draws.nonce = some nonce ∧
        argon2 passphrase salt = some key ∧
        bundle = headerAad salt ++
          (nonce.toList ++ P.encrypt key nonce (headerAad salt) plaintext) := by
  by_cases hempty : passphrase = []
  · simp [sealBundle, hempty]
  rw [sealBundle, if_neg hempty]
  constructor
  · intro h
    obtain ⟨salt, hsalt, h⟩ := bind_eq_ok.mp h
    obtain ⟨key, hkey, h⟩ := bind_eq_ok.mp h
    obtain ⟨r, hr, h⟩ := bind_eq_ok.mp h
    obtain ⟨nonce, hnonce, rfl⟩ := aeadSeal_eq_ok.mp hr
    have hdraw : draws.salt = some salt := by
      cases hd : draws.salt <;> simp_all [generateSalt]
    cases h
    exact ⟨hempty, salt, nonce, key, hdraw, hnonce, deriveFromPassphrase_eq_ok.mp hkey, rfl⟩
  · rintro ⟨-, salt, nonce, key, hsalt, hnonce, hkey, rfl⟩
    refine bind_eq_ok.mpr ⟨salt, by rw [hsalt]; rfl, ?_⟩
    refine bind_eq_ok.mpr ⟨key, deriveFromPassphrase_eq_ok.mpr hkey, ?_⟩
    exact bind_eq_ok.mpr ⟨_, aeadSeal_eq_ok.mpr ⟨nonce, hnonce, rfl⟩, rfl⟩

/-- The fields of the header stand where they are read. -/
theorem openBundle_append
    (passphrase : Bytes) (salt : Salt) (nonce : Nonce) {c : Bytes}
    (hne : c ≠ []) :
    openBundle P argon2 passphrase (headerAad salt ++ (nonce.toList ++ c)) =
      (deriveFromPassphrase argon2 passphrase salt).bind fun key =>
        aeadOpen P key nonce (headerAad salt) c := by
  have hpos : 0 < c.length := List.length_pos_iff.mpr hne
  have hnonce : nonce.toList.length = 24 := nonce.toList_length
  have hmagic : (headerAad salt ++ (nonce.toList ++ c)).take 6 = bundleMagic := by
    simp only [headerAad, List.append_assoc]
    exact List.take_left' rfl
  have hversion :
      ((headerAad salt ++ (nonce.toList ++ c)).drop 6).take 2 =
        leBytes 2 bundleFormatVersion := by
    simp only [headerAad, List.append_assoc]
    rw [List.drop_left' (show bundleMagic.length = 6 from rfl)]
    exact List.take_left' (leBytes_length 2 _)
  have hsaltField :
      ((headerAad salt ++ (nonce.toList ++ c)).drop 8).take 16 = salt.toList := by
    simp only [headerAad, List.append_assoc]
    rw [← List.append_assoc, List.drop_left' (by simp [bundleMagic])]
    exact List.take_left' salt.toList_length
  have hnonceField :
      ((headerAad salt ++ (nonce.toList ++ c)).drop 24).take 24 = nonce.toList := by
    rw [List.drop_left' (headerAad_length salt)]
    exact List.take_left' hnonce
  have hrest :
      (headerAad salt ++ (nonce.toList ++ c)).drop bundleHeaderLen = c := by
    rw [← List.append_assoc]
    exact List.drop_left' (by simp [bundleHeaderLen])
  have hlen : bundleHeaderLen < (headerAad salt ++ (nonce.toList ++ c)).length := by
    simp only [List.length_append, headerAad_length, hnonce, bundleHeaderLen]
    omega
  unfold openBundle
  rw [if_neg (by rw [hmagic]; simp only [not_or, not_le, ne_eq, not_true_eq_false,
    not_false_eq_true, and_true]; exact hlen)]
  dsimp only
  rw [hversion, if_neg (by decide), hsaltField, fixed?_toList]
  simp only [hnonceField, hrest, Nonce.fromSlice_toList]
  rfl

/-- A bundle that is opened is a header, a nonce and a ciphertext that decrypts. -/
theorem openBundle_eq_ok_iff
    {passphrase bundle m : Bytes} :
    openBundle P argon2 passphrase bundle = .ok m ↔
      ∃ salt key nonce c, bundle = headerAad salt ++ (nonce.toList ++ c) ∧ c ≠ [] ∧
        argon2 passphrase salt = some key ∧ P.decrypt key nonce (headerAad salt) c = some m := by
  constructor
  · intro h
    unfold openBundle at h
    split at h
    · cases h
    rename_i hguard
    rw [not_or, not_le, not_not, bundleHeaderLen] at hguard
    obtain ⟨hlen, hmagic⟩ := hguard
    dsimp only at h
    split at h
    · cases h
    rename_i hversion
    rw [not_not] at hversion
    split at h
    · cases h
    rename_i salt hsalt
    obtain ⟨key, hkey, h⟩ := bind_eq_ok.mp h
    obtain ⟨nonce, hnonce, h⟩ := bind_eq_ok.mp h
    refine ⟨salt, key, nonce, bundle.drop bundleHeaderLen, ?_, ?_,
      deriveFromPassphrase_eq_ok.mp hkey, aeadOpen_eq_ok.mp h⟩
    · -- field by field, from the front
      have hversionField := take_eq_leBytes_of_ofLe (by omega) hversion
      have hsaltField := fixed?_eq_some_iff.mp hsalt
      have hnonceField := Nonce.fromSlice_eq_ok_iff.mp hnonce
      calc bundle
          = bundleMagic ++ bundle.drop 6 := drop_eq_append_of_take (i := 0) hmagic
        _ = bundleMagic ++ (leBytes 2 bundleFormatVersion ++ bundle.drop 8) := by
            rw [drop_eq_append_of_take hversionField]
        _ = bundleMagic ++ (leBytes 2 bundleFormatVersion ++ (salt.toList ++
              bundle.drop 24)) := by
            rw [drop_eq_append_of_take hsaltField]
        _ = bundleMagic ++ (leBytes 2 bundleFormatVersion ++ (salt.toList ++
              (nonce.toList ++ bundle.drop 48))) := by
            rw [drop_eq_append_of_take hnonceField]
        _ = headerAad salt ++ (nonce.toList ++ bundle.drop bundleHeaderLen) := by
            simp only [headerAad, List.append_assoc, bundleHeaderLen]
    · exact List.ne_nil_of_length_pos (by rw [List.length_drop, bundleHeaderLen]; omega)
  · rintro ⟨salt, key, nonce, c, rfl, hne, hkey, hdecrypt⟩
    rw [openBundle_append passphrase salt nonce hne]
    exact bind_eq_ok.mpr ⟨key, deriveFromPassphrase_eq_ok.mpr hkey, aeadOpen_eq_ok.mpr hdecrypt⟩

end Format

/-- A sealed bundle opens with its passphrase to what was sealed. -/
theorem openBundle_sealBundle
    {P : Primitives} {argon2 : Bytes → Salt → Option Key32} {draws : BundleDraws}
    {passphrase plaintext bundle : Bytes}
    (hP : AeadCorrect P)
    (h : sealBundle P argon2 draws passphrase plaintext = .ok bundle) :
    openBundle P argon2 passphrase bundle = .ok plaintext := by
  obtain ⟨-, salt, nonce, key, -, -, hkey, rfl⟩ := sealBundle_eq_ok_iff.mp h
  exact openBundle_eq_ok_iff.mpr ⟨salt, key, nonce, _, rfl, hP.encrypt_ne_nil _ _ _ _, hkey,
    hP.decrypt_encrypt _ _ _ _⟩

end Core
end Secretbae
