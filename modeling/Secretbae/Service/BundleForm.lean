import Secretbae.Core.Bundle
import Secretbae.Lib.Slice
import Secretbae.Store.Relocation

/-!
# The bytes of a bundle

`open_bundle` slices the bytes it is given at fixed offsets.
`openBundleIndexed` is the function with those slices, where a slice that does
not fit is a panic; it computes what `openBundle` does.  Then a bundle opens
exactly where it is, byte for byte, one that was sealed under the passphrase.
-/

namespace Secretbae
namespace Service

open Lib Core

/-- `backup::open_bundle` with its slices; `none` is a panic. -/
def openBundleIndexed (P : Primitives) (argon2 : Bytes → Salt → Option Key32)
    (passphrase bundle : Bytes) : Option (Except Error Bytes) :=
  let malformed := .error (.malformed "backup bundle" (bundleHeaderLen + 1) bundle.length)
  -- the magic is compared only where the length is no reason to refuse
  if bundle.length ≤ bundleHeaderLen then some malformed
  else do
    let magic ← slice? bundle 0 6
    if magic ≠ bundleMagic then some malformed
    else do
      let low ← bundle[6]?
      let high ← bundle[7]?
      let formatVersion := ofLe [low, high]
      if formatVersion ≠ bundleFormatVersion then
        some (.error (.sealVersion formatVersion bundleFormatVersion))
      else do
        let saltBytes ← slice? bundle 8 (8 + 16)
        match fixed? 16 saltBytes with
        | none => some (.error (.malformed "backup salt" 16 bundle.length))
        | some salt =>
            match deriveFromPassphrase argon2 passphrase salt with
            | .error e => some (.error e)
            | .ok key => do
                let nonceBytes ← slice? bundle (8 + 16) bundleHeaderLen
                match Nonce.fromSlice nonceBytes with
                | .error e => some (.error e)
                | .ok nonce => do
                    let ciphertext ← slice? bundle bundleHeaderLen bundle.length
                    some (aeadOpen P key nonce (headerAad salt) ciphertext)

/-- No slice is out of range. -/
theorem openBundleIndexed_eq
    (P : Primitives) (argon2 : Bytes → Salt → Option Key32) (passphrase bundle : Bytes) :
    openBundleIndexed P argon2 passphrase bundle =
      some (openBundle P argon2 passphrase bundle) := by
  unfold openBundleIndexed openBundle
  by_cases hlen : bundle.length ≤ bundleHeaderLen
  · simp only [hlen, true_or, if_true]
  have hbound : 48 < bundle.length := by
    rw [bundleHeaderLen] at hlen
    omega
  obtain ⟨low, high, hlow, hhigh, hpair⟩ := exists_getElem?_pair bundle 6 (by omega)
  have hmagic : slice? bundle 0 6 = some (bundle.take 6) := slice?_of_le (by omega) (by omega)
  have hsalt : slice? bundle 8 (8 + 16) = some ((bundle.drop 8).take 16) :=
    slice?_of_le (by omega) (by omega)
  have hnonce : slice? bundle (8 + 16) bundleHeaderLen = some ((bundle.drop 24).take 24) :=
    slice?_of_le (by decide) (by rw [bundleHeaderLen]; omega)
  have hrest : slice? bundle bundleHeaderLen bundle.length = some (bundle.drop bundleHeaderLen) :=
    slice?_to_end (by rw [bundleHeaderLen]; omega)
  simp only [hlen, false_or, if_false, hmagic, hlow, hhigh, hsalt, hnonce, hrest, hpair,
    Option.bind_eq_bind, Option.bind_some]
  split
  · rfl
  split
  · rfl
  cases fixed? 16 ((bundle.drop 8).take 16) with
  | none => rfl
  | some salt =>
      dsimp only
      cases deriveFromPassphrase argon2 passphrase salt with
      | error e => rfl
      | ok key =>
          cases Nonce.fromSlice ((bundle.drop 24).take 24) <;> rfl

/-- One call of `backup::seal_bundle`. -/
structure BundleRequest where
  draws : BundleDraws
  passphrase : Bytes
  plaintext : Bytes

/-- What the call returns. -/
def BundleRequest.bundle (P : Primitives) (argon2 : Bytes → Salt → Option Key32)
    (r : BundleRequest) : Except Error Bytes :=
  sealBundle P argon2 r.draws r.passphrase r.plaintext

/-- The encryption that it makes, where it comes that far. -/
def BundleRequest.call (argon2 : Bytes → Salt → Option Key32) (r : BundleRequest) :
    Option Call :=
  if r.passphrase = [] then none
  else do
    let salt ← r.draws.salt
    let key ← argon2 r.passphrase salt
    let nonce ← r.draws.nonce
    some ⟨key, nonce, headerAad salt, r.plaintext⟩

/-- From these passphrases no key is derived in two ways. -/
def KdfInjectiveOn (argon2 : Bytes → Salt → Option Key32) (passphrases : List Bytes) : Prop :=
  ∀ p ∈ passphrases, ∀ q ∈ passphrases, ∀ salt salt' key,
    argon2 p salt = some key → argon2 q salt' = some key → p = q ∧ salt = salt'

section Form

variable {P : Primitives} {argon2 : Bytes → Salt → Option Key32}

theorem BundleRequest.call_eq_some_iff
    {r : BundleRequest} {call : Call} :
    r.call argon2 = some call ↔
      r.passphrase ≠ [] ∧ ∃ salt nonce key,
        r.draws.salt = some salt ∧ r.draws.nonce = some nonce ∧
        argon2 r.passphrase salt = some key ∧
        call = ⟨key, nonce, headerAad salt, r.plaintext⟩ := by
  unfold BundleRequest.call
  split
  · simp_all
  · rename_i hempty
    simp only [Option.bind_eq_bind, Option.bind_eq_some_iff, Option.some.injEq]
    constructor
    · rintro ⟨salt, hsalt, key, hkey, nonce, hnonce, rfl⟩
      exact ⟨hempty, salt, nonce, key, hsalt, hnonce, hkey, rfl⟩
    · rintro ⟨-, salt, nonce, key, hsalt, hnonce, hkey, rfl⟩
      exact ⟨salt, hsalt, key, hkey, nonce, hnonce, rfl⟩

/-- What opens under a passphrase was sealed under it. -/
theorem sealed_of_opened
    {requests : List BundleRequest} {passphrase bundle m : Bytes}
    (hP : AeadCorrect P)
    (hkdf : KdfInjectiveOn argon2 (passphrase :: requests.map BundleRequest.passphrase))
    (hideal : ∀ salt key, argon2 passphrase salt = some key →
      Authentic P key (requests.filterMap (BundleRequest.call argon2))
        (bundle.drop bundleHeaderLen))
    (h : openBundle P argon2 passphrase bundle = .ok m) :
    ∃ r ∈ requests, r.passphrase = passphrase ∧ r.plaintext = m ∧
      r.bundle P argon2 = .ok bundle := by
  obtain ⟨salt, key, nonce, c, rfl, -, hkey, hdecrypt⟩ := openBundle_eq_ok_iff.mp h
  have hrest : (headerAad salt ++ (nonce.toList ++ c)).drop bundleHeaderLen = c := by
    rw [← List.append_assoc]
    exact List.drop_left' (by simp [bundleHeaderLen])
  rw [hrest] at hideal
  obtain ⟨call, hcall, hk, hn, haad, hout⟩ := hideal salt key hkey nonce _ m hdecrypt
  obtain ⟨r, hr, hrcall⟩ := List.mem_filterMap.mp hcall
  obtain ⟨hempty, salt', nonce', key', hsalt', hnonce', hkey', rfl⟩ :=
    BundleRequest.call_eq_some_iff.mp hrcall
  -- the key gives the passphrase and the salt, the call the nonce and the ciphertext
  dsimp only at hk hn haad
  subst hk hn
  obtain ⟨hpass, rfl⟩ := hkdf r.passphrase (by simp only [List.mem_cons, List.mem_map]; grind)
    passphrase List.mem_cons_self salt' salt key' hkey' hkey
  have hplain : r.plaintext = m := by
    rw [← hout] at hdecrypt
    exact Option.some.inj ((hP.decrypt_encrypt _ _ _ _).symm.trans hdecrypt)
  refine ⟨r, hr, hpass, hplain, sealBundle_eq_ok_iff.mpr ⟨hempty, ?_⟩⟩
  exact ⟨salt', nonce', key', hsalt', hnonce', hkey', by rw [← hout]; rfl⟩

/--
Sealing under a non-empty passphrase gives a bundle that opens to the payload;
whatever bytes it is given, `open_bundle` does not panic, and it succeeds
exactly on the bundles that were sealed under the passphrase.
-/
theorem bundle_opens_only_as_sealed
    (hP : AeadCorrect P) (requests : List BundleRequest) (passphrase bundle : Bytes)
    (hkdf : KdfInjectiveOn argon2 (passphrase :: requests.map BundleRequest.passphrase))
    (hideal : ∀ salt key, argon2 passphrase salt = some key →
      Authentic P key (requests.filterMap (BundleRequest.call argon2))
        (bundle.drop bundleHeaderLen)) :
    (∀ plaintext salt nonce key, passphrase ≠ [] → argon2 passphrase salt = some key →
      ∃ fresh, sealBundle P argon2 ⟨some salt, some nonce⟩ passphrase plaintext = .ok fresh ∧
        openBundle P argon2 passphrase fresh = .ok plaintext) ∧
    openBundleIndexed P argon2 passphrase bundle = some (openBundle P argon2 passphrase bundle) ∧
    ∀ m, openBundle P argon2 passphrase bundle = .ok m ↔
      ∃ r ∈ requests, r.passphrase = passphrase ∧ r.plaintext = m ∧
        r.bundle P argon2 = .ok bundle := by
  refine ⟨?_, openBundleIndexed_eq P argon2 passphrase bundle, ?_⟩
  · intro plaintext salt nonce key hempty hkey
    have hseal : sealBundle P argon2 ⟨some salt, some nonce⟩ passphrase plaintext = .ok _ :=
      sealBundle_eq_ok_iff.mpr ⟨hempty, salt, nonce, key, rfl, rfl, hkey, rfl⟩
    exact ⟨_, hseal, openBundle_sealBundle hP hseal⟩
  · intro m
    constructor
    · exact sealed_of_opened hP hkdf hideal
    · rintro ⟨r, -, rfl, rfl, hseal⟩
      exact openBundle_sealBundle hP hseal

end Form

section Witnesses

/-- A derivation that spells out the passphrase and the salt. -/
def sampleArgon2 (passphrase : Bytes) (salt : Salt) : Option Key32 :=
  some ⟨leBytes 16 (mixBytes 0 passphrase) ++ salt.toList, by simp⟩

def sampleSalt (n : Nat) : Salt :=
  List.Vector.replicate 16 (UInt8.ofNat n)

/-- Two bundles under one passphrase. -/
def sampleRequests : List BundleRequest :=
  [⟨⟨some (sampleSalt 3), some (sampleNonce 4)⟩, [112, 119], [1, 2, 3]⟩,
    ⟨⟨some (sampleSalt 5), some (sampleNonce 6)⟩, [112, 119], [7, 8]⟩]

theorem sampleArgon2_injective
    {passphrases : List Bytes}
    (h : ∀ p ∈ passphrases, p = [112, 119]) :
    KdfInjectiveOn sampleArgon2 passphrases := by
  intro p hp q hq salt salt' key hkey hkey'
  have hvalue := congrArg List.Vector.toList (Option.some.inj (hkey.trans hkey'.symm))
  have hsalt := (List.append_inj hvalue (by simp)).2
  exact ⟨(h p hp).trans (h q hq).symm, List.Vector.toList_injective hsalt⟩

/-- Header and nonce of the first bundle with the ciphertext of the second. -/
def splicedBundle : Bytes :=
  headerAad (sampleSalt 3) ++ ((sampleNonce 4).toList ++
    (sampleRequests.filterMap fun r => (r.call sampleArgon2).map
      (Call.output Storage.openPrimitives)).getLastD [])

/-- The spliced bundle is none of the two, so it does not open. -/
theorem spliced_bundle_is_rejected :
    (openBundle Storage.openPrimitives sampleArgon2 [112, 119] splicedBundle).isOk = false := by
  have hform := bundle_opens_only_as_sealed Storage.openPrimitives_correct sampleRequests
    [112, 119] splicedBundle (sampleArgon2_injective (by simp [sampleRequests]))
    (fun salt key _ => authentic_of_committing
      (Storage.openPrimitives_committing [key] _)
      (Storage.unforged_of_output (by decide +kernel)) List.mem_cons_self)
  cases hopen : openBundle Storage.openPrimitives sampleArgon2 [112, 119] splicedBundle with
  | error e => rfl
  | ok m =>
      obtain ⟨r, hr, -, -, hbundle⟩ := (hform.2.2 m).mp hopen
      have hnone : ∀ r ∈ sampleRequests,
          (r.bundle Storage.openPrimitives sampleArgon2).toOption ≠ some splicedBundle := by
        decide +kernel
      exact absurd (by rw [hbundle]; rfl) (hnone r hr)

end Witnesses

end Service
end Secretbae
