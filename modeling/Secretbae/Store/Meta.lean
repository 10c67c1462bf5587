import Secretbae.Core.Seal
import Secretbae.Lib.Slice
import Secretbae.Store.Relocation

/-!
# The sealed master key in the `meta` table

`SealedMasterKey::from_bytes` with the slices it takes, the column that the
bytes are stored in, and what a restart makes of bytes that somebody else has
put there.
-/

namespace Secretbae
namespace Storage

open Lib Core

/-- `SealedMasterKey::from_bytes` with its slices; `none` is a panic. -/
def fromBytesIndexed (bytes : Bytes) : Option (Except Error SealedMasterKey) :=
  let malformed := .error (.malformed "sealed master key" (sealHeaderLen + 1) bytes.length)
  if bytes.length ≤ sealHeaderLen then some malformed
  else do
    let magic ← slice? bytes 0 6
    if magic ≠ sealMagic then some malformed
    else do
      let low ← bytes[6]?
      let high ← bytes[7]?
      let formatVersion := ofLe [low, high]
      if formatVersion ≠ sealFormatVersion then
        some (.error (.sealVersion formatVersion sealFormatVersion))
      else do
        let kindByte ← bytes[8]?
        match SealKind.fromU8 kindByte with
        | .error e => some (.error e)
        | .ok kind => do
            let field ← slice? bytes 9 13
            -- `expect("4 bytes")`
            let generationBytes ← fixed? 4 field
            let nonceBytes ← slice? bytes 13 sealHeaderLen
            match Nonce.fromSlice nonceBytes with
            | .error e => some (.error e)
            | .ok nonce => do
                let ciphertext ← slice? bytes sealHeaderLen bytes.length
                some (.ok
                  { kind
                    generation := UInt32.ofNat (ofLe generationBytes.toList)
                    nonce
                    ciphertext })

/-- No slice is out of range, and the field of the generation has four bytes. -/
theorem fromBytesIndexed_eq
    (bytes : Bytes) :
    fromBytesIndexed bytes = some (SealedMasterKey.fromBytes bytes) := by
  unfold fromBytesIndexed SealedMasterKey.fromBytes
  by_cases hlen : bytes.length ≤ sealHeaderLen
  · simp only [hlen, true_or, if_true]
  have hbound : 37 < bytes.length := not_le.mp hlen
  obtain ⟨low, high, hlow, hhigh, hpair⟩ := exists_getElem?_pair bytes 6 (by omega)
  have hmagic : slice? bytes 0 6 = some (bytes.take 6) := slice?_of_le (by omega) (by omega)
  have hkind : bytes[8]? = some (bytes.getD 8 0) := by
    rw [List.getD_eq_getElem?_getD, List.getElem?_eq_getElem (by omega)]
    rfl
  have hfield : slice? bytes 9 13 = some ((bytes.drop 9).take 4) :=
    slice?_of_le (by omega) (by omega)
  have hfour : ((bytes.drop 9).take 4).length = 4 := by
    rw [List.length_take, List.length_drop]
    omega
  have hgeneration : fixed? 4 ((bytes.drop 9).take 4) = some ⟨(bytes.drop 9).take 4, hfour⟩ :=
    dif_pos hfour
  have hnonce : slice? bytes 13 sealHeaderLen = some ((bytes.drop 13).take 24) :=
    slice?_of_le (by decide) (by omega)
  have hrest : slice? bytes sealHeaderLen bytes.length = some (bytes.drop sealHeaderLen) :=
    slice?_to_end (by omega)
  simp only [hlen, false_or, if_false, hmagic, hlow, hhigh, hkind, hfield, hgeneration, hnonce,
    hrest, hpair, Option.bind_eq_bind, Option.bind_some]
  split
  · rfl
  split
  · rfl
  cases SealKind.fromU8 (bytes.getD 8 0) with
  | error e => rfl
  | ok kind => cases Nonce.fromSlice ((bytes.drop 13).take 24) <;> rfl

/-- One call of `seal_master` under a backend. -/
structure SealRequest where
  draw : Option Nonce
  master : MasterKey
  generation : UInt32

section Form

variable {P : Primitives} {backend : KeyfileSeal}

/-- What the call returns. -/
def SealRequest.sealed (P : Primitives) (backend : KeyfileSeal) (r : SealRequest) :
    Except Error SealedMasterKey :=
  sealMaster P r.draw backend r.master r.generation

/-- The encryption that it makes. -/
def SealRequest.call (P : Primitives) (backend : KeyfileSeal) (r : SealRequest) : Option Call :=
  r.draw.map fun nonce =>
    ⟨(backend.wrapKey P).raw, nonce, sealAad backend.kind r.generation, r.master.raw.toList⟩

/-- What is written to the table is what is read from it. -/
theorem readSealedMasterKey_put
    (st : Store) {s : SealedMasterKey}
    (hne : s.ciphertext ≠ []) :
    (st.putSealedMasterKey s.toBytes).readSealedMasterKey = .ok (some s) := by
  simp only [Store.readSealedMasterKey, Store.putSealedMasterKey,
    SealedMasterKey.fromBytes_toBytes s hne]

/-- Bytes that unseal under a backend were sealed under it, field by field. -/
theorem sealed_of_unsealed
    {requests : List SealRequest} {s : SealedMasterKey} {master : MasterKey}
    (hideal : Authentic P (backend.wrapKey P).raw
      (requests.filterMap (SealRequest.call P backend)) s.ciphertext)
    (h : unsealMaster P backend s = .ok master) :
    ∃ r ∈ requests, r.sealed P backend = .ok s := by
  unfold unsealMaster at h
  split at h
  · cases h
  rename_i hkind
  obtain ⟨material, hopen, -⟩ := bind_eq_ok.mp h
  obtain ⟨call, hcall, -, hnonce, haad, hout⟩ := hideal _ _ _ (aeadOpen_eq_ok.mp hopen)
  obtain ⟨r, hr, hrcall⟩ := List.mem_filterMap.mp hcall
  obtain ⟨nonce, hdraw, rfl⟩ := Option.map_eq_some_iff.mp hrcall
  -- kind and generation are in the associated data, the rest in the call
  obtain ⟨hk, hg⟩ := sealAad_inj haad
  refine ⟨r, hr, sealMaster_eq_ok_iff.mpr ⟨nonce, hdraw, ?_⟩⟩
  cases s
  dsimp only at hk hg hnonce hout
  subst hk hg hnonce hout
  rfl

/--
The accepted byte strings are those that are written, decoding does not panic,
a restart recovers the key and the generation that were sealed, and what
decodes to anything but a key sealed under the backend does not unseal.
-/
theorem sealed_master_key_format
    (hP : AeadCorrect P) (backend : KeyfileSeal) (requests : List SealRequest) (bytes : Bytes)
    (hideal : ∀ s, SealedMasterKey.fromBytes bytes = .ok s →
      Authentic P (backend.wrapKey P).raw (requests.filterMap (SealRequest.call P backend))
        s.ciphertext) :
    (∀ s : SealedMasterKey, s.ciphertext ≠ [] → SealedMasterKey.fromBytes s.toBytes = .ok s) ∧
    (∀ s, SealedMasterKey.fromBytes bytes = .ok s → s.toBytes = bytes) ∧
    fromBytesIndexed bytes = some (SealedMasterKey.fromBytes bytes) ∧
    (∀ nonce master generation, ∃ s,
      sealMaster P (some nonce) backend master generation = .ok s ∧
      unsealBytes P backend s.toBytes = .ok (master, generation) ∧
      (∀ st : Store, (st.putSealedMasterKey s.toBytes).readSealedMasterKey = .ok (some s)) ∧
      ∀ st st' : Store, st.initialiseMasterKey s = .ok st' →
        st'.readSealedMasterKey = .ok (some s)) ∧
    ∀ s, SealedMasterKey.fromBytes bytes = .ok s →
      (∀ r ∈ requests, r.sealed P backend ≠ .ok s) →
      ∃ e, unsealBytes P backend bytes = .error e := by
  refine ⟨SealedMasterKey.fromBytes_toBytes, fun _ h => (SealedMasterKey.toBytes_fromBytes h).1,
    fromBytesIndexed_eq bytes, ?_, ?_⟩
  · intro nonce master generation
    have hseal : sealMaster P (some nonce) backend master generation = .ok _ :=
      sealMaster_eq_ok_iff.mpr ⟨nonce, rfl, rfl⟩
    have hread := fun st => readSealedMasterKey_put st (sealMaster_ciphertext_ne_nil hP hseal)
    refine ⟨_, hseal, unsealBytes_seal hP hseal, hread, ?_⟩
    intro st st' hinit
    obtain ⟨-, rfl⟩ := Store.initialiseMasterKey_eq_ok.mp hinit
    exact hread st
  · intro s hdecode hother
    cases hunseal : unsealBytes P backend bytes with
    | error e => exact ⟨e, rfl⟩
    | ok result =>
        obtain ⟨s', hdecode', hunseal⟩ := bind_eq_ok.mp hunseal
        cases hdecode.symm.trans hdecode'
        obtain ⟨master, hmaster, -⟩ := bind_eq_ok.mp hunseal
        obtain ⟨r, hr, hsealed⟩ := sealed_of_unsealed (hideal s hdecode) hmaster
        exact absurd hsealed (hother r hr)

end Form

section Witnesses

def sampleBackend : KeyfileSeal :=
  ⟨sampleKey 5⟩

/-- A master key is sealed with generation 4. -/
def sampleSealing : SealRequest :=
  ⟨some (sampleNonce 6), ⟨sampleKey 9⟩, 4⟩

/-- Its bytes with the generation set back to 3. -/
def olderGeneration : SealedMasterKey where
  kind := .keyfile
  generation := 3
  nonce := sampleNonce 6
  ciphertext :=
    openPrimitives.encrypt (sampleBackend.wrapKey openPrimitives).raw (sampleNonce 6)
      (sealAad .keyfile 4) (sampleKey 9).toList

/-- The generation is not one that was sealed, so the bytes do not unseal. -/
theorem rolled_back_generation_fails :
    ∃ e, unsealBytes openPrimitives sampleBackend olderGeneration.toBytes = .error e := by
  have hne : olderGeneration.ciphertext ≠ [] := openPrimitives_correct.encrypt_ne_nil _ _ _ _
  have hdecode := SealedMasterKey.fromBytes_toBytes olderGeneration hne
  refine (sealed_master_key_format openPrimitives_correct sampleBackend [sampleSealing]
    olderGeneration.toBytes ?_).2.2.2.2 olderGeneration hdecode ?_
  · intro s hs
    cases hdecode.symm.trans hs
    exact authentic_of_committing
      (openPrimitives_committing [(sampleBackend.wrapKey openPrimitives).raw] _)
      (unforged_of_output (by decide +kernel)) List.mem_cons_self
  · intro r hr hsealed
    rw [List.mem_singleton.mp hr] at hsealed
    obtain ⟨nonce, -, heq⟩ := sealMaster_eq_ok_iff.mp hsealed
    have hgeneration : (3 : UInt32) = 4 := congrArg SealedMasterKey.generation heq
    exact absurd hgeneration (by decide)

end Witnesses

end Storage
end Secretbae
