import Secretbae.Core.Envelope
import Secretbae.Lib.Slice

/-!
# Sealing the master key at rest

The master key is stored in the database encrypted under a key derived from
the keyfile, in a small self-describing format.  `unsealBytes` is what a
restart computes: decode the stored bytes and unseal them.  `unsealBytes_seal`
says that a restart recovers exactly the key and generation that were sealed.
-/

namespace Secretbae
namespace Core

open Lib

inductive SealKind where
  | keyfile
deriving DecidableEq

/-- The `#[repr(u8)]` discriminant. -/
def SealKind.toU8 : SealKind → UInt8
  | .keyfile => 1

def SealKind.fromU8 (value : UInt8) : Except Error SealKind :=
  if value = 1 then .ok .keyfile
  else .error (.unsupportedSeal s!"kind {value.toNat}")

def SealKind.asStr : SealKind → String
  | .keyfile => "keyfile"

@[simp] theorem SealKind.fromU8_toU8
    (kind : SealKind) :
    SealKind.fromU8 kind.toU8 = .ok kind := by
  cases kind
  rfl

def sealMagic : Bytes := utf8 "SBAEMK"

def sealFormatVersion : Nat := 1

/-- Magic, format version, kind, generation and nonce. -/
def sealHeaderLen : Nat := 6 + 2 + 1 + 4 + nonceLen

/-- The master key as stored in the `meta` table. -/
structure SealedMasterKey where
  kind : SealKind
  generation : UInt32
  nonce : Nonce
  ciphertext : Bytes
deriving DecidableEq

/-- `SealedMasterKey::to_bytes`. -/
def SealedMasterKey.toBytes (s : SealedMasterKey) : Bytes :=
  sealMagic ++ (leBytes 2 sealFormatVersion ++ ([s.kind.toU8] ++
    (leBytes 4 s.generation.toNat ++ (s.nonce.toList ++ s.ciphertext))))

/-- `SealedMasterKey::from_bytes`. -/
def SealedMasterKey.fromBytes (bytes : Bytes) : Except Error SealedMasterKey :=
  if bytes.length ≤ sealHeaderLen ∨ bytes.take 6 ≠ sealMagic then
    .error (.malformed "sealed master key" (sealHeaderLen + 1) bytes.length)
  else
    let formatVersion := ofLe ((bytes.drop 6).take 2)
    if formatVersion ≠ sealFormatVersion then
      .error (.sealVersion formatVersion sealFormatVersion)
    else do
      let kind ← SealKind.fromU8 (bytes.getD 8 0)
      let generation := UInt32.ofNat (ofLe ((bytes.drop 9).take 4))
      let nonce ← Nonce.fromSlice ((bytes.drop 13).take 24)
      .ok { kind, generation, nonce, ciphertext := bytes.drop sealHeaderLen }

/-- Derives the key-encryption key from the contents of a keyfile. -/
structure KeyfileSeal where
  material : Key32

def KeyfileSeal.kind (_ : KeyfileSeal) : SealKind :=
  .keyfile

/-- `Seal::wrap_key` of the keyfile backend. -/
def KeyfileSeal.wrapKey (P : Primitives) (backend : KeyfileSeal) : WrapKey :=
  ⟨derive P backend.material.toList (utf8 "secretbae/kek/v1")⟩

def sealAad (kind : SealKind) (generation : UInt32) : Bytes :=
  kind.toU8 :: leBytes 4 generation.toNat

/-- `seal_master`: wrap `master` for storage. -/
def sealMaster (P : Primitives) (draw : Option Nonce) (backend : KeyfileSeal)
    (master : MasterKey) (generation : UInt32) : Except Error SealedMasterKey := do
  let kek := backend.wrapKey P
  let (nonce, ciphertext) ←
    aeadSeal P draw kek.raw (sealAad backend.kind generation) master.raw.toList
  .ok { kind := backend.kind, generation, nonce, ciphertext }

/-- `unseal_master`. -/
def unsealMaster (P : Primitives) (backend : KeyfileSeal)
    (sealed : SealedMasterKey) : Except Error MasterKey :=
  if backend.kind ≠ sealed.kind then
    .error (.unsupportedSeal
      s!"store was sealed with {sealed.kind.asStr}, this daemon is configured for {backend.kind.asStr}")
  else do
    let kek := backend.wrapKey P
    let material ←
      aeadOpen P kek.raw sealed.nonce (sealAad sealed.kind sealed.generation)
        sealed.ciphertext
    let bytes ← key32OfBytes "master key" material
    .ok ⟨bytes⟩

/-- The key and generation a restart obtains from the stored bytes. -/
def unsealBytes (P : Primitives) (backend : KeyfileSeal) (stored : Bytes) :
    Except Error (MasterKey × UInt32) := do
  let sealed ← SealedMasterKey.fromBytes stored
  let master ← unsealMaster P backend sealed
  .ok (master, sealed.generation)

theorem sealMagic_length :
    sealMagic.length = 6 := by
  decide

theorem SealedMasterKey.toBytes_length
    (s : SealedMasterKey) :
    s.toBytes.length = sealHeaderLen + s.ciphertext.length := by
  simp only [toBytes, List.length_append, sealMagic_length, leBytes_length,
    List.length_singleton, List.Vector.toList_length, sealHeaderLen, nonceLen]
  omega

theorem SealedMasterKey.take_toBytes
    (s : SealedMasterKey) :
    s.toBytes.take 6 = sealMagic := by
  rw [toBytes, ← sealMagic_length, List.take_left]

/-- After the magic, the format version. -/
theorem SealedMasterKey.drop_toBytes
    (s : SealedMasterKey) :
    s.toBytes.drop 6 =
      leBytes 2 sealFormatVersion ++ ([s.kind.toU8] ++
        (leBytes 4 s.generation.toNat ++ (s.nonce.toList ++ s.ciphertext))) := by
  rw [toBytes, ← sealMagic_length, List.drop_left]

/-- From the ninth byte on every field starts at a fixed offset. -/
theorem SealedMasterKey.drop_toBytes_add
    (s : SealedMasterKey) (k : Nat) :
    s.toBytes.drop (8 + k) =
      (s.kind.toU8 ::
        (leBytes 4 s.generation.toNat ++ (s.nonce.toList ++ s.ciphertext))).drop k := by
  rw [show 8 + k = 6 + (2 + k) by omega, ← List.drop_drop, drop_toBytes,
    ← List.drop_drop, List.drop_left' (leBytes_length 2 _)]
  rfl

/-- The stored format is read back field by field. -/
theorem SealedMasterKey.fromBytes_toBytes
    (s : SealedMasterKey)
    (hne : s.ciphertext ≠ []) :
    SealedMasterKey.fromBytes s.toBytes = .ok s := by
  have hpos : 0 < s.ciphertext.length := List.length_pos_iff.mpr hne
  have hguard :
      ¬ (s.toBytes.length ≤ sealHeaderLen ∨ s.toBytes.take 6 ≠ sealMagic) := by
    rintro (h | h)
    · rw [s.toBytes_length] at h
      omega
    · exact h s.take_toBytes
  have hversion : ofLe ((s.toBytes.drop 6).take 2) = sealFormatVersion := by
    rw [s.drop_toBytes, List.take_left' (leBytes_length 2 _)]
    rfl
  have hkind : s.toBytes.getD 8 0 = s.kind.toU8 := by
    rw [List.getD_eq_getElem?_getD, ← Nat.add_zero 8, ← List.getElem?_drop,
      s.drop_toBytes_add 0]
    rfl
  have hgeneration :
      ofLe ((s.toBytes.drop 9).take 4) = s.generation.toNat := by
    rw [s.drop_toBytes_add 1, List.drop_succ_cons, List.drop_zero,
      List.take_left' (leBytes_length 4 _), ofLe_leBytes s.generation.toNat_lt]
  have hrest : s.toBytes.drop 13 = s.nonce.toList ++ s.ciphertext := by
    rw [s.drop_toBytes_add 5, List.drop_succ_cons, List.drop_left' (leBytes_length 4 _)]
  have hnonce : (s.toBytes.drop 13).take 24 = s.nonce.toList := by
    rw [hrest, List.take_left' s.nonce.toList_length]
  have hcipher : s.toBytes.drop sealHeaderLen = s.ciphertext := by
    rw [show sealHeaderLen = 13 + 24 from rfl, ← List.drop_drop, hrest,
      List.drop_left' s.nonce.toList_length]
  unfold SealedMasterKey.fromBytes
  rw [if_neg hguard]
  simp only [hversion, ne_eq, not_true_eq_false, if_false]
  rw [hkind, hgeneration, hnonce, hcipher, Nonce.fromSlice_toList]
  simp [bind, Except.bind]

theorem SealKind.fromU8_eq_ok_iff
    {value : UInt8} {kind : SealKind} :
    SealKind.fromU8 value = .ok kind ↔ value = kind.toU8 := by
  cases kind
  unfold SealKind.fromU8
  split <;> simp_all [SealKind.toU8]

/-- A generation that is read is written as it was. -/
theorem leBytes_generation
    {field : Bytes}
    (hlen : field.length = 4) :
    leBytes 4 (UInt32.ofNat (ofLe field)).toNat = field := by
  have hlt : ofLe field < 2 ^ 32 := by
    have := ofLe_lt field
    rw [hlen] at this
    omega
  rw [UInt32.toNat_ofNat', Nat.mod_eq_of_lt hlt, ← hlen, leBytes_ofLe]

/-- Nothing is accepted but what is written. -/
theorem SealedMasterKey.toBytes_fromBytes
    {bytes : Bytes} {s : SealedMasterKey}
    (h : SealedMasterKey.fromBytes bytes = .ok s) :
    s.toBytes = bytes ∧ s.ciphertext ≠ [] := by
  unfold SealedMasterKey.fromBytes at h
  split at h
  · cases h
  rename_i hguard
  rw [not_or, not_le, not_not] at hguard
  obtain ⟨hlen, hmagic⟩ := hguard
  rw [show sealHeaderLen = 37 from rfl] at hlen
  dsimp only at h
  split at h
  · cases h
  rename_i hversion
  rw [not_not] at hversion
  obtain ⟨kind, hkind, h⟩ := bind_eq_ok.mp h
  obtain ⟨nonce, hnonce, h⟩ := bind_eq_ok.mp h
  cases h
  constructor
  · have hkindField : (bytes.drop 8).take 1 = [kind.toU8] := by
      rw [← SealKind.fromU8_eq_ok_iff.mp hkind, List.drop_eq_getElem_cons (by omega),
        List.getD_eq_getElem?_getD, List.getElem?_eq_getElem (by omega)]
      rfl
    have hfour : ((bytes.drop 9).take 4).length = 4 := by
      rw [List.length_take, List.length_drop]
      omega
    have hgeneration := leBytes_generation hfour
    -- the fields one after another, from the back
    calc sealMagic ++ (leBytes 2 sealFormatVersion ++ ([kind.toU8] ++
          (leBytes 4 (UInt32.ofNat (ofLe ((bytes.drop 9).take 4))).toNat ++
            (nonce.toList ++ bytes.drop 37))))
        = sealMagic ++ (leBytes 2 sealFormatVersion ++ ([kind.toU8] ++
          ((bytes.drop 9).take 4 ++ bytes.drop 13))) := by
          rw [hgeneration, drop_eq_append_of_take (Nonce.fromSlice_eq_ok_iff.mp hnonce)]
      _ = sealMagic ++ (leBytes 2 sealFormatVersion ++ ([kind.toU8] ++ bytes.drop 9)) := by
          rw [← drop_eq_append_of_take (i := 9) rfl]
      _ = sealMagic ++ (leBytes 2 sealFormatVersion ++ bytes.drop 8) := by
          rw [← drop_eq_append_of_take hkindField]
      _ = sealMagic ++ bytes.drop 6 := by
          rw [← drop_eq_append_of_take (take_eq_leBytes_of_ofLe (by omega) hversion)]
      _ = bytes := (drop_eq_append_of_take (i := 0) hmagic).symm
  · exact List.ne_nil_of_length_pos
      (by rw [List.length_drop, show sealHeaderLen = 37 from rfl]; omega)

theorem sealAad_inj
    {kind kind' : SealKind} {g g' : UInt32}
    (h : sealAad kind g = sealAad kind' g') :
    kind = kind' ∧ g = g' := by
  obtain ⟨-, htail⟩ := List.cons.inj h
  exact ⟨by cases kind; cases kind'; rfl,
    UInt32.toNat_inj.mp (leBytes_inj g.toNat_lt g'.toNat_lt htail)⟩

/-- What `seal_master` makes of its draw. -/
theorem sealMaster_eq_ok_iff
    {P : Primitives} {draw : Option Nonce} {backend : KeyfileSeal} {master : MasterKey}
    {generation : UInt32} {sealed : SealedMasterKey} :
    sealMaster P draw backend master generation = .ok sealed ↔
      ∃ nonce, draw = some nonce ∧
        sealed =
          { kind := backend.kind
            generation := generation
            nonce := nonce
            ciphertext :=
              P.encrypt (backend.wrapKey P).raw nonce (sealAad backend.kind generation)
                master.raw.toList } := by
  constructor
  · intro h
    obtain ⟨r, hr, h⟩ := bind_eq_ok.mp h
    obtain ⟨nonce, hdraw, rfl⟩ := aeadSeal_eq_ok.mp hr
    cases h
    exact ⟨nonce, hdraw, rfl⟩
  · rintro ⟨nonce, hdraw, rfl⟩
    exact bind_eq_ok.mpr ⟨_, aeadSeal_eq_ok.mpr ⟨nonce, hdraw, rfl⟩, rfl⟩

theorem sealMaster_ciphertext_ne_nil
    {P : Primitives} (hP : AeadCorrect P)
    {draw : Option Nonce} {backend : KeyfileSeal} {master : MasterKey}
    {generation : UInt32} {sealed : SealedMasterKey}
    (h : sealMaster P draw backend master generation = .ok sealed) :
    sealed.ciphertext ≠ [] := by
  obtain ⟨nonce, -, rfl⟩ := sealMaster_eq_ok_iff.mp h
  exact hP.encrypt_ne_nil _ _ _ _

/-- A restart recovers exactly what was sealed. -/
theorem unsealBytes_seal
    {P : Primitives} (hP : AeadCorrect P)
    {draw : Option Nonce} {backend : KeyfileSeal} {master : MasterKey}
    {generation : UInt32} {sealed : SealedMasterKey}
    (h : sealMaster P draw backend master generation = .ok sealed) :
    unsealBytes P backend sealed.toBytes = .ok (master, generation) := by
  have hdecode := SealedMasterKey.fromBytes_toBytes sealed (sealMaster_ciphertext_ne_nil hP h)
  obtain ⟨nonce, -, rfl⟩ := sealMaster_eq_ok_iff.mp h
  simp [unsealBytes, hdecode, unsealMaster, aeadOpen_encrypt hP, bind, Except.bind]

end Core
end Secretbae
