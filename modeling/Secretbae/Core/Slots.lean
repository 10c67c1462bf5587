import Secretbae.Core.Envelope
import Secretbae.Lib.Runs

/-!
# Ciphertexts and their slots

The history of a set of versions: which were sealed, under which master key,
and how rotations moved their data keys.  Besides the columns as they are now,
a history remembers every call of the AEAD that an honest seal or rewrap made.

What is assumed of the AEAD is stated about these calls: an output of one of
them opens only under the key, nonce and associated data of that call
(`Committing`), and what an adversary puts in a row opens only if it is such an
output (`Unforged`).  Then a row opens only to what was sealed for its slot.
-/

namespace Secretbae
namespace Core

open Lib

/-- One call of `aead::seal`. -/
structure Call where
  key : Key32
  nonce : Nonce
  aad : Bytes
  plaintext : Bytes
deriving DecidableEq

def Call.output (P : Primitives) (call : Call) : Bytes :=
  P.encrypt call.key call.nonce call.aad call.plaintext

/-- A version: the slot it was sealed for, what was sealed, and its columns as they are now. -/
structure Slot where
  binding : VersionBinding
  plaintext : Bytes
  dek : Key32
  sealed : SealedVersion

/-- The versions sealed so far, the master keys so far, and the calls made for them. -/
structure History where
  master : MasterKey
  generation : UInt32
  masters : List MasterKey
  slots : List Slot
  calls : List Call

/-- Before anything has been sealed. -/
def History.start (master : MasterKey) (generation : UInt32) : History where
  master := master
  generation := generation
  masters := [master]
  slots := []
  calls := []

inductive SlotOp where
  | sealVersion (draws : SealDraws) (binding : VersionBinding) (plaintext : Bytes)
  /-- A rotation; a version for which no nonce is drawn is not moved. -/
  | rotate (new : MasterKey) (generation : UInt32) (draws : VersionBinding → Option Nonce)

section Step

variable (P : Primitives)

/-- One version in a rotation: `WrappedKey::rewrap`, or as before where it fails. -/
def Slot.rotate (old new : MasterKey) (generation : UInt32)
    (draws : VersionBinding → Option Nonce) (slot : Slot) : Slot :=
  match slot.sealed.key.rewrap P (draws slot.binding) old new generation slot.binding with
  | .ok key => { slot with sealed := { slot.sealed with key := key } }
  | .error _ => slot

/-- The call that a successful rewrap makes. -/
def Slot.rewrapCall (old new : MasterKey) (generation : UInt32)
    (draws : VersionBinding → Option Nonce) (slot : Slot) : Option Call :=
  match draws slot.binding, slot.sealed.key.openKey P old slot.binding with
  | some n, .ok dek => some ⟨new.raw, n, slot.binding.wrapAad generation, dek.raw.toList⟩
  | _, _ => none

def History.step (h : History) : SlotOp → History
  | .sealVersion draws binding plaintext =>
      match draws.dek, draws.nonce, draws.dekNonce,
          SealedVersion.seal P draws h.master h.generation binding plaintext with
      | some dek, some nonce, some dekNonce, .ok sealed =>
          { h with
            slots := h.slots ++ [⟨binding, plaintext, dek, sealed⟩]
            calls := h.calls ++
              [⟨dek, nonce, binding.payloadAad, plaintext⟩,
                ⟨h.master.raw, dekNonce, binding.wrapAad h.generation, dek.toList⟩] }
      | _, _, _, _ => h
  | .rotate new generation draws =>
      { master := new
        generation := generation
        masters := h.masters ++ [new]
        slots := h.slots.map (Slot.rotate P h.master new generation draws)
        calls := h.calls ++ h.slots.filterMap (Slot.rewrapCall P h.master new generation draws) }

end Step

/-- The keys that have been generated. -/
def History.keys (h : History) : List Key32 :=
  h.masters.map MasterKey.raw ++ h.slots.map Slot.dek

section Ideal

variable (P : Primitives)

/-- What an honest call has put out opens only under its own key, nonce and associated data. -/
def Committing (keys : List Key32) (calls : List Call) : Prop :=
  ∀ call ∈ calls, ∀ key ∈ keys, ∀ nonce aad m,
    P.decrypt key nonce aad (call.output P) = some m →
      key = call.key ∧ nonce = call.nonce ∧ aad = call.aad

/-- The bytes open under a generated key only if an honest call has put them out. -/
def Unforged (keys : List Key32) (calls : List Call) (ciphertext : Bytes) : Prop :=
  ∀ key ∈ keys, ∀ nonce aad m, P.decrypt key nonce aad ciphertext = some m →
    ∃ call ∈ calls, call.output P = ciphertext

/-- Under this key the bytes open only as an honest call under it has put them out. -/
def Authentic (key : Key32) (calls : List Call) (ciphertext : Bytes) : Prop :=
  ∀ nonce aad m, P.decrypt key nonce aad ciphertext = some m →
    ∃ call ∈ calls, call.key = key ∧ call.nonce = nonce ∧ call.aad = aad ∧
      call.output P = ciphertext

theorem authentic_of_committing
    {P : Primitives} {keys : List Key32} {calls : List Call} {key : Key32} {ciphertext : Bytes}
    (hc : Committing P keys calls)
    (hu : Unforged P keys calls ciphertext)
    (hkey : key ∈ keys) :
    Authentic P key calls ciphertext := by
  intro nonce aad m h
  obtain ⟨call, hcall, rfl⟩ := hu key hkey nonce aad m h
  obtain ⟨rfl, rfl, rfl⟩ := hc call hcall key hkey nonce aad m h
  exact ⟨call, hcall, rfl, rfl, rfl, rfl⟩

end Ideal

section Growth

variable {P : Primitives}

/-- The later history contains the earlier one; where there was a rotation, the key is new. -/
structure History.Grows (h h' : History) : Prop where
  keys : ∀ key ∈ h.keys, key ∈ h'.keys
  calls : ∀ call ∈ h.calls, call ∈ h'.calls
  masters : ∃ more, h'.masters = h.masters ++ more ∧
    ((more = [] ∧ h'.master = h.master) ∨ h'.master ∈ more)

theorem History.Grows.refl
    (h : History) :
    h.Grows h :=
  ⟨fun _ hk => hk, fun _ hc => hc, [], by simp, .inl ⟨rfl, rfl⟩⟩

theorem History.Grows.trans
    {h h' h'' : History}
    (hg : h.Grows h')
    (hg' : h'.Grows h'') :
    h.Grows h'' := by
  obtain ⟨more, hmore, hmaster⟩ := hg.masters
  obtain ⟨more', hmore', hmaster'⟩ := hg'.masters
  refine ⟨fun k hk => hg'.keys k (hg.keys k hk), fun c hc => hg'.calls c (hg.calls c hc),
    more ++ more', by rw [hmore', hmore, List.append_assoc], ?_⟩
  rcases hmaster' with ⟨rfl, heq⟩ | hmem
  · rcases hmaster with ⟨rfl, heq'⟩ | hmem
    · exact .inl ⟨rfl, heq.trans heq'⟩
    · exact .inr (by rw [heq]; simpa using hmem)
  · exact .inr (List.mem_append_right _ hmem)

/-- A rotation changes nothing of a version but its wrapped key. -/
theorem Slot.rotate_fixed
    (old new : MasterKey) (generation : UInt32) (draws : VersionBinding → Option Nonce)
    (slot : Slot) :
    (slot.rotate P old new generation draws).binding = slot.binding ∧
      (slot.rotate P old new generation draws).plaintext = slot.plaintext ∧
      (slot.rotate P old new generation draws).dek = slot.dek := by
  unfold Slot.rotate
  split <;> exact ⟨rfl, rfl, rfl⟩

theorem History.grows_step
    (h : History) (op : SlotOp) :
    h.Grows (h.step P op) := by
  cases op with
  | sealVersion draws binding plaintext =>
      simp only [History.step]
      split
      · refine ⟨?_, ?_, [], by simp, .inl ⟨rfl, rfl⟩⟩
        · intro k hk
          simp only [History.keys, List.map_append, List.mem_append] at hk ⊢
          rcases hk with hk | hk
          · exact .inl hk
          · exact .inr (.inl hk)
        · intro c hc
          exact List.mem_append_left _ hc
      · exact .refl h
  | rotate new generation draws =>
      refine ⟨?_, fun c hc => List.mem_append_left _ hc, [new], rfl, .inr (by
        simp [History.step])⟩
      intro k hk
      have hdeks : (h.slots.map (Slot.rotate P h.master new generation draws)).map Slot.dek =
          h.slots.map Slot.dek := by
        rw [List.map_map]
        refine List.map_congr_left ?_
        intro slot _
        exact (slot.rotate_fixed h.master new generation draws).2.2
      simp only [History.step, History.keys, hdeks, List.map_append, List.mem_append] at hk ⊢
      rcases hk with hk | hk
      · exact .inl (.inl hk)
      · exact .inr hk

theorem History.grows_run
    (h : History) (ops : List SlotOp) :
    h.Grows (run (History.step P) h ops) :=
  run_rel (fun _ => True) (fun _ => True) History.Grows.refl
    (fun _ _ _ hg hg' => hg.trans hg') (fun _ _ _ _ => trivial)
    (fun h op _ _ => h.grows_step op) (fun _ _ => trivial) trivial

end Growth

section Invariant

variable {P : Primitives}

/-- The call encrypts what was sealed for a version. -/
def Call.IsPayload (call : Call) (slot : Slot) : Prop :=
  call.key = slot.dek ∧ call.aad = slot.binding.payloadAad ∧ call.plaintext = slot.plaintext

/-- The call wraps the data key of a version under the master key `mk`. -/
def Call.Wraps (call : Call) (slot : Slot) (mk : MasterKey) (generation : UInt32) : Prop :=
  call.key = mk.raw ∧ call.aad = slot.binding.wrapAad generation ∧
    call.plaintext = slot.dek.toList

/-- The wrapped key in the columns of a version is what the call has put out. -/
def Slot.KeyFrom (P : Primitives) (slot : Slot) (call : Call) : Prop :=
  slot.sealed.key.wrappedDek = call.output P ∧ slot.sealed.key.dekNonce = call.nonce

/-- Which data key each wrap can yield. -/
structure History.Inv (P : Primitives) (h : History) : Prop where
  master : h.master ∈ h.masters
  calls : ∀ call ∈ h.calls, ∃ slot ∈ h.slots,
    call.IsPayload slot ∨ ∃ mk ∈ h.masters, ∃ generation, call.Wraps slot mk generation
  wrapped : ∀ slot ∈ h.slots, ∃ call ∈ h.calls, ∃ mk ∈ h.masters,
    call.Wraps slot mk slot.sealed.key.mkGeneration ∧ slot.KeyFrom P call

theorem History.inv_start
    (master : MasterKey) (generation : UInt32) :
    (History.start master generation).Inv P where
  master := List.mem_singleton_self _
  calls := by
    intro call hcall
    cases hcall
  wrapped := by
    intro slot hslot
    cases hslot

theorem History.inv_seal
    {h : History}
    (hinv : h.Inv P) (draws : SealDraws) (binding : VersionBinding) (plaintext : Bytes) :
    (h.step P (.sealVersion draws binding plaintext)).Inv P := by
  simp only [History.step]
  split
  · rename_i dek nonce dekNonce sealed hdek hnonce hdekNonce hseal
    obtain ⟨dek', hdek', hseal⟩ := bind_eq_ok.mp hseal
    obtain ⟨r, hr, hseal⟩ := bind_eq_ok.mp hseal
    obtain ⟨w, hw, hseal⟩ := bind_eq_ok.mp hseal
    rw [hdek] at hdek'
    cases hdek'
    obtain ⟨n, hn, rfl⟩ := aeadSeal_eq_ok.mp hr
    obtain ⟨dn, hdn, rfl⟩ := aeadSeal_eq_ok.mp hw
    cases hnonce.symm.trans hn
    cases hdekNonce.symm.trans hdn
    cases hseal
    refine ⟨hinv.master, ?_, ?_⟩
    · intro call hcall
      simp only [List.mem_append, List.mem_cons, List.not_mem_nil, or_false] at hcall
      rcases hcall with hcall | rfl | rfl
      · obtain ⟨slot, hslot, hkind⟩ := hinv.calls call hcall
        exact ⟨slot, List.mem_append_left _ hslot, hkind⟩
      · exact ⟨_, List.mem_append_right _ (List.mem_singleton_self _), .inl ⟨rfl, rfl, rfl⟩⟩
      · exact ⟨_, List.mem_append_right _ (List.mem_singleton_self _),
          .inr ⟨h.master, hinv.master, h.generation, rfl, rfl, rfl⟩⟩
    · intro slot hslot
      rcases List.mem_append.mp hslot with hslot | hslot
      · obtain ⟨call, hcall, hwrap⟩ := hinv.wrapped slot hslot
        exact ⟨call, List.mem_append_left _ hcall, hwrap⟩
      · obtain rfl := List.mem_singleton.mp hslot
        refine ⟨⟨h.master.raw, dekNonce, binding.wrapAad h.generation, dek.toList⟩, by simp,
          h.master, hinv.master, ⟨rfl, rfl, rfl⟩, rfl, rfl⟩
  · exact hinv

/-- A data key that is unwrapped in a rotation is the one that was wrapped. -/
theorem History.Inv.openKey_eq
    {h : History} {slot : Slot} {dek : DataKey}
    (hP : AeadCorrect P)
    (hc : Committing P h.keys h.calls)
    (hinv : h.Inv P)
    (hslot : slot ∈ h.slots)
    (hopen : slot.sealed.key.openKey P h.master slot.binding = .ok dek) :
    dek.raw = slot.dek := by
  obtain ⟨call, hcall, mk, -, ⟨-, haad, hplain⟩, hbytes, hnonce⟩ := hinv.wrapped slot hslot
  obtain ⟨material, hmaterial, hopen⟩ := bind_eq_ok.mp hopen
  obtain ⟨raw, hraw, hopen⟩ := bind_eq_ok.mp hopen
  cases hopen
  unfold aeadOpen at hmaterial
  split at hmaterial
  · rename_i m hm
    cases hmaterial
    rw [hbytes] at hm
    have hmem : h.master.raw ∈ h.keys :=
      List.mem_append_left _ (List.mem_map_of_mem hinv.master)
    obtain ⟨hkey, hn, haad'⟩ := hc call hcall _ hmem _ _ _ hm
    rw [hkey, hn, haad', Call.output, hP.decrypt_encrypt, Option.some.injEq, hplain] at hm
    rw [← hm, key32OfBytes_toList] at hraw
    cases hraw
    rfl
  · cases hmaterial

theorem History.inv_rotate
    {h : History}
    (hP : AeadCorrect P)
    (hc : Committing P h.keys h.calls)
    (hinv : h.Inv P) (new : MasterKey) (generation : UInt32)
    (draws : VersionBinding → Option Nonce) :
    (h.step P (.rotate new generation draws)).Inv P := by
  -- rotated versions wrap the same data keys, so old calls are about them as well
  have hcarry : ∀ {call : Call} {slot : Slot}, slot ∈ h.slots →
      (call.IsPayload slot ∨ ∃ mk ∈ h.masters, ∃ g, call.Wraps slot mk g) →
      ∃ slot' ∈ (h.step P (.rotate new generation draws)).slots, call.IsPayload slot' ∨
        ∃ mk ∈ (h.step P (.rotate new generation draws)).masters, ∃ g,
          call.Wraps slot' mk g := by
    intro call slot hslot hkind
    obtain ⟨hb, hp, hd⟩ := slot.rotate_fixed (P := P) h.master new generation draws
    refine ⟨_, List.mem_map_of_mem hslot, ?_⟩
    rcases hkind with ⟨hk, ha, hm⟩ | ⟨mk, hmk, g, hk, ha, hm⟩
    · exact .inl ⟨by rw [hd, hk], by rw [hb, ha], by rw [hp, hm]⟩
    · exact .inr ⟨mk, List.mem_append_left _ hmk, g, hk, by rw [hb, ha], by rw [hd, hm]⟩
  refine ⟨by simp [History.step], ?_, ?_⟩
  · intro call hcall
    rcases List.mem_append.mp hcall with hcall | hcall
    · obtain ⟨slot, hslot, hkind⟩ := hinv.calls call hcall
      exact hcarry hslot hkind
    · obtain ⟨slot, hslot, hsome⟩ := List.mem_filterMap.mp hcall
      obtain ⟨hb, -, hd⟩ := slot.rotate_fixed (P := P) h.master new generation draws
      unfold Slot.rewrapCall at hsome
      split at hsome
      · rename_i n dek _ hopen
        cases hsome
        have hdek := hinv.openKey_eq hP hc hslot hopen
        exact ⟨_, List.mem_map_of_mem hslot, .inr ⟨new, by simp [History.step], generation,
          rfl, by rw [hb], by rw [hd, ← hdek]⟩⟩
      · cases hsome
  · intro slot' hslot'
    obtain ⟨slot, hslot, rfl⟩ := List.mem_map.mp hslot'
    cases hrewrap : slot.sealed.key.rewrap P (draws slot.binding) h.master new generation
        slot.binding with
    | error e =>
        have hsame : slot.rotate P h.master new generation draws = slot := by
          simp [Slot.rotate, hrewrap]
        obtain ⟨call, hcall, mk, hmk, hwrap⟩ := hinv.wrapped slot hslot
        rw [hsame]
        exact ⟨call, List.mem_append_left _ hcall, mk, List.mem_append_left _ hmk, hwrap⟩
    | ok key =>
        have hmoved : slot.rotate P h.master new generation draws =
            { slot with sealed := { slot.sealed with key := key } } := by
          simp [Slot.rotate, hrewrap]
        obtain ⟨dek, hopen, hrewrap⟩ := bind_eq_ok.mp hrewrap
        obtain ⟨r, hr, hrewrap⟩ := bind_eq_ok.mp hrewrap
        obtain ⟨n, hn, rfl⟩ := aeadSeal_eq_ok.mp hr
        cases hrewrap
        have hdek := hinv.openKey_eq hP hc hslot hopen
        have hcall : slot.rewrapCall P h.master new generation draws =
            some ⟨new.raw, n, slot.binding.wrapAad generation, dek.raw.toList⟩ := by
          simp [Slot.rewrapCall, hn, hopen]
        rw [hmoved]
        exact ⟨_, List.mem_append_right _ (List.mem_filterMap.mpr ⟨slot, hslot, hcall⟩), new,
          by simp [History.step], ⟨rfl, rfl, by rw [hdek]⟩, rfl, rfl⟩

/-- The invariant of every run whose calls are committing. -/
theorem History.inv_run
    {h : History} {ops : List SlotOp}
    (hP : AeadCorrect P)
    (hc : Committing P (run (History.step P) h ops).keys (run (History.step P) h ops).calls)
    (hinv : h.Inv P) :
    (run (History.step P) h ops).Inv P := by
  induction ops generalizing h with
  | nil =>
      exact hinv
  | cons op ops ih =>
      have hgrows := h.grows_run (P := P) (op :: ops)
      have hnow : Committing P h.keys h.calls := by
        intro call hcall key hkey
        exact hc call (hgrows.calls call hcall) key (hgrows.keys key hkey)
      refine ih hc ?_
      cases op with
      | sealVersion draws binding plaintext => exact History.inv_seal hinv draws binding plaintext
      | rotate new generation draws => exact History.inv_rotate hP hnow hinv new generation draws

end Invariant

section Slots

variable {P : Primitives}

theorem VersionBinding.payloadAad_inj
    {a b : VersionBinding}
    (h : a.payloadAad = b.payloadAad) :
    a = b := by
  obtain ⟨hid, hversion⟩ := List.append_inj h (by simp)
  have hnat := leBytes_inj (by have := a.version.toNat_lt; omega)
    (by have := b.version.toNat_lt; omega) hversion
  cases a
  cases b
  simp only [VersionBinding.mk.injEq]
  exact ⟨List.Vector.toList_injective hid, UInt32.toNat_inj.mp hnat⟩

theorem VersionBinding.wrapAad_inj
    {a b : VersionBinding} {g g' : UInt32}
    (h : a.wrapAad g = b.wrapAad g') :
    a = b ∧ g = g' := by
  obtain ⟨hpayload, hgeneration⟩ := List.append_inj h (by simp [VersionBinding.payloadAad])
  have hnat := leBytes_inj (by have := g.toNat_lt; omega) (by have := g'.toNat_lt; omega)
    hgeneration
  exact ⟨VersionBinding.payloadAad_inj hpayload, UInt32.toNat_inj.mp hnat⟩

/-- Under a generated key, unforged bytes are the output of a call with that key. -/
theorem Unforged.call
    {keys : List Key32} {calls : List Call} {key : Key32} {nonce : Nonce}
    {aad ciphertext m : Bytes}
    (hP : AeadCorrect P)
    (hc : Committing P keys calls)
    (h : Unforged P keys calls ciphertext)
    (hkey : key ∈ keys)
    (hopen : aeadOpen P key nonce aad ciphertext = .ok m) :
    ⟨key, nonce, aad, m⟩ ∈ calls := by
  rw [aeadOpen_eq_ok] at hopen
  obtain ⟨call, hcall, rfl⟩ := h key hkey nonce aad m hopen
  obtain ⟨rfl, rfl, rfl⟩ := hc call hcall key hkey nonce aad m hopen
  rw [Call.output, hP.decrypt_encrypt, Option.some.injEq] at hopen
  subst hopen
  exact hcall

/-- No master key is a data key, and no two versions share one. -/
theorem History.distinct
    {h : History}
    (hkeys : h.keys.Nodup) :
    (∀ mk ∈ h.masters, ∀ slot ∈ h.slots, mk.raw ≠ slot.dek) ∧
      ∀ slot ∈ h.slots, ∀ slot' ∈ h.slots, slot.dek = slot'.dek → slot = slot' := by
  obtain ⟨-, hdeks, hdisjoint⟩ := List.nodup_append.mp hkeys
  refine ⟨?_, ?_⟩
  · intro mk hmk slot hslot
    exact hdisjoint _ (List.mem_map_of_mem hmk) _ (List.mem_map_of_mem hslot)
  · intro slot hslot slot' hslot' heq
    exact List.inj_on_of_nodup_map hdeks hslot hslot' heq

/-- What columns that nobody forged open to. -/
theorem History.Inv.opens_to
    {h : History} {s : SealedVersion} {b : VersionBinding} {m : Bytes}
    (hP : AeadCorrect P)
    (hc : Committing P h.keys h.calls)
    (hkeys : h.keys.Nodup)
    (hinv : h.Inv P)
    (hwrapped : Unforged P h.keys h.calls s.key.wrappedDek)
    (hpayload : Unforged P h.keys h.calls s.ciphertext)
    (hopen : s.openAt P h.master b = .ok m) :
    ∃ slot ∈ h.slots, slot.binding = b ∧ m = slot.plaintext := by
  obtain ⟨hmasters, hdeks⟩ := h.distinct hkeys
  obtain ⟨dek, hdek, hopen⟩ := bind_eq_ok.mp hopen
  obtain ⟨material, hmaterial, hdek⟩ := bind_eq_ok.mp hdek
  obtain ⟨raw, hraw, hdek⟩ := bind_eq_ok.mp hdek
  cases hdek
  have hmaster : h.master.raw ∈ h.keys :=
    List.mem_append_left _ (List.mem_map_of_mem hinv.master)
  -- the master key opens wraps only, and the wrap is the one of this slot
  obtain ⟨slot, hslot, hkind⟩ :=
    hinv.calls _ (hwrapped.call hP hc hmaster hmaterial)
  rcases hkind with ⟨hkey, -⟩ | ⟨mk, -, g, -, haad, hplain⟩
  · exact absurd hkey (hmasters _ hinv.master slot hslot)
  obtain ⟨hbinding, -⟩ := VersionBinding.wrapAad_inj haad
  dsimp only at hplain
  rw [hplain, key32OfBytes_toList] at hraw
  cases hraw
  -- the data key opens the payload of this slot only
  have hdekMem : slot.dek ∈ h.keys := List.mem_append_right _ (List.mem_map_of_mem hslot)
  obtain ⟨slot', hslot', hkind⟩ := hinv.calls _ (hpayload.call hP hc hdekMem hopen)
  rcases hkind with ⟨hkey, -, hplain'⟩ | ⟨mk, hmk, -, hkey, -⟩
  · obtain rfl := hdeks slot hslot slot' hslot' hkey
    exact ⟨slot, hslot, hbinding.symm, hplain'⟩
  · exact absurd hkey.symm (hmasters mk hmk slot hslot)

/-- A wrapped key from before a rotation does not open under the key rotated to. -/
theorem History.stale_key_fails
    {before after : List SlotOp} {start : History} {new : MasterKey} {generation : UInt32}
    {draws : VersionBinding → Option Nonce} {h : History}
    (hP : AeadCorrect P)
    (hrun : h = run (History.step P) start (before ++ .rotate new generation draws :: after))
    (hc : Committing P h.keys h.calls)
    (hkeys : h.keys.Nodup)
    (hstart : start.Inv P)
    {slot : Slot}
    (hslot : slot ∈ (run (History.step P) start before).slots)
    {s : SealedVersion}
    (hstale : s.key.wrappedDek = slot.sealed.key.wrappedDek) (b : VersionBinding) :
    ∃ e, s.openAt P h.master b = .error e := by
  -- the history up to the rotation, and the one just after it
  have hsplit : h = run (History.step P)
      ((run (History.step P) start before).step P (.rotate new generation draws)) after := by
    rw [hrun]
    unfold run
    rw [List.foldl_append, List.foldl_cons]
  generalize hmid : run (History.step P) start before = mid at hslot hsplit
  have hlater := (mid.step P (.rotate new generation draws)).grows_run (P := P) after
  rw [← hsplit] at hlater
  have hgrows := (mid.grows_step (P := P) (.rotate new generation draws)).trans hlater
  have hcmid : Committing P mid.keys mid.calls := by
    intro call hcall key hkey
    exact hc call (hgrows.calls call hcall) key (hgrows.keys key hkey)
  have hinv : mid.Inv P := by
    subst hmid
    exact History.inv_run hP hcmid hstart
  obtain ⟨call, hcall, mk, hmk, ⟨hkey, -⟩, hbytes, -⟩ := hinv.wrapped slot hslot
  -- the master key is none of the keys before the rotation
  have hfresh : h.master.raw ∈ h.keys ∧ h.master.raw ≠ mk.raw := by
    obtain ⟨more, hmore, hmaster⟩ := hlater.masters
    have hmasters : h.masters = mid.masters ++ (new :: more) := by
      rw [hmore]
      simp [History.step]
    have hmem : h.master ∈ new :: more := by
      rcases hmaster with ⟨-, heq⟩ | hmem
      · rw [heq]
        exact List.mem_cons_self
      · exact List.mem_cons_of_mem _ hmem
    have hnodup : (mid.masters.map MasterKey.raw ++ (new :: more).map MasterKey.raw).Nodup := by
      rw [← List.map_append, ← hmasters]
      exact (List.nodup_append.mp hkeys).1
    refine ⟨List.mem_append_left _ (List.mem_map_of_mem ?_), ?_⟩
    · rw [hmasters]
      exact List.mem_append_right _ hmem
    · intro heq
      exact (List.nodup_append.mp hnodup).2.2 _ (List.mem_map_of_mem hmk) _
        (List.mem_map_of_mem hmem) heq.symm
  cases hopen : s.openAt P h.master b with
  | error e => exact ⟨e, rfl⟩
  | ok m =>
      obtain ⟨dek, hdek, -⟩ := bind_eq_ok.mp hopen
      obtain ⟨material, hmaterial, -⟩ := bind_eq_ok.mp hdek
      rw [aeadOpen_eq_ok, hstale, hbytes] at hmaterial
      obtain ⟨heq, -⟩ := hc call (hgrows.calls call hcall) _ hfresh.1 _ _ _ hmaterial
      exact absurd (heq.trans hkey) hfresh.2

end Slots

end Core
end Secretbae
