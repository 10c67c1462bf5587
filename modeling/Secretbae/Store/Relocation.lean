import Secretbae.Core.Slots
import Secretbae.Store.Invariant

/-!
# Relocated and replayed columns

Whoever can write to the database can fill the blobs of a row as they like:
with those of another row, with older ones of the same row, or with bytes of
their own.  `row_opens_only_in_its_slot` says what `read_version` and `open`
make of such a row.
-/

namespace Secretbae
namespace Storage

open Lib Proto Core

/-- `build_stored_version`, then `SealedVersion::open` at the slot that was asked for. -/
def openRow (P : Primitives) (master : MasterKey) (id : Uuid) (version : Version)
    (row : VersionRow) : Except StoreError Bytes := do
  let stored ← buildStoredVersion id version row
  liftCrypto (stored.sealed.openAt P master stored.binding)

section Relocation

variable {P : Primitives}

theorem openRow_eq_ok
    {master : MasterKey} {id : Uuid} {version : Version} {row : VersionRow} {m : Bytes}
    (h : openRow P master id version row = .ok m) :
    ∃ s, row.Holds s ∧ s.openAt P master ⟨id, version.get⟩ = .ok m := by
  obtain ⟨stored, hstored, hopen⟩ := bind_eq_ok.mp h
  obtain ⟨-, hholds, hbinding, -⟩ := buildStoredVersion_eq_ok hstored
  rw [hbinding] at hopen
  exact ⟨stored.sealed, hholds, liftCrypto_eq_ok.mp hopen⟩

/--
Whatever is in the columns of a row, it opens only to what was sealed for its
slot, and not with a wrapped key from before a rotation.
-/
theorem row_opens_only_in_its_slot
    (hP : AeadCorrect P) {first : MasterKey} {generation : UInt32} {ops : List SlotOp}
    {h : History}
    (hrun : h = run (History.step P) (History.start first generation) ops)
    (hbindings : (h.slots.map Slot.binding).Nodup)
    (hkeys : h.keys.Nodup)
    (hc : Committing P h.keys h.calls)
    (id : Uuid) (version : Version) (row : VersionRow)
    (hcolumns : ∀ bytes, row.ciphertext = some bytes ∨ row.wrappedDek = some bytes →
      Unforged P h.keys h.calls bytes) :
    ((∃ e, openRow P h.master id version row = .error e) ∨
      ∃ slot ∈ h.slots, slot.binding = ⟨id, version.get⟩ ∧
        (∀ other ∈ h.slots, other.binding = ⟨id, version.get⟩ → other = slot) ∧
        openRow P h.master id version row = .ok slot.plaintext) ∧
    ∀ before new g draws after slot,
      ops = before ++ .rotate new g draws :: after →
      slot ∈ (run (History.step P) (History.start first generation) before).slots →
      row.wrappedDek = some slot.sealed.key.wrappedDek →
      ∃ e, openRow P h.master id version row = .error e := by
  have hinv : h.Inv P := by
    subst hrun
    exact History.inv_run hP hc (History.inv_start first generation)
  cases hopen : openRow P h.master id version row with
  | error e =>
      exact ⟨.inl ⟨e, rfl⟩, fun _ _ _ _ _ _ _ _ _ => ⟨e, rfl⟩⟩
  | ok m =>
      obtain ⟨s, ⟨-, hciphertext, -, hwrapped, -⟩, hs⟩ := openRow_eq_ok hopen
      refine ⟨.inr ?_, ?_⟩
      · obtain ⟨slot, hslot, hbinding, rfl⟩ :=
          hinv.opens_to hP hc hkeys (hcolumns _ (.inr hwrapped)) (hcolumns _ (.inl hciphertext))
            hs
        refine ⟨slot, hslot, hbinding, ?_, rfl⟩
        intro other hother hsame
        exact List.inj_on_of_nodup_map hbindings hother hslot (hsame.trans hbinding.symm)
      · intro before new g draws after slot hops hslot hstale
        have hkey : s.key.wrappedDek = slot.sealed.key.wrappedDek := by
          rw [hwrapped, Option.some.injEq] at hstale
          exact hstale
        obtain ⟨e, he⟩ := History.stale_key_fails hP (hops ▸ hrun) hc hkeys
          (History.inv_start first generation) hslot hkey ⟨id, version.get⟩
        cases hs.symm.trans he

end Relocation

section Witnesses

/-- Bytes in a form that shows where they end. -/
def framed : Bytes → Bytes
  | [] => [0]
  | b :: bs => 1 :: b :: framed bs

theorem framed_inj
    {as bs xs ys : Bytes}
    (h : framed as ++ xs = framed bs ++ ys) :
    as = bs ∧ xs = ys := by
  induction as generalizing bs with
  | nil =>
      cases bs with
      | nil => simpa [framed] using h
      | cons b bs => simp [framed] at h
  | cons a as ih =>
      cases bs with
      | nil => simp [framed] at h
      | cons b bs =>
          simp only [framed, List.cons_append, List.cons.injEq, true_and] at h
          obtain ⟨rfl, hrest⟩ := h
          obtain ⟨rfl, rfl⟩ := ih hrest
          exact ⟨rfl, rfl⟩

/-- What a ciphertext of `openPrimitives` starts with. -/
def header (k : Key32) (n : Nonce) (aad : Bytes) : Bytes :=
  framed k.toList ++ (framed n.toList ++ framed aad)

/-- An AEAD whose ciphertexts spell out the key, the nonce and the associated data. -/
def openPrimitives : Primitives where
  encrypt k n aad m := header k n aad ++ m
  decrypt k n aad c :=
    if c.take (header k n aad).length = header k n aad then
      some (c.drop (header k n aad).length)
    else none
  keyedHash := samplePrimitives.keyedHash
  hkdf := samplePrimitives.hkdf

theorem openPrimitives_correct :
    AeadCorrect openPrimitives where
  decrypt_encrypt := by
    intro k n aad m
    simp [openPrimitives]
  encrypt_ne_nil := by
    intro k n aad m h
    have hlen := congrArg List.length h
    cases hk : k.toList <;> simp [openPrimitives, header, framed, hk] at hlen

theorem openPrimitives_committing
    (keys : List Key32) (calls : List Call) :
    Committing openPrimitives keys calls := by
  intro call _ key _ nonce aad m h
  simp only [openPrimitives, Call.output] at h
  split at h
  · rename_i htake
    have hsplit := List.take_append_drop (header key nonce aad).length
      (header call.key call.nonce call.aad ++ call.plaintext)
    rw [htake] at hsplit
    simp only [header, List.append_assoc] at hsplit
    obtain ⟨hkey, hsplit⟩ := framed_inj hsplit
    obtain ⟨hnonce, hsplit⟩ := framed_inj hsplit
    obtain ⟨haad, -⟩ := framed_inj hsplit
    exact ⟨List.Vector.toList_injective hkey, List.Vector.toList_injective hnonce, haad⟩
  · cases h

def sampleBinding (version : UInt32) : VersionBinding :=
  ⟨sampleUuid 5, version⟩

/-- Two versions of one secret. -/
def sampleSeals : List SlotOp :=
  [.sealVersion ⟨some (sampleKey 7), some (sampleNonce 8), some (sampleNonce 9)⟩ (sampleBinding 1) [1, 2, 3],
    .sealVersion ⟨some (sampleKey 10), some (sampleNonce 11), some (sampleNonce 12)⟩
      (sampleBinding 2) [4, 5]]

/-- Both are moved to a second master key. -/
def sampleRotation : SlotOp :=
  .rotate ⟨sampleKey 2⟩ 2 fun b => some (sampleNonce (20 + b.version.toNat))

def sampleSealed : History :=
  run (History.step openPrimitives) (History.start ⟨sampleKey 1⟩ 1) sampleSeals

def sampleRotated : History :=
  run (History.step openPrimitives) (History.start ⟨sampleKey 1⟩ 1)
    (sampleSeals ++ [sampleRotation])

/-- The row of a version with the columns `s`. -/
def replayedRow (version : Version) (s : SealedVersion) : VersionRow :=
  WriteSlot.row ⟨Store.empty, sampleUuid 5, version, 10⟩ s ⟨none, none⟩ ⟨100, by decide⟩

theorem unforged_of_output
    {P : Primitives} {keys : List Key32} {calls : List Call} {bytes : Bytes}
    (h : bytes ∈ calls.map (Call.output P)) :
    Unforged P keys calls bytes := by
  obtain ⟨call, hcall, heq⟩ := List.mem_map.mp h
  intro _ _ _ _ _ _
  exact ⟨call, hcall, heq⟩

/-- The columns a version had before a rotation do not open after it. -/
theorem replayed_row_fails :
    sampleSealed.slots.Forall fun slot => ∃ e,
      openRow openPrimitives sampleRotated.master (sampleUuid 5) ⟨1, by decide⟩
        (replayedRow ⟨1, by decide⟩ slot.sealed) = .error e := by
  refine List.forall_iff_forall_mem.mpr ?_
  intro slot hslot
  have houtputs : ∀ slot ∈ sampleSealed.slots,
      slot.sealed.ciphertext ∈ sampleRotated.calls.map (Call.output openPrimitives) ∧
        slot.sealed.key.wrappedDek ∈ sampleRotated.calls.map (Call.output openPrimitives) := by
    decide +kernel
  refine (row_opens_only_in_its_slot openPrimitives_correct (h := sampleRotated) rfl
    (by decide +kernel) (by decide +kernel) (openPrimitives_committing _ _) (sampleUuid 5)
    ⟨1, by decide⟩ (replayedRow ⟨1, by decide⟩ slot.sealed) ?_).2 sampleSeals _ _ _ [] slot rfl
    hslot rfl
  rintro bytes (hbytes | hbytes)
  · cases hbytes
    exact unforged_of_output (houtputs slot hslot).1
  · cases hbytes
    exact unforged_of_output (houtputs slot hslot).2

end Witnesses

end Storage
end Secretbae
