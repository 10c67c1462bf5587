import Secretbae.Store.Openable
import Secretbae.Store.Plain

/-!
# Vaults refine directories

A run of a vault is an execution of the directory of its plaintexts: each write,
rollback or deletion that succeeds is one operation there, with the same result,
and whatever fails, all work on tags and every rotation of the master key is
none.  What a vault can be read to hold is what the directory shows.
-/

namespace Secretbae
namespace Storage

open Lib Proto Core

section Events

variable (P : Primitives)

/-- What an operation on a vault is in the directory, given how it ends. -/
def VaultOp.event (vault : Vault) : VaultOp → Option PlainEvent
  | .write path freshId began draws plaintext info now =>
      match vault.write P path freshId began draws plaintext info now with
      | .ok (_, version) => some (.wrote path version.toNat (some plaintext))
      | .error _ => none
  | .rollback path target now =>
      match Storage.rollback vault.store path target now with
      | .ok _ => some (.rolledBack path target.toNat)
      | .error _ => none
  | .deleteVersion path selector mode now =>
      match Storage.deleteVersion vault.store path selector mode now with
      | .ok (_, version) => some (.removed path selector.asked mode.removal version.toNat)
      | .error _ => none
  | .addTags .. | .removeTags .. | .rotate .. => none

/-- The operations of a run. -/
def VaultOp.events : Vault → List VaultOp → List PlainEvent
  | _, [] => []
  | vault, op :: ops => (op.event P vault).toList ++ events (op.step P vault) ops

/-- `read_version` and `open`, for any selector. -/
def Vault.openSelected (vault : Vault) (path : SecretPath) (selector : VersionSelector) :
    Except StoreError (Version × Bytes) := do
  let stored ← readVersion vault.store path selector
  let plaintext ← liftCrypto (stored.sealed.openAt P vault.master stored.binding)
  .ok (stored.info.version, plaintext)

def Vault.plain (vault : Vault) : Directory SecretPath (Option Bytes) :=
  vault.store.plain P vault.master

end Events

section Refinement

variable {P : Primitives}

abbrev PlainExecutes :=
  Directory.Executes (K := SecretPath) (α := Option Bytes) defaultMaxVersions.toNat

theorem VaultOp.executes_step
    (hP : AeadCorrect P)
    (vault : Vault) (op : VaultOp) :
    PlainExecutes (vault.plain P) (op.event P vault).toList ((op.step P vault).plain P) := by
  cases op with
  | write path freshId began draws plaintext info now =>
      simp only [VaultOp.event, VaultOp.step]
      cases hwrite : vault.write P path freshId began draws plaintext info now with
      | error e => exact .nil _
      | ok written => exact .one (does_write hP hwrite)
  | rollback path target now =>
      simp only [VaultOp.event, VaultOp.step]
      cases hroll : Storage.rollback vault.store path target now with
      | error e => exact .nil _
      | ok store => exact .one (does_rollback hroll)
  | deleteVersion path selector mode now =>
      simp only [VaultOp.event, VaultOp.step]
      cases hdel : Storage.deleteVersion vault.store path selector mode now with
      | error e => exact .nil _
      | ok removed => exact .one (does_deleteVersion hdel)
  | addTags path tags now =>
      simp only [VaultOp.event, VaultOp.step]
      cases hadd : Storage.addTags vault.store path tags now with
      | error e => exact .nil _
      | ok store =>
          rw [Vault.plain, Vault.plain, (addTags_frame hadd).plain_eq]
          exact .nil _
  | removeTags path selectors now =>
      simp only [VaultOp.event, VaultOp.step]
      cases hremove : Storage.removeTags vault.store path selectors now with
      | error e => exact .nil _
      | ok store =>
          rw [Vault.plain, Vault.plain, (removeTags_frame hremove).plain_eq]
          exact .nil _
  | rotate successor newSealedMaster draws =>
      simp only [VaultOp.event, VaultOp.step]
      cases hrotate : vault.rotate P successor newSealedMaster draws with
      | error e => exact .nil _
      | ok rotated =>
          obtain ⟨⟨store, report⟩, hrekey, h⟩ := bind_eq_ok.mp hrotate
          cases h
          rw [Vault.plain, Vault.plain, plain_rekeyWith hP hrekey]
          exact .nil _

theorem VaultOp.executes_run
    (hP : AeadCorrect P)
    (vault : Vault) (ops : List VaultOp) :
    PlainExecutes (vault.plain P) (VaultOp.events P vault ops)
      ((run (VaultOp.step P) vault ops).plain P) := by
  induction ops generalizing vault with
  | nil =>
      exact .nil _
  | cons op ops ih =>
      exact (executes_step hP vault op).append (ih (op.step P vault))

/-- A row whose contents are known is read and opened. -/
theorem readVersion_of_cell
    {st : Store} {master : MasterKey} {path : SecretPath} {selector : VersionSelector}
    {s : SecretRow} {v : Version} {x : Bytes}
    (hinv : st.Inv)
    (hs : st.secretByPath path = some s)
    (hpick : selector.pick s = some v)
    (hcell : st.cell P master s.id v.toNat = some (.live (some x))) :
    ∃ stored, readVersion st path selector = .ok stored ∧ stored.info.version = v ∧
      stored.sealed.openAt P master stored.binding = .ok x := by
  obtain ⟨r, hr, hid, hnum, hrow⟩ := Store.cell_eq_some_iff.mp hcell
  have hversion : r.version = v := Version.toNat_inj.mp hnum
  have hactive : r.state = .active := by
    cases hstate : r.state with
    | active => rfl
    | deleted => simp [VersionRow.cell, hstate] at hrow
    | destroyed => simp [VersionRow.cell, hstate] at hrow
  rw [VersionRow.cell_of_active hactive] at hrow
  have hcontents : r.contents P master = some x := by
    injection hrow
  obtain ⟨sealed, hholds⟩ : ∃ sealed, r.Holds sealed := by
    by_contra hnone
    rw [VersionRow.contents_eq_none hnone] at hcontents
    cases hcontents
  rw [VersionRow.contents_of_holds hholds] at hcontents
  have hbuild := buildStoredVersion_of_holds s.id v hactive hholds (hinv.rows r hr).time
  have hfind : st.versions.find? (s.id, v) = some r :=
    Table.find?_eq_some_iff.mpr ⟨hr, Prod.ext hid hversion⟩
  have hread : readVersion st path selector = buildStoredVersion s.id v r := by
    simp only [readVersion, resolve, hs, hpick, hfind, okOr, bind, Except.bind]
  refine ⟨_, hread.trans hbuild, rfl, ?_⟩
  have hbinding : r.binding = ⟨s.id, v.get⟩ := by
    rw [VersionRow.binding, hid, hversion]
  rw [hbinding] at hcontents
  cases hopen : sealed.openAt P master ⟨s.id, v.get⟩ with
  | ok y =>
      rw [hopen] at hcontents
      cases hcontents
      rfl
  | error e =>
      rw [hopen] at hcontents
      cases hcontents

/-- A vault is read exactly as its directory is. -/
theorem openSelected_eq_ok_iff
    {vault : Vault} {path : SecretPath} {selector : VersionSelector} {v : Version} {x : Bytes}
    (hinv : vault.store.Inv) :
    vault.openSelected P path selector = .ok (v, x) ↔
      PlainDoes (vault.plain P) (.read path selector.asked v.toNat (some x))
        (vault.plain P) := by
  constructor
  · intro h
    obtain ⟨stored, hread, h⟩ := bind_eq_ok.mp h
    obtain ⟨plaintext, hopen, h⟩ := bind_eq_ok.mp h
    cases h
    exact does_read hread (liftCrypto_eq_ok.mp hopen)
  · intro h
    obtain ⟨r, hr, hnames, hlive⟩ := h.of_read
    obtain ⟨s, hs, rfl⟩ := Option.map_eq_some_iff.mp hr
    have hpick := Store.pick_of_names hnames
    obtain ⟨stored, hread, rfl, hopen⟩ := readVersion_of_cell hinv hs hpick hlive
    exact bind_eq_ok.mpr ⟨stored, hread, bind_eq_ok.mpr ⟨x, liftCrypto_eq_ok.mpr hopen, rfl⟩⟩

/--
From any sound vault a run of operations is the execution, in the directory of
its plaintexts, of those that succeed, with their results.  Afterwards a version
can be read and opened exactly when the directory shows it, with the value it
shows.
-/
theorem vault_refines_directory
    (hP : AeadCorrect P)
    {vault : Vault}
    (hinv : vault.store.Inv)
    (hopen : vault.store.AllOpen P vault.master)
    (ops : List VaultOp) :
    let later := run (VaultOp.step P) vault ops
    PlainExecutes (vault.plain P) (VaultOp.events P vault ops) (later.plain P) ∧
    ∀ path selector v x,
      later.openSelected P path selector = .ok (v, x) ↔
        PlainDoes (later.plain P) (.read path selector.asked v.toNat (some x))
          (later.plain P) := by
  intro later
  have hsound : later.store.Inv ∧ later.store.AllOpen P later.master := by
    refine run_invariant
      (fun v : Vault => v.store.Inv ∧ v.store.AllOpen P v.master) (fun _ => True) ?_
      (fun _ _ => trivial) ⟨hinv, hopen⟩
    rintro v op - ⟨hinv, hopen⟩
    exact ⟨v.inv_step hinv op, v.allOpen_step hP hopen op⟩
  exact ⟨VaultOp.executes_run hP vault ops, fun _ _ _ _ => openSelected_eq_ok_iff hsound.1⟩

/-- Two writes of one path, and a rotation between them. -/
def sampleOps : List VaultOp :=
  [.write samplePath (sampleUuid 5) (sampleTime 100) sampleDraws [1, 2, 3] ⟨none, none⟩
      (sampleTime 100),
    .rotate ⟨sampleKey 2⟩ ⟨.keyfile, 2, sampleNonce 0, [1]⟩ fun i => some (sampleNonce (20 + i)),
    .write samplePath (sampleUuid 6) (sampleTime 101) sampleDraws [4] ⟨none, none⟩
      (sampleTime 101)]

theorem vault_refines_directory_sample :
    (run (VaultOp.step samplePrimitives) sampleVault sampleOps).master = ⟨sampleKey 2⟩ ∧
      (VaultOp.events samplePrimitives sampleVault sampleOps).map Event.number? =
        [some (samplePath, 1), some (samplePath, 2)] ∧
      PlainExecutes (sampleVault.plain samplePrimitives)
        (VaultOp.events samplePrimitives sampleVault sampleOps)
        ((run (VaultOp.step samplePrimitives) sampleVault sampleOps).plain samplePrimitives) := by
  have hempty : sampleVault.store.Inv ∧
      sampleVault.store.AllOpen samplePrimitives sampleVault.master :=
    Store.sound_of_no_secrets rfl
  exact ⟨by decide +kernel, by decide +kernel,
    (vault_refines_directory samplePrimitives_correct hempty.1 hempty.2 sampleOps).1⟩

end Refinement

end Storage
end Secretbae
