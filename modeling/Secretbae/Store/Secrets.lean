import Secretbae.Store.Schema
import Mathlib.Data.List.MinMax

/-!
# Secret and version operations

`begin_write` with `commit`, `read_version`, `rollback` and `delete_version`.
Clock readings and fresh ids are arguments.  An operation that returns an error
has committed nothing.
-/

namespace Secretbae
namespace Storage

open Lib Proto Core

def defaultMaxVersions : UInt32 := 10

/-- `Option::ok_or`. -/
def okOr {α : Type} (o : Option α) (e : StoreError) : Except StoreError α :=
  match o with
  | some a => .ok a
  | none => .error e

/-- `?` on a result of `sbae-core`. -/
def liftCrypto {α : Type} (x : Except Core.Error α) : Except StoreError α :=
  x.mapError .crypto

/-- `?` on a result of `sbae-proto`. -/
def liftProto {α : Type} (x : Except ProtoError α) : Except StoreError α :=
  x.mapError .proto

/-- Provenance recorded against a new version. -/
structure WriteMeta where
  createdBy : Option String
  comment : Option String

/-- Which version of a secret an operation refers to. -/
inductive VersionSelector where
  | current
  | exact (version : Version)
deriving DecidableEq

inductive DeleteMode where
  | soft
  | destroy
deriving DecidableEq

/-- Metadata of one version. -/
structure VersionInfo where
  version : Version
  state : VersionState
  createdAt : UnixTime
  createdBy : Option String
  comment : Option String
deriving DecidableEq

/-- A version's ciphertext with the binding needed to open it. -/
structure StoredVersion where
  binding : VersionBinding
  sealed : SealedVersion
  info : VersionInfo
deriving DecidableEq

/-- A version number reserved in an open transaction whose state is `tx`. -/
structure WriteSlot where
  tx : Store
  secretId : Uuid
  version : Version
  maxVersions : UInt32

/-- The coordinates the caller must seal against. -/
def WriteSlot.binding (slot : WriteSlot) : VersionBinding :=
  ⟨slot.secretId, slot.version.get⟩

/-- `state = 'destroyed'` with every blob cleared. -/
def VersionRow.destroy (r : VersionRow) : VersionRow :=
  { r with
    state := .destroyed
    nonce := none
    ciphertext := none
    dekNonce := none
    wrappedDek := none
    check := .inl rfl }

/-- `state = 'deleted'`, for an active row. -/
def VersionRow.softDelete (r : VersionRow) : VersionRow :=
  if h : r.state = .active then
    { r with
      state := .deleted
      check := by
        rcases r.check with hd | hc
        · rw [h] at hd
          cases hd
        · exact .inr hc }
  else r

theorem VersionRow.destroy_slot
    (r : VersionRow) :
    r.destroy.slot = r.slot := by
  rfl

theorem VersionRow.softDelete_slot
    (r : VersionRow) :
    r.softDelete.slot = r.slot := by
  unfold VersionRow.softDelete
  split <;> rfl

/-- Rows that have fallen out of the retention window ending at `keep`. -/
def outOfWindow (id : Uuid) (keep : Version) (oldestToKeep : UInt32) (r : VersionRow) :
    Bool :=
  decide (r.secretId = id ∧ r.state ≠ .destroyed ∧ r.version ≠ keep ∧
    r.version.get.toNat ≤ oldestToKeep.toNat)

/-- `prune`: destroy versions outside the retention window, never `keep`. -/
def prune (st : Store) (id : Uuid) (keep : Version) (maxVersions : UInt32) : Store :=
  if keep.get.toNat < maxVersions.toNat then st
  else
    st.updateVersions
      (fun r => if outOfWindow id keep (keep.get - maxVersions) r then r.destroy else r)
      (by intro r; split <;> rfl)

/-- `UPDATE secrets SET current_version = …, updated_at = … WHERE id = …`. -/
def Store.pointCurrent (st : Store) (id : Uuid) (current : Option Version)
    (updatedAt : Int64) : Store :=
  st.updateSecrets
    (fun s =>
      if s.id = id then { s with currentVersion := current, updatedAt := updatedAt } else s)
    (by intro s; split <;> rfl)
    (by intro s; split <;> rfl)

/-- The row of a secret that `begin_write` creates. -/
def newSecret (path : SecretPath) (freshId : Uuid) (now : UnixTime) : SecretRow where
  id := freshId
  path := path
  currentVersion := none
  maxVersions := defaultMaxVersions
  createdAt := now.seconds
  updatedAt := now.seconds

/-- The first half of `begin_write`: find the secret or create it. -/
def findOrCreate (st : Store) (path : SecretPath) (freshId : Uuid) (now : UnixTime) :
    Except StoreError (Store × Uuid × UInt32) :=
  match st.secretByPath path with
  | some s => .ok (st, s.id, s.maxVersions)
  | none => do
      let tx ← st.insertSecret (newSecret path freshId now)
      .ok (tx, freshId, defaultMaxVersions)

/-- `Store::begin_write`, with the id and the time a new secret would get. -/
def beginWrite (st : Store) (path : SecretPath) (freshId : Uuid) (now : UnixTime) :
    Except StoreError WriteSlot := do
  let (tx, secretId, maxVersions) ← findOrCreate st path freshId now
  let version ← liftProto (Version.new (UInt32.ofNat (tx.highestVersion secretId) + 1))
  .ok { tx, secretId, version, maxVersions }

/-- The row that `commit` inserts. -/
def WriteSlot.row (slot : WriteSlot) (sealed : SealedVersion) (info : WriteMeta)
    (now : UnixTime) : VersionRow where
  secretId := slot.secretId
  version := slot.version
  state := .active
  nonce := some sealed.nonce.toList
  ciphertext := some sealed.ciphertext
  dekNonce := some sealed.key.dekNonce.toList
  wrappedDek := some sealed.key.wrappedDek
  mkGeneration := sealed.key.mkGeneration
  createdAt := now.seconds
  createdBy := info.createdBy
  comment := info.comment
  check := .inr (by simp)

/-- `WriteSlot::commit`. -/
def WriteSlot.commit (slot : WriteSlot) (sealed : SealedVersion) (info : WriteMeta)
    (now : UnixTime) : Except StoreError (Store × Version) := do
  let tx ← slot.tx.insertVersion (slot.row sealed info now)
  let tx := tx.pointCurrent slot.secretId (some slot.version) now.seconds
  .ok (prune tx slot.secretId slot.version slot.maxVersions, slot.version)

/-- The version of `s` that a selector names. -/
def VersionSelector.pick (selector : VersionSelector) (s : SecretRow) : Option Version :=
  match selector with
  | .exact version => some version
  | .current => s.currentVersion

/-- `Store::resolve`: a concrete version, not necessarily readable. -/
def resolve (st : Store) (path : SecretPath) (selector : VersionSelector) :
    Except StoreError (Uuid × Version) := do
  let s ← okOr (st.secretByPath path) .notFound
  let version ← okOr (selector.pick s) .notFound
  .ok (s.id, version)

/-- `Store::secret_id`. -/
def secretId (st : Store) (path : SecretPath) : Except StoreError Uuid := do
  let s ← okOr (st.secretByPath path) .notFound
  .ok s.id

/-- `build_stored_version`. -/
def buildStoredVersion (id : Uuid) (version : Version) (r : VersionRow) :
    Except StoreError StoredVersion :=
  if r.state.isReadable then do
    let missing : StoreError := .corrupt "secret version"
    let nonce ← liftCrypto (Nonce.fromSlice (← okOr r.nonce missing))
    let ciphertext ← okOr r.ciphertext missing
    let dekNonce ← liftCrypto (Nonce.fromSlice (← okOr r.dekNonce missing))
    let wrappedDek ← okOr r.wrappedDek missing
    let createdAt ← timestamp r.createdAt
    .ok
      { binding := ⟨id, version.get⟩
        sealed :=
          { nonce, ciphertext
            key := { dekNonce, wrappedDek, mkGeneration := r.mkGeneration } }
        info :=
          { version, state := r.state, createdAt, createdBy := r.createdBy
            comment := r.comment } }
  else .error .notFound

/-- `Store::read_version`. -/
def readVersion (st : Store) (path : SecretPath) (selector : VersionSelector) :
    Except StoreError StoredVersion := do
  let (id, version) ← resolve st path selector
  let r ← okOr (st.versions.find? (id, version)) .notFound
  buildStoredVersion id version r

/-- `Store::rollback`. -/
def rollback (st : Store) (path : SecretPath) (target : Version) (now : UnixTime) :
    Except StoreError Store := do
  let id ← secretId st path
  let r ← okOr (st.versions.find? (id, target)) .notFound
  if r.state.isReadable then .ok (st.pointCurrent id (some target) now.seconds)
  else .error .notFound

/-- `SELECT MAX(version) … WHERE state = 'active'`. -/
def Store.maxActive (st : Store) (id : Uuid) : Option Version :=
  (((st.versionsOf id).filter (fun r => decide (r.state = .active))).map
    VersionRow.version).argmax Version.toNat

/-- The `WHERE` clause of the two statements of `delete_version`. -/
def DeleteMode.selects (mode : DeleteMode) (slot : Uuid × Version) (r : VersionRow) : Bool :=
  match mode with
  | .soft => decide (r.slot = slot ∧ r.state = .active)
  | .destroy => decide (r.slot = slot ∧ r.state ≠ .destroyed)

/-- The `SET` clause of the two statements of `delete_version`. -/
def DeleteMode.apply (mode : DeleteMode) (r : VersionRow) : VersionRow :=
  match mode with
  | .soft => r.softDelete
  | .destroy => r.destroy

theorem DeleteMode.apply_slot
    (mode : DeleteMode) (r : VersionRow) :
    (mode.apply r).slot = r.slot := by
  cases mode with
  | soft => exact r.softDelete_slot
  | destroy => exact r.destroy_slot

/-- The first statement of `delete_version`. -/
def removeVersion (st : Store) (slot : Uuid × Version) (mode : DeleteMode) : Store :=
  st.updateVersions (fun r => if mode.selects slot r then mode.apply r else r)
    (by
      intro r
      split
      · exact mode.apply_slot r
      · rfl)

/-- `Store::delete_version`. -/
def deleteVersion (st : Store) (path : SecretPath) (selector : VersionSelector)
    (mode : DeleteMode) (now : UnixTime) : Except StoreError (Store × Version) := do
  let (id, version) ← resolve st path selector
  let changed := st.versions.rows.countP (mode.selects (id, version))
  let st' := removeVersion st (id, version) mode
  if changed = 0 then .error .notFound
  else .ok (st'.pointCurrent id (st'.maxActive id) now.seconds, version)

section Specs

theorem okOr_eq_ok
    {α : Type} {o : Option α} {e : StoreError} {a : α} :
    okOr o e = .ok a ↔ o = some a := by
  cases o <;> simp [okOr]

theorem liftCrypto_eq_ok
    {α : Type} {x : Except Core.Error α} {a : α} :
    liftCrypto x = .ok a ↔ x = .ok a := by
  cases x <;> simp [liftCrypto, Except.mapError]

theorem liftProto_eq_ok
    {α : Type} {x : Except ProtoError α} {a : α} :
    liftProto x = .ok a ↔ x = .ok a := by
  cases x <;> simp [liftProto, Except.mapError]

theorem Store.mem_pointCurrent
    {st : Store} {id : Uuid} {current : Option Version} {at_ : Int64} {s : SecretRow} :
    s ∈ (st.pointCurrent id current at_).secrets.rows ↔
      ∃ s₀ ∈ st.secrets.rows,
        (if s₀.id = id then { s₀ with currentVersion := current, updatedAt := at_ }
          else s₀) = s := by
  simp [Store.pointCurrent, Store.updateSecrets]

@[simp] theorem Store.pointCurrent_versions
    (st : Store) (id : Uuid) (current : Option Version) (at_ : Int64) :
    (st.pointCurrent id current at_).versions = st.versions := by
  rfl

/-- Everything a successful `begin_write` establishes. -/
theorem beginWrite_eq_ok
    {st : Store} {path : SecretPath} {freshId : Uuid} {now : UnixTime} {slot : WriteSlot}
    (h : beginWrite st path freshId now = .ok slot) :
    slot.version.get = UInt32.ofNat (slot.tx.highestVersion slot.secretId) + 1 ∧
      slot.tx.versions = st.versions ∧
      ((∃ s, st.secretByPath path = some s ∧ slot.tx = st ∧ slot.secretId = s.id ∧
          slot.maxVersions = s.maxVersions) ∨
        (st.secretByPath path = none ∧ slot.secretId = freshId ∧
          (∀ s ∈ st.secrets.rows, s.id ≠ freshId) ∧
          slot.tx.secrets.rows = st.secrets.rows ++ [newSecret path freshId now])) := by
  obtain ⟨⟨tx, id, maxVersions⟩, htx, h⟩ := bind_eq_ok.mp h
  obtain ⟨version, hversion, h⟩ := bind_eq_ok.mp h
  cases h
  have hget := Version.new_eq_ok.mp (liftProto_eq_ok.mp hversion)
  unfold findOrCreate at htx
  split at htx
  · rename_i s hs
    cases htx
    exact ⟨hget.symm, rfl, .inl ⟨s, hs, rfl, rfl, rfl⟩⟩
  · rename_i hnone
    obtain ⟨tx', hins, htx⟩ := bind_eq_ok.mp htx
    cases htx
    obtain ⟨hids, -, hrows, hversions, -⟩ := Store.insertSecret_eq_ok hins
    exact ⟨hget.symm, hversions, .inr ⟨hnone, rfl, hids, hrows⟩⟩

/-- Everything a successful `commit` does. -/
theorem WriteSlot.commit_eq_ok
    {slot : WriteSlot} {sealed : SealedVersion} {info : WriteMeta} {now : UnixTime}
    {st : Store} {v : Version}
    (h : slot.commit sealed info now = .ok (st, v)) :
    v = slot.version ∧
      ∃ mid, slot.tx.insertVersion (slot.row sealed info now) = .ok mid ∧
        st = prune (mid.pointCurrent slot.secretId (some slot.version) now.seconds)
          slot.secretId slot.version slot.maxVersions := by
  obtain ⟨mid, hmid, h⟩ := bind_eq_ok.mp h
  cases h
  exact ⟨rfl, mid, hmid, rfl⟩

theorem resolve_eq_ok
    {st : Store} {path : SecretPath} {selector : VersionSelector} {id : Uuid}
    {version : Version} :
    resolve st path selector = .ok (id, version) ↔
      ∃ s, st.secretByPath path = some s ∧ s.id = id ∧
        selector.pick s = some version := by
  constructor
  · intro h
    obtain ⟨s, hs, h⟩ := bind_eq_ok.mp h
    obtain ⟨v, hv, h⟩ := bind_eq_ok.mp h
    cases h
    exact ⟨s, okOr_eq_ok.mp hs, rfl, okOr_eq_ok.mp hv⟩
  · rintro ⟨s, hs, rfl, hsel⟩
    simp [resolve, hs, hsel, okOr, bind, Except.bind]

/-- Everything a successful `rollback` does. -/
theorem rollback_eq_ok
    {st st' : Store} {path : SecretPath} {target : Version} {now : UnixTime}
    (h : rollback st path target now = .ok st') :
    ∃ s r, st.secretByPath path = some s ∧ r ∈ st.versions.rows ∧ r.slot = (s.id, target) ∧
      r.state = .active ∧ st' = st.pointCurrent s.id (some target) now.seconds := by
  obtain ⟨id, hid, h⟩ := bind_eq_ok.mp h
  obtain ⟨s, hs, hid⟩ := bind_eq_ok.mp hid
  cases hid
  obtain ⟨r, hr, h⟩ := bind_eq_ok.mp h
  obtain ⟨hmem, hslot⟩ := Table.find?_eq_some_iff.mp (okOr_eq_ok.mp hr)
  split at h
  · rename_i hread
    cases h
    exact ⟨s, r, okOr_eq_ok.mp hs, hmem, hslot, (VersionState.isReadable_iff _).mp hread,
      rfl⟩
  · cases h

/-- Everything a successful `delete_version` does. -/
theorem deleteVersion_eq_ok
    {st st' : Store} {path : SecretPath} {selector : VersionSelector} {mode : DeleteMode}
    {now : UnixTime} {v : Version}
    (h : deleteVersion st path selector mode now = .ok (st', v)) :
    ∃ s, st.secretByPath path = some s ∧
      st' = (removeVersion st (s.id, v) mode).pointCurrent s.id
        ((removeVersion st (s.id, v) mode).maxActive s.id) now.seconds := by
  obtain ⟨⟨id, version⟩, hres, h⟩ := bind_eq_ok.mp h
  obtain ⟨s, hs, rfl, -⟩ := resolve_eq_ok.mp hres
  dsimp only at h
  split at h
  · cases h
  · cases h
    exact ⟨s, hs, rfl⟩

theorem Store.maxActive_eq_some
    {st : Store} {id : Uuid} {v : Version}
    (h : st.maxActive id = some v) :
    ∃ r ∈ st.versions.rows, r.secretId = id ∧ r.version = v ∧ r.state = .active := by
  have hmem := List.argmax_mem h
  obtain ⟨r, hr, rfl⟩ := List.mem_map.mp hmem
  obtain ⟨hr, hactive⟩ := List.mem_filter.mp hr
  obtain ⟨hrow, hid⟩ := Store.mem_versionsOf.mp hr
  exact ⟨r, hrow, hid, rfl, by simpa using hactive⟩

theorem Store.maxActive_eq_none
    {st : Store} {id : Uuid}
    (h : st.maxActive id = none) :
    ∀ r ∈ st.versions.rows, r.secretId = id → r.state ≠ .active := by
  intro r hr hid hactive
  have hnil := List.argmax_eq_none.mp h
  have hmem : r.version ∈
      ((st.versionsOf id).filter (fun r => decide (r.state = .active))).map
        VersionRow.version := by
    refine List.mem_map.mpr ⟨r, List.mem_filter.mpr ⟨?_, by simpa using hactive⟩, rfl⟩
    exact Store.mem_versionsOf.mpr ⟨hr, hid⟩
  rw [hnil] at hmem
  cases hmem

end Specs

end Storage
end Secretbae
