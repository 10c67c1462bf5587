import Secretbae.Core.Seal
import Secretbae.Proto.Types
import Secretbae.Lib.Table

/-!
# The tables of the store

The `secrets`, `secret_versions`, `tags` and `secret_tags` tables and the
sealed master key of `meta`.  Primary keys, `UNIQUE` columns, `CHECK`s and
foreign keys are fields of the structures, so a database that breaks one of
them cannot be built; what SQL statement would break one returns
`StoreError.sqlite .constraint` instead.

The functions of this module are the SQL statements the operations of the
other modules are made of.
-/

namespace Secretbae
namespace Storage

open Lib Proto Core

inductive SqlFailure where
  | constraint
  | invalidColumnType
  | failure
deriving DecidableEq

inductive StoreError where
  | notFound
  | alreadyExists
  | alreadyInitialised
  | corrupt (what : String)
  | proto (error : ProtoError)
  | crypto (error : Core.Error)
  | sqlite (error : SqlFailure)
deriving DecidableEq

/-- The Unix timestamps an `OffsetDateTime` can have: years -9999 to 9999. -/
def inTimeRange (seconds : Int64) : Prop :=
  -377705116800 ≤ seconds.toInt ∧ seconds.toInt ≤ 253402300799

instance (seconds : Int64) : Decidable (inTimeRange seconds) :=
  inferInstanceAs (Decidable (_ ∧ _))

/-- An `OffsetDateTime`, to the second. -/
structure UnixTime where
  seconds : Int64
  inRange : inTimeRange seconds
deriving DecidableEq

/-- `store::timestamp`. -/
def timestamp (seconds : Int64) : Except StoreError UnixTime :=
  if h : inTimeRange seconds then .ok ⟨seconds, h⟩ else .error (.corrupt "timestamp")

/-- A row of `secrets`. -/
structure SecretRow where
  id : Uuid
  path : SecretPath
  currentVersion : Option Version
  maxVersions : UInt32
  createdAt : Int64
  updatedAt : Int64
deriving DecidableEq

/-- A row of `secret_versions`, with its `CHECK`. -/
structure VersionRow where
  secretId : Uuid
  version : Version
  state : VersionState
  nonce : Option Bytes
  ciphertext : Option Bytes
  dekNonce : Option Bytes
  wrappedDek : Option Bytes
  mkGeneration : UInt32
  createdAt : Int64
  createdBy : Option String
  comment : Option String
  check : state = .destroyed ∨ ciphertext ≠ none
deriving DecidableEq

/-- The primary key of `secret_versions`. -/
def VersionRow.slot (r : VersionRow) : Uuid × Version :=
  (r.secretId, r.version)

/-- A row of `tags`. -/
structure TagRow where
  id : Nat
  tag : Tag
deriving DecidableEq

/-- A row of `secret_tags`. -/
structure SecretTagRow where
  secretId : Uuid
  tagId : Nat
deriving DecidableEq

/-- The database as `sbae-store` sees it. -/
structure Store where
  secrets : Table SecretRow.id
  paths : (secrets.rows.map SecretRow.path).Nodup
  versions : Table VersionRow.slot
  versionRefs : ∀ r ∈ versions.rows, ∃ s ∈ secrets.rows, s.id = r.secretId
  tags : Table TagRow.id
  tagValues : (tags.rows.map TagRow.tag).Nodup
  secretTags : Table (id : SecretTagRow → SecretTagRow)
  secretTagRefs :
    ∀ r ∈ secretTags.rows,
      (∃ s ∈ secrets.rows, s.id = r.secretId) ∧ ∃ t ∈ tags.rows, t.id = r.tagId
  sealedMasterKey : Option Bytes

/-- A freshly migrated database. -/
def Store.empty : Store where
  secrets := Table.empty
  paths := List.nodup_nil
  versions := Table.empty
  versionRefs := by
    intro r hr
    cases hr
  tags := Table.empty
  tagValues := List.nodup_nil
  secretTags := Table.empty
  secretTagRefs := by
    intro r hr
    cases hr
  sealedMasterKey := none

/-- `SELECT … FROM secrets WHERE path = ?`. -/
def Store.secretByPath (st : Store) (path : SecretPath) : Option SecretRow :=
  st.secrets.rows.find? (fun s => decide (s.path = path))

/-- `INSERT INTO secrets`. -/
def Store.insertSecret (st : Store) (row : SecretRow) : Except StoreError Store :=
  match hins : st.secrets.insert row with
  | none => .error (.sqlite .constraint)
  | some secrets =>
      if hpath : row.path ∈ st.secrets.rows.map SecretRow.path then
        .error (.sqlite .constraint)
      else
        have hrows := (Table.insert_eq_some hins).2
        have hkeep : ∀ s ∈ st.secrets.rows, s ∈ secrets.rows := by
          intro s hs
          rw [hrows]
          exact List.mem_append_left _ hs
        .ok
          { st with
            secrets := secrets
            paths := by
              rw [hrows]
              exact nodup_map_concat st.paths hpath
            versionRefs := by
              intro r hr
              obtain ⟨s, hs, hid⟩ := st.versionRefs r hr
              exact ⟨s, hkeep s hs, hid⟩
            secretTagRefs := by
              intro r hr
              obtain ⟨⟨s, hs, hid⟩, ht⟩ := st.secretTagRefs r hr
              exact ⟨⟨s, hkeep s hs, hid⟩, ht⟩ }

/-- `UPDATE secrets`, of columns other than `id` and `path`. -/
def Store.updateSecrets (st : Store) (f : SecretRow → SecretRow)
    (hid : ∀ s, (f s).id = s.id) (hpath : ∀ s, (f s).path = s.path) : Store :=
  have hmem : ∀ s ∈ st.secrets.rows, ∃ s' ∈ (st.secrets.update f hid).rows, s'.id = s.id :=
    fun s hs => ⟨f s, Table.mem_update.mpr ⟨s, hs, rfl⟩, hid s⟩
  { st with
    secrets := st.secrets.update f hid
    paths := by
      have hkeys : (st.secrets.rows.map f).map SecretRow.path =
          st.secrets.rows.map SecretRow.path := by
        simp [List.map_map, Function.comp_def, hpath]
      rw [Table.update, hkeys]
      exact st.paths
    versionRefs := by
      intro r hr
      obtain ⟨s, hs, hs'⟩ := st.versionRefs r hr
      obtain ⟨s', hmem', hid'⟩ := hmem s hs
      exact ⟨s', hmem', hid'.trans hs'⟩
    secretTagRefs := by
      intro r hr
      obtain ⟨⟨s, hs, hs'⟩, ht⟩ := st.secretTagRefs r hr
      obtain ⟨s', hmem', hid'⟩ := hmem s hs
      exact ⟨⟨s', hmem', hid'.trans hs'⟩, ht⟩ }

/-- `INSERT INTO secret_versions`. -/
def Store.insertVersion (st : Store) (row : VersionRow) : Except StoreError Store :=
  match hins : st.versions.insert row with
  | none => .error (.sqlite .constraint)
  | some versions =>
      if href : ∃ s ∈ st.secrets.rows, s.id = row.secretId then
        .ok
          { st with
            versions := versions
            versionRefs := by
              intro r hr
              rw [(Table.insert_eq_some hins).2] at hr
              rcases List.mem_append.mp hr with hr | hr
              · exact st.versionRefs r hr
              · obtain rfl := List.mem_singleton.mp hr
                exact href }
      else .error (.sqlite .constraint)

/-- `UPDATE secret_versions`, of columns outside the primary key. -/
def Store.updateVersions (st : Store) (f : VersionRow → VersionRow)
    (hslot : ∀ r, (f r).slot = r.slot) : Store :=
  { st with
    versions := st.versions.update f hslot
    versionRefs := by
      intro r hr
      obtain ⟨r', hr', rfl⟩ := Table.mem_update.mp hr
      obtain ⟨s, hs, hid⟩ := st.versionRefs r' hr'
      exact ⟨s, hs, hid.trans (congrArg Prod.fst (hslot r')).symm⟩ }

/-- `INSERT INTO meta … 'sealed_master_key'`, or its update. -/
def Store.putSealedMasterKey (st : Store) (value : Bytes) : Store :=
  { st with sealedMasterKey := some value }

/-- `Store::sealed_master_key`. -/
def Store.readSealedMasterKey (st : Store) : Except StoreError (Option SealedMasterKey) :=
  match st.sealedMasterKey with
  | none => .ok none
  | some bytes =>
      match SealedMasterKey.fromBytes bytes with
      | .ok sealed => .ok (some sealed)
      | .error _ => .error (.corrupt "sealed master key")

/-- `Store::initialise_master_key`. -/
def Store.initialiseMasterKey (st : Store) (sealed : SealedMasterKey) :
    Except StoreError Store :=
  match st.readSealedMasterKey with
  | .error e => .error e
  | .ok (some _) => .error .alreadyInitialised
  | .ok none => .ok (st.putSealedMasterKey sealed.toBytes)

/-- The rows of one secret. -/
def Store.versionsOf (st : Store) (id : Uuid) : List VersionRow :=
  st.versions.rows.filter (fun r => decide (r.secretId = id))

/-- `SELECT COALESCE(MAX(version), 0)` over the rows of a secret. -/
def Store.highestVersion (st : Store) (id : Uuid) : Nat :=
  (st.versionsOf id).foldl (fun m r => max m r.version.toNat) 0

section Lemmas

/-- Only a store without a master key is given one. -/
theorem Store.initialiseMasterKey_eq_ok
    {st st' : Store} {sealed : SealedMasterKey} :
    st.initialiseMasterKey sealed = .ok st' ↔
      st.sealedMasterKey = none ∧ st' = st.putSealedMasterKey sealed.toBytes := by
  unfold Store.initialiseMasterKey Store.readSealedMasterKey
  cases st.sealedMasterKey with
  | none => simp [eq_comm]
  | some bytes => cases hread : SealedMasterKey.fromBytes bytes <;> simp [hread]

theorem Store.mem_versionsOf
    {st : Store} {id : Uuid} {r : VersionRow} :
    r ∈ st.versionsOf id ↔ r ∈ st.versions.rows ∧ r.secretId = id := by
  simp [Store.versionsOf]

/-- A secret has one row for each version. -/
theorem Store.versionsOf_unique
    {st : Store} {id : Uuid} {r q : VersionRow}
    (hr : r ∈ st.versionsOf id)
    (hq : q ∈ st.versionsOf id)
    (h : r.version.toNat = q.version.toNat) :
    r = q := by
  obtain ⟨hr, hid⟩ := Store.mem_versionsOf.mp hr
  obtain ⟨hq, hid'⟩ := Store.mem_versionsOf.mp hq
  exact st.versions.eq_of_key_eq hr hq
    (Prod.ext (hid.trans hid'.symm) (Version.toNat_inj.mp h))

/-- The numbers of a secret's versions, in any order. -/
theorem Store.nodup_sortedVersions
    (st : Store) (id : Uuid) (le : VersionRow → VersionRow → Bool) :
    (((st.versionsOf id).mergeSort le).map VersionRow.version).Nodup := by
  refine List.Nodup.map_on ?_ ?_
  · intro r hr q hq heq
    exact Store.versionsOf_unique (List.mem_mergeSort.mp hr) (List.mem_mergeSort.mp hq)
      (congrArg Version.toNat heq)
  · exact (List.mergeSort_perm _ _).nodup_iff.mpr
      ((List.Nodup.of_map _ st.versions.unique).filter _)

theorem Store.secretByPath_eq_some_iff
    {st : Store} {path : SecretPath} {s : SecretRow} :
    st.secretByPath path = some s ↔ s ∈ st.secrets.rows ∧ s.path = path :=
  find?_key_eq_some_iff st.paths

theorem Store.secretByPath_of_mem
    {st : Store} {s : SecretRow}
    (hs : s ∈ st.secrets.rows) :
    st.secretByPath s.path = some s :=
  Store.secretByPath_eq_some_iff.mpr ⟨hs, rfl⟩

/-- What a successful `INSERT INTO secrets` does. -/
theorem Store.insertSecret_eq_ok
    {st st' : Store} {row : SecretRow}
    (h : st.insertSecret row = .ok st') :
    (∀ s ∈ st.secrets.rows, s.id ≠ row.id) ∧
      (∀ s ∈ st.secrets.rows, s.path ≠ row.path) ∧
      st'.secrets.rows = st.secrets.rows ++ [row] ∧
      st'.versions = st.versions ∧ st'.sealedMasterKey = st.sealedMasterKey := by
  unfold Store.insertSecret at h
  split at h
  · cases h
  rename_i secrets hins
  split at h
  · cases h
  rename_i hpath
  cases h
  obtain ⟨hid, hrows⟩ := Table.insert_eq_some hins
  refine ⟨hid, ?_, hrows, rfl, rfl⟩
  intro s hs heq
  exact hpath (List.mem_map.mpr ⟨s, hs, heq⟩)

/-- What a successful `INSERT INTO secret_versions` does. -/
theorem Store.insertVersion_eq_ok
    {st st' : Store} {row : VersionRow}
    (h : st.insertVersion row = .ok st') :
    (∀ r ∈ st.versions.rows, r.slot ≠ row.slot) ∧
      st'.versions.rows = st.versions.rows ++ [row] ∧
      st'.secrets = st.secrets ∧ st'.sealedMasterKey = st.sealedMasterKey := by
  unfold Store.insertVersion at h
  split at h
  · cases h
  rename_i versions hins
  split at h
  · cases h
    obtain ⟨hslot, hrows⟩ := Table.insert_eq_some hins
    exact ⟨hslot, hrows, rfl, rfl⟩
  · cases h

theorem foldl_max_ge
    (rows : List VersionRow) (m : Nat) :
    m ≤ rows.foldl (fun m r => max m r.version.toNat) m ∧
      ∀ r ∈ rows, r.version.toNat ≤ rows.foldl (fun m r => max m r.version.toNat) m := by
  induction rows generalizing m with
  | nil =>
      simp
  | cons r rows ih =>
      obtain ⟨hle, hall⟩ := ih (max m r.version.toNat)
      simp only [List.foldl_cons]
      refine ⟨by omega, ?_⟩
      intro q hq
      rcases List.mem_cons.mp hq with rfl | hq
      · omega
      · exact hall q hq

theorem foldl_max_mem
    (rows : List VersionRow) (m : Nat) :
    rows.foldl (fun m r => max m r.version.toNat) m = m ∨
      ∃ r ∈ rows, rows.foldl (fun m r => max m r.version.toNat) m = r.version.toNat := by
  induction rows generalizing m with
  | nil =>
      exact .inl rfl
  | cons r rows ih =>
      simp only [List.foldl_cons]
      rcases ih (max m r.version.toNat) with h | ⟨q, hq, h⟩
      · rw [h]
        rcases le_total r.version.toNat m with hle | hle
        · exact .inl (max_eq_left hle)
        · exact .inr ⟨r, by simp, max_eq_right hle⟩
      · exact .inr ⟨q, by simp [hq], h⟩

/-- The versions of a secret are numbered from one to `n`. -/
def Store.NumberedTo (st : Store) (id : Uuid) (n : Nat) : Prop :=
  ∀ m, (∃ r ∈ st.versions.rows, r.secretId = id ∧ r.version.toNat = m) ↔
    1 ≤ m ∧ m ≤ n

theorem Store.NumberedTo.highestVersion
    {st : Store} {id : Uuid} {n : Nat}
    (h : st.NumberedTo id n) :
    st.highestVersion id = n := by
  unfold Store.highestVersion
  obtain ⟨-, hall⟩ := foldl_max_ge (st.versionsOf id) 0
  have hle : (st.versionsOf id).foldl (fun m r => max m r.version.toNat) 0 ≤ n := by
    rcases foldl_max_mem (st.versionsOf id) 0 with hzero | ⟨r, hr, heq⟩
    · omega
    · rw [heq]
      obtain ⟨hmem, hid⟩ := Store.mem_versionsOf.mp hr
      exact ((h r.version.toNat).mp ⟨r, hmem, hid, rfl⟩).2
  have hge : n ≤ (st.versionsOf id).foldl (fun m r => max m r.version.toNat) 0 := by
    rcases Nat.eq_zero_or_pos n with hzero | hpos
    · omega
    · obtain ⟨r, hmem, hid, hver⟩ := (h n).mpr ⟨hpos, le_rfl⟩
      have := hall r (Store.mem_versionsOf.mpr ⟨hmem, hid⟩)
      omega
  omega

end Lemmas

end Storage
end Secretbae
