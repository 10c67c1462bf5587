import Secretbae.Store.Tags

/-!
# Whole-store operations

`rekey_with`, `export_secrets` and `import_secret_with_id`.  The callback of
`rekey_with` may keep state between its calls, so it is a function of the
number of the call as well.
-/

namespace Secretbae
namespace Storage

open Lib Proto Core

/-- The callback of `rekey_with`: its `i`-th call on a slot and its wrapped key. -/
abbrev Rewrap := Nat → VersionBinding → WrappedKey → Except StoreError WrappedKey

structure RekeyReport where
  versionsRewrapped : Nat
  newGeneration : UInt32
deriving DecidableEq

/-- The slot of a row as the envelope binds it. -/
def VersionRow.binding (r : VersionRow) : VersionBinding :=
  ⟨r.secretId, r.version.get⟩

/-- `UPDATE secret_versions SET dek_nonce = …, wrapped_dek = …, mk_generation = …`. -/
def VersionRow.withKey (r : VersionRow) (key : WrappedKey) : VersionRow :=
  { r with
    dekNonce := some key.dekNonce.toList
    wrappedDek := some key.wrappedDek
    mkGeneration := key.mkGeneration }

/-- The wrapped key of a row as the loop of `rekey_with` reads it. -/
def VersionRow.wrappedKey (r : VersionRow) : Except StoreError WrappedKey :=
  match r.dekNonce, r.wrappedDek with
  | some dekNonce, some wrappedDek => do
      let nonce ← liftCrypto (Nonce.fromSlice dekNonce)
      .ok { wrappedDek, dekNonce := nonce, mkGeneration := r.mkGeneration }
  | _, _ => .error (.sqlite .invalidColumnType)

/-- The body of the loop of `rekey_with`. -/
def rewrapRow (rewrap : VersionBinding → WrappedKey → Except StoreError WrappedKey)
    (r : VersionRow) : Except StoreError VersionRow := do
  let key ← r.wrappedKey
  let key' ← rewrap r.binding key
  .ok (r.withKey key')

/-- The loop of `rekey_with`, from call number `i`; it skips destroyed rows. -/
def rewrapRows (rewrap : Rewrap) : Nat → List VersionRow → Except StoreError (List VersionRow)
  | _, [] => .ok []
  | i, r :: rows =>
      if r.state = .destroyed then do
        let rest ← rewrapRows rewrap i rows
        .ok (r :: rest)
      else do
        let r' ← rewrapRow (rewrap i) r
        let rest ← rewrapRows rewrap (i + 1) rows
        .ok (r' :: rest)

/-- What the loop makes of one row. -/
def Rewrapped (rewrap : Rewrap) (r r' : VersionRow) : Prop :=
  (r.state = .destroyed ∧ r' = r) ∨
    (r.state ≠ .destroyed ∧ ∃ i, rewrapRow (rewrap i) r = .ok r')

theorem rewrapRows_forall₂
    {rewrap : Rewrap} {i : Nat} {rows rows' : List VersionRow}
    (h : rewrapRows rewrap i rows = .ok rows') :
    List.Forall₂ (Rewrapped rewrap) rows rows' := by
  induction rows generalizing i rows' with
  | nil =>
      cases h
      exact .nil
  | cons r rows ih =>
      unfold rewrapRows at h
      split at h
      · rename_i hd
        obtain ⟨rest, hrest, h⟩ := bind_eq_ok.mp h
        cases h
        exact .cons (.inl ⟨hd, rfl⟩) (ih hrest)
      · rename_i hd
        obtain ⟨r', hr, h⟩ := bind_eq_ok.mp h
        obtain ⟨rest, hrest, h⟩ := bind_eq_ok.mp h
        cases h
        exact .cons (.inr ⟨hd, i, hr⟩) (ih hrest)

/-- A rewrapped row is the old row with another wrapped key. -/
theorem rewrapRow_eq_ok
    {rewrap : VersionBinding → WrappedKey → Except StoreError WrappedKey}
    {r r' : VersionRow}
    (h : rewrapRow rewrap r = .ok r') :
    ∃ key key', r.wrappedKey = .ok key ∧ rewrap r.binding key = .ok key' ∧
      r' = r.withKey key' := by
  obtain ⟨key, hkey, h⟩ := bind_eq_ok.mp h
  obtain ⟨key', hkey', h⟩ := bind_eq_ok.mp h
  cases h
  exact ⟨key, key', hkey, hkey', rfl⟩

theorem Rewrapped.slot
    {rewrap : Rewrap} {r r' : VersionRow}
    (h : Rewrapped rewrap r r') :
    r'.slot = r.slot := by
  rcases h with ⟨-, rfl⟩ | ⟨-, i, h⟩
  · rfl
  · obtain ⟨key, key', -, -, rfl⟩ := rewrapRow_eq_ok h
    rfl

theorem rewrapRows_slots
    {rewrap : Rewrap} {i : Nat} {rows rows' : List VersionRow}
    (h : rewrapRows rewrap i rows = .ok rows') :
    rows'.map VersionRow.slot = rows.map VersionRow.slot := by
  have hall := rewrapRows_forall₂ h
  clear h
  induction hall with
  | nil =>
      rfl
  | cons hr _ ih =>
      rw [List.map_cons, List.map_cons, hr.slot, ih]

/-- `Store::rekey_with`. -/
def rekeyWith (st : Store) (newSealedMaster : SealedMasterKey) (rewrap : Rewrap) :
    Except StoreError (Store × RekeyReport) :=
  match h : rewrapRows rewrap 0 st.versions.rows with
  | .error e => .error e
  | .ok rows =>
      .ok
        ({ st with
           versions :=
             { rows := rows
               unique := by
                 rw [rewrapRows_slots h]
                 exact st.versions.unique }
           versionRefs := by
             intro r hr
             have hmem : r.slot ∈ st.versions.rows.map VersionRow.slot := by
               rw [← rewrapRows_slots h]
               exact List.mem_map.mpr ⟨r, hr, rfl⟩
             obtain ⟨r₀, hr₀, hslot⟩ := List.mem_map.mp hmem
             obtain ⟨s, hs, hid⟩ := st.versionRefs r₀ hr₀
             exact ⟨s, hs, hid.trans (congrArg Prod.fst hslot)⟩
           sealedMasterKey := some newSealedMaster.toBytes },
         { versionsRewrapped :=
             st.versions.rows.countP (fun r => decide (r.state ≠ .destroyed))
           newGeneration := newSealedMaster.generation })

/-- Everything a successful `rekey_with` does. -/
theorem rekeyWith_eq_ok
    {st st' : Store} {sealed : SealedMasterKey} {rewrap : Rewrap} {report : RekeyReport}
    (h : rekeyWith st sealed rewrap = .ok (st', report)) :
    rewrapRows rewrap 0 st.versions.rows = .ok st'.versions.rows ∧
      st'.secrets = st.secrets ∧ st'.sealedMasterKey = some sealed.toBytes := by
  unfold rekeyWith at h
  split at h
  · cases h
  · rename_i rows hrows
    cases h
    exact ⟨hrows, rfl, rfl⟩

/-- A version as carried in a backup bundle. -/
structure ExportedVersion where
  version : Version
  state : VersionState
  createdAt : UnixTime
  createdBy : Option String
  comment : Option String
  sealed : Option SealedVersion
deriving DecidableEq

/-- A secret and its retained versions, as carried in a backup bundle. -/
structure ExportedSecret where
  path : SecretPath
  tags : List Tag
  maxVersions : UInt32
  currentVersion : Option Version
  versions : List ExportedVersion
deriving DecidableEq

/-- The sealed payload of a row, if it has all of its parts. -/
def VersionRow.exportSealed (r : VersionRow) : Except StoreError (Option SealedVersion) :=
  match r.nonce, r.ciphertext, r.dekNonce, r.wrappedDek with
  | some nonce, some ciphertext, some dekNonce, some wrappedDek => do
      let nonce ← liftCrypto (Nonce.fromSlice nonce)
      let dekNonce ← liftCrypto (Nonce.fromSlice dekNonce)
      .ok (some
        { nonce, ciphertext, key := { dekNonce, wrappedDek, mkGeneration := r.mkGeneration } })
  | _, _, _, _ => .ok none

def exportedVersion (r : VersionRow) : Except StoreError ExportedVersion := do
  let sealed ← r.exportSealed
  let createdAt ← timestamp r.createdAt
  .ok
    { version := r.version, state := r.state, createdAt, createdBy := r.createdBy
      comment := r.comment, sealed }

/-- `exported_versions`: the rows of a secret in order of version. -/
def exportedVersions (st : Store) (id : Uuid) : Except StoreError (List ExportedVersion) :=
  ((st.versionsOf id).mergeSort
    (fun a b => decide (a.version.toNat ≤ b.version.toNat))).mapM exportedVersion

def exportedSecret (st : Store) (s : SecretRow) : Except StoreError ExportedSecret := do
  let tags ← tags st s.path
  let versions ← exportedVersions st s.id
  .ok
    { path := s.path, tags, maxVersions := s.maxVersions
      currentVersion := s.currentVersion, versions }

/-- `Store::export_secrets`: every secret, in order of path. -/
def exportSecrets (st : Store) : Except StoreError (List ExportedSecret) :=
  (st.secrets.rows.mergeSort
    (fun a b => decide (utf8 a.path.asStr ≤ utf8 b.path.asStr))).mapM (exportedSecret st)

/-- The row that the import inserts for a version; the `CHECK` may refuse it. -/
def importedRow (id : Uuid) (v : ExportedVersion) : Except StoreError VersionRow :=
  if h : v.state = .destroyed ∨ v.sealed.map SealedVersion.ciphertext ≠ none then
    .ok
      { secretId := id
        version := v.version
        state := v.state
        nonce := v.sealed.map (fun s => s.nonce.toList)
        ciphertext := v.sealed.map SealedVersion.ciphertext
        dekNonce := v.sealed.map (fun s => s.key.dekNonce.toList)
        wrappedDek := v.sealed.map (fun s => s.key.wrappedDek)
        mkGeneration := (v.sealed.map (fun s => s.key.mkGeneration)).getD 0
        createdAt := v.createdAt.seconds
        createdBy := v.createdBy
        comment := v.comment
        check := h }
  else .error (.sqlite .constraint)

/-- The loop of the import. -/
def importVersions (id : Uuid) : Store → List ExportedVersion → Except StoreError Store
  | tx, [] => .ok tx
  | tx, v :: vs => do
      let row ← importedRow id v
      let tx ← tx.insertVersion row
      importVersions id tx vs

/-- The row that the import inserts for a secret. -/
def importedSecret (id : Uuid) (secret : ExportedSecret) (now : UnixTime) : SecretRow :=
  let created := (secret.versions.head?.map ExportedVersion.createdAt).getD now
  { id := id
    path := secret.path
    currentVersion := secret.currentVersion
    maxVersions := secret.maxVersions
    createdAt := created.seconds
    updatedAt := created.seconds }

/-- `Store::import_secret_with_id`. -/
def importSecretWithId (st : Store) (id : Uuid) (secret : ExportedSecret) (now : UnixTime) :
    Except StoreError Store :=
  if (st.secretByPath secret.path).isSome then .error .alreadyExists
  else do
    let tx ← st.insertSecret (importedSecret id secret now)
    let tx ← importVersions id tx secret.versions
    addTags tx secret.path secret.tags now

end Storage
end Secretbae
