import Secretbae.Store.Views

/-!
# Stores that differ in what is sealed

`Store.SameShape` says that two stores have the same secrets with the same tags
and versions, whatever is sealed in these.  Every operation reports the same
about two such stores, except for the one that reads a version.
-/

namespace Secretbae
namespace Storage

open Lib Proto Core

/-- What a row says about its version, without what is sealed. -/
structure VersionShape where
  slot : Uuid × Version
  state : VersionState
  createdAt : Int64
  createdBy : Option String
  comment : Option String
deriving DecidableEq

def VersionRow.shape (r : VersionRow) : VersionShape :=
  ⟨r.slot, r.state, r.createdAt, r.createdBy, r.comment⟩

/-- The stores differ at most in what is sealed in their versions. -/
structure Store.SameShape (st st' : Store) : Prop where
  secrets : st'.secrets = st.secrets
  versions : st'.versions.rows.map VersionRow.shape = st.versions.rows.map VersionRow.shape
  tags : st'.tags = st.tags
  secretTags : st'.secretTags = st.secretTags
  sealedMasterKey : st'.sealedMasterKey = st.sealedMasterKey

section Shape

variable {st st' : Store}

theorem Store.SameShape.secretByPath_eq
    (h : st.SameShape st') (path : SecretPath) :
    st'.secretByPath path = st.secretByPath path := by
  unfold Store.secretByPath
  rw [h.secrets]

theorem Store.SameShape.secretId_eq
    (h : st.SameShape st') (path : SecretPath) :
    secretId st' path = secretId st path := by
  unfold secretId
  rw [h.secretByPath_eq]

theorem Store.SameShape.resolve_eq
    (h : st.SameShape st') (path : SecretPath) (selector : VersionSelector) :
    Storage.resolve st' path selector = Storage.resolve st path selector := by
  unfold Storage.resolve
  rw [h.secretByPath_eq]

theorem Store.SameShape.tagsOf_eq
    (h : st.SameShape st') (id : Uuid) :
    st'.tagsOf id = st.tagsOf id :=
  Store.tagsOf_congr h.tags h.secretTags id

theorem Store.SameShape.tags_eq
    (h : st.SameShape st') (path : SecretPath) :
    Storage.tags st' path = Storage.tags st path := by
  unfold Storage.tags
  rw [h.secretId_eq, h.tags, h.secretTags]

/-- The rows of a secret have the same shapes. -/
theorem Store.SameShape.versionsOf_eq
    (h : st.SameShape st') (id : Uuid) :
    (st'.versionsOf id).map VersionRow.shape = (st.versionsOf id).map VersionRow.shape := by
  have hfilter : ∀ st : Store, (st.versionsOf id).map VersionRow.shape =
      (st.versions.rows.map VersionRow.shape).filter fun a => decide (a.slot.1 = id) := by
    intro st
    rw [List.filter_map]
    rfl
  rw [hfilter, hfilter, h.versions]

theorem Store.SameShape.highestVersion_eq
    (h : st.SameShape st') (id : Uuid) :
    st'.highestVersion id = st.highestVersion id := by
  have hshape : ∀ st : Store, st.highestVersion id =
      ((st.versionsOf id).map VersionRow.shape).foldl (fun m a => max m a.slot.2.toNat) 0 := by
    intro st
    rw [List.foldl_map]
    rfl
  rw [hshape, hshape, h.versionsOf_eq]

/-- A row that is looked up has the same shape. -/
theorem Store.SameShape.find_eq
    (h : st.SameShape st') (slot : Uuid × Version) :
    (st'.versions.find? slot).map VersionRow.shape =
      (st.versions.find? slot).map VersionRow.shape := by
  have hshape : ∀ st : Store, (st.versions.find? slot).map VersionRow.shape =
      (st.versions.rows.map VersionRow.shape).find? fun a => decide (a.slot = slot) := by
    intro st
    rw [List.find?_map]
    rfl
  rw [hshape, hshape, h.versions]

/-- Whether a rollback succeeds is the same. -/
theorem Store.SameShape.rollback_eq
    (h : st.SameShape st') (path : SecretPath) (target : Version) (now : UnixTime) :
    (rollback st' path target now).map (fun _ => ()) =
      (rollback st path target now).map fun _ => () := by
  unfold rollback
  rw [h.secretId_eq, map_sequence, map_sequence]
  refine bind_congr_ok ?_
  intro id _
  have hfind := h.find_eq (id, target)
  rw [map_sequence, map_sequence]
  cases hrow : st.versions.find? (id, target) with
  | none =>
      rw [hrow, Option.map_none, Option.map_eq_none_iff] at hfind
      rw [hfind]
      rfl
  | some r =>
      rw [hrow, Option.map_some, Option.map_eq_some_iff] at hfind
      obtain ⟨r', hrow', hshape⟩ := hfind
      have hstate : r'.state = r.state := congrArg VersionShape.state hshape
      rw [hrow']
      simp only [okOr, bind, Except.bind, hstate]
      split <;> rfl

/-- Which version a deletion takes is the same. -/
theorem Store.SameShape.deleteVersion_eq
    (h : st.SameShape st') (path : SecretPath) (selector : VersionSelector) (mode : DeleteMode)
    (now : UnixTime) :
    (deleteVersion st' path selector mode now).map Prod.snd =
      (deleteVersion st path selector mode now).map Prod.snd := by
  have hcount : ∀ slot, st'.versions.rows.countP (mode.selects slot) =
      st.versions.rows.countP (mode.selects slot) := by
    intro slot
    obtain ⟨g, hg⟩ : ∃ g : VersionShape → Bool, mode.selects slot = g ∘ VersionRow.shape := by
      cases mode with
      | soft => exact ⟨fun a => decide (a.slot = slot ∧ a.state = .active), rfl⟩
      | destroy => exact ⟨fun a => decide (a.slot = slot ∧ a.state ≠ .destroyed), rfl⟩
    rw [hg, ← List.countP_map, ← List.countP_map, h.versions]
  unfold deleteVersion
  rw [h.resolve_eq, map_sequence, map_sequence]
  refine bind_congr_ok ?_
  rintro ⟨id, version⟩ _
  simp only [hcount]
  split <;> rfl

/-- The history of a secret is listed alike. -/
theorem Store.SameShape.versions_eq
    (h : st.SameShape st') (path : SecretPath) :
    Storage.versions st' path = Storage.versions st path := by
  unfold Storage.versions
  rw [h.secretId_eq]
  refine bind_congr_ok ?_
  intro id _
  let info (a : VersionShape) : Except StoreError VersionInfo := do
    let createdAt ← timestamp a.createdAt
    .ok
      { version := a.slot.2, state := a.state, createdAt, createdBy := a.createdBy
        comment := a.comment }
  have hshape : ∀ st : Store,
      ((st.versionsOf id).mergeSort
        (fun a b => decide (b.version.toNat ≤ a.version.toNat))).mapM versionInfo =
      (((st.versionsOf id).map VersionRow.shape).mergeSort
        (fun a b => decide (b.slot.2.toNat ≤ a.slot.2.toNat))).mapM info := by
    intro st
    have hsort : ((st.versionsOf id).mergeSort
          fun a b => decide (b.version.toNat ≤ a.version.toNat)).map VersionRow.shape =
        ((st.versionsOf id).map VersionRow.shape).mergeSort
          fun a b => decide (b.slot.2.toNat ≤ a.slot.2.toNat) :=
      List.map_mergeSort fun _ _ _ _ => rfl
    rw [← hsort, List.mapM_map]
    rfl
  rw [hshape, hshape, h.versionsOf_eq]

theorem Store.SameShape.summary_eq
    (h : st.SameShape st') (s : SecretRow) :
    summary st' s = summary st s := by
  have hcount : ∀ st : Store,
      ((st.versionsOf s.id).countP fun r => decide (r.state ≠ .destroyed)) =
        ((st.versionsOf s.id).map VersionRow.shape).countP
          fun a => decide (a.state ≠ .destroyed) := by
    intro st
    rw [List.countP_map]
    rfl
  unfold summary
  rw [hcount, hcount, h.versionsOf_eq, h.tagsOf_eq]

/-- A listing shows the same. -/
theorem Store.SameShape.list_eq
    (h : st.SameShape st') (filter : ListFilter) :
    list st' filter = list st filter := by
  have hselects : filter.selects st' = filter.selects st := by
    funext s
    unfold ListFilter.selects Store.carries
    rw [h.tags, h.secretTags]
  unfold list
  rw [h.secrets, hselects, funext h.summary_eq]

theorem Store.SameShape.secretCount_eq
    (h : st.SameShape st') :
    secretCount st' = secretCount st := by
  unfold secretCount
  rw [h.secrets]

/-- A write is given the same number, or fails alike. -/
theorem Store.SameShape.write_eq
    (h : st.SameShape st') (P : Primitives) (master : MasterKey) (generation : UInt32)
    (path : SecretPath) (freshId : Uuid) (began : UnixTime) (draws : SealDraws)
    (plaintext : Bytes) (info : WriteMeta) (now : UnixTime) :
    (Vault.write P ⟨st', master, generation⟩ path freshId began draws plaintext info now).map
        Prod.snd =
      (Vault.write P ⟨st, master, generation⟩ path freshId began draws plaintext info now).map
        Prod.snd := by
  rw [Vault.write_map, Vault.write_map, beginWrite_congr (h.secretByPath_eq path)
    (fun s _ => h.highestVersion_eq s.id) (by rw [h.secrets])]

end Shape

end Storage
end Secretbae
