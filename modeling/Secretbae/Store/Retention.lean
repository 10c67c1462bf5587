import Secretbae.Lib.Window
import Secretbae.Store.Current
import Secretbae.Store.Views

/-!
# Retention

`commit` destroys what falls out of the window of a secret's `max_versions`, and
nothing else does, short of `delete_version` with `Destroy`.  An import takes
any versions in any states, and leaves them as they come until the secret is
next written.

`Tracked` is a store with what the operations of a run asked for: the versions
that were explicitly destroyed, those that an import brought in destroyed, and
the secrets that were imported and not written since.
-/

namespace Secretbae
namespace Storage

open Lib Proto Core

/-- The secret has a version `v`, in state `a`. -/
def Store.Seen (st : Store) (id : Uuid) (v : Version) (a : VersionState) : Prop :=
  ∃ r ∈ st.versions.rows, r.slot = (id, v) ∧ r.state = a

/-- The version numbers of a secret. -/
def Store.numbers (st : Store) (id : Uuid) : Set Nat :=
  { n | ∃ v a, st.Seen id v a ∧ v.toNat = n }

/-- The numbers of its destroyed versions. -/
def Store.gone (st : Store) (id : Uuid) : Set Nat :=
  { n | ∃ v, st.Seen id v .destroyed ∧ v.toNat = n }

/-- The numbers of the destroyed versions that hold a payload all the same. -/
def Store.laden (st : Store) (id : Uuid) : Set Nat :=
  { n | ∃ r ∈ st.versions.rows, r.secretId = id ∧ r.state = .destroyed ∧
    r.ciphertext ≠ none ∧ r.version.toNat = n }

section Seen

variable {st st' : Store} {id : Uuid}

theorem Store.seen_of_mem
    {r : VersionRow}
    (hr : r ∈ st.versionsOf id) :
    st.Seen id r.version r.state := by
  obtain ⟨hrow, rfl⟩ := Store.mem_versionsOf.mp hr
  exact ⟨r, hrow, rfl, rfl⟩

theorem Store.mem_numbers
    {r : VersionRow}
    (hr : r ∈ st.versionsOf id) :
    r.version.toNat ∈ st.numbers id :=
  ⟨r.version, r.state, Store.seen_of_mem hr, rfl⟩

theorem Store.mem_gone_iff
    {r : VersionRow}
    (hr : r ∈ st.versionsOf id) :
    r.version.toNat ∈ st.gone id ↔ r.state = .destroyed := by
  constructor
  · rintro ⟨v, ⟨q, hq, hslot, hstate⟩, hnum⟩
    have hqr : q = r := by
      refine Store.versionsOf_unique
        (Store.mem_versionsOf.mpr ⟨hq, congrArg Prod.fst hslot⟩) hr ?_
      rw [← hnum]
      exact congrArg Version.toNat (congrArg Prod.snd hslot)
    rwa [← hqr]
  · intro hstate
    exact ⟨r.version, hstate ▸ Store.seen_of_mem hr, rfl⟩

/-- Stores that show the same versions of a secret in the same states. -/
theorem Store.numbers_eq_of_seen
    (h : ∀ v a, st'.Seen id v a ↔ st.Seen id v a) :
    st'.numbers id = st.numbers id ∧ st'.gone id = st.gone id := by
  unfold Store.numbers Store.gone
  simp only [h, and_self]

theorem Store.numbers_eq_of_rows
    (h : ∀ r, r.secretId = id → (r ∈ st'.versions.rows ↔ r ∈ st.versions.rows)) :
    st'.numbers id = st.numbers id ∧ st'.gone id = st.gone id := by
  refine Store.numbers_eq_of_seen fun v a => ?_
  constructor
  · rintro ⟨r, hr, hslot, hstate⟩
    exact ⟨r, (h r (congrArg Prod.fst hslot)).mp hr, hslot, hstate⟩
  · rintro ⟨r, hr, hslot, hstate⟩
    exact ⟨r, (h r (congrArg Prod.fst hslot)).mpr hr, hslot, hstate⟩

theorem Store.numbers_le_highest
    {n : Nat}
    (hn : n ∈ st.numbers id) :
    n ≤ st.highestVersion id := by
  obtain ⟨v, a, ⟨r, hr, hslot, -⟩, rfl⟩ := hn
  have hver : r.version = v := congrArg Prod.snd hslot
  rw [← hver]
  exact (foldl_max_ge (st.versionsOf id) 0).2 r
    (Store.mem_versionsOf.mpr ⟨hr, congrArg Prod.fst hslot⟩)

theorem Store.highest_mem_numbers
    {r : VersionRow}
    (hr : r ∈ st.versionsOf id) :
    st.highestVersion id ∈ st.numbers id := by
  unfold Store.highestVersion
  rcases foldl_max_mem (st.versionsOf id) 0 with hzero | ⟨q, hq, heq⟩
  · have hle := (foldl_max_ge (st.versionsOf id) 0).2 r hr
    have := r.version.toNat_pos
    omega
  · rw [heq]
    exact Store.mem_numbers hq

theorem Store.laden_subset_of_rows
    (h : ∀ r, r.secretId = id → r ∈ st'.versions.rows → r ∈ st.versions.rows) :
    st'.laden id ⊆ st.laden id := by
  rintro n ⟨r, hr, hid, hstate, hholds, rfl⟩
  exact ⟨r, h r hid hr, hid, hstate, hholds, rfl⟩

/-- Which versions a rotation shows, and in which states. -/
theorem numbers_rekeyWith
    {sealed : SealedMasterKey} {rewrap : Rewrap} {report : RekeyReport}
    (h : rekeyWith st sealed rewrap = .ok (st', report)) (id : Uuid) :
    st'.numbers id = st.numbers id ∧ st'.gone id = st.gone id := by
  obtain ⟨hrows, -, -⟩ := rekeyWith_eq_ok h
  have hall := rewrapRows_forall₂ hrows
  refine Store.numbers_eq_of_seen fun v a => ?_
  constructor
  · rintro ⟨r', hr', hslot, hstate⟩
    obtain ⟨r, hr, hrel⟩ := forall₂_mem_right hall hr'
    exact ⟨r, hr, hrel.slot.symm.trans hslot, hrel.state.symm.trans hstate⟩
  · rintro ⟨r, hr, hslot, hstate⟩
    obtain ⟨r', hr', hrel⟩ := forall₂_mem_left hall hr
    exact ⟨r', hr', hrel.slot.trans hslot, hrel.state.trans hstate⟩

/-- A rotation passes over what is destroyed. -/
theorem laden_rekeyWith
    {sealed : SealedMasterKey} {rewrap : Rewrap} {report : RekeyReport}
    (h : rekeyWith st sealed rewrap = .ok (st', report)) (id : Uuid) :
    st'.laden id ⊆ st.laden id := by
  obtain ⟨hrows, -, -⟩ := rekeyWith_eq_ok h
  rintro n ⟨r', hr', hid, hstate, hholds, rfl⟩
  obtain ⟨r, hr, hrel⟩ := forall₂_mem_right (rewrapRows_forall₂ hrows) hr'
  rw [hrel.state] at hstate
  rcases hrel with ⟨-, rfl⟩ | ⟨hlive, -⟩
  · exact ⟨r', hr, hid, hstate, hholds, rfl⟩
  · exact absurd hstate hlive

theorem numbers_removeVersion
    (st : Store) (slot : Uuid × Version) (mode : DeleteMode) (id : Uuid) :
    (removeVersion st slot mode).numbers id = st.numbers id := by
  ext n
  constructor
  · rintro ⟨v, a, ⟨r, hr, hslot, hstate⟩, rfl⟩
    obtain ⟨r₀, hr₀, rfl⟩ := mem_removeVersion.mp hr
    refine ⟨v, r₀.state, ⟨r₀, hr₀, ?_, rfl⟩, rfl⟩
    split at hslot
    · exact (mode.apply_slot r₀).symm.trans hslot
    · exact hslot
  · rintro ⟨v, a, ⟨r₀, hr₀, hslot, -⟩, rfl⟩
    refine ⟨v, _, ⟨_, mem_removeVersion.mpr ⟨r₀, hr₀, rfl⟩, ?_, rfl⟩, rfl⟩
    split
    · exact (mode.apply_slot r₀).trans hslot
    · exact hslot

/-- What a deletion destroys is what it names, and only in one of its modes. -/
theorem gone_removeVersion
    (st : Store) (slot : Uuid × Version) (mode : DeleteMode) (id : Uuid) :
    st.gone id ⊆ (removeVersion st slot mode).gone id ∧
      ∀ n ∈ (removeVersion st slot mode).gone id,
        n ∈ st.gone id ∨ (mode = .destroy ∧ id = slot.1 ∧ n = slot.2.toNat) := by
  constructor
  · rintro n ⟨v, ⟨r₀, hr₀, hslot, hstate⟩, rfl⟩
    refine ⟨v, ⟨_, mem_removeVersion.mpr ⟨r₀, hr₀, rfl⟩, ?_, ?_⟩, rfl⟩
    · split
      · exact (mode.apply_slot r₀).trans hslot
      · exact hslot
    · rw [if_neg, hstate]
      cases mode <;> simp [DeleteMode.selects, hstate]
  · rintro n ⟨v, ⟨r, hr, hslot, hstate⟩, rfl⟩
    obtain ⟨r₀, hr₀, rfl⟩ := mem_removeVersion.mp hr
    split at hslot
    · rename_i hsel
      rw [if_pos hsel] at hstate
      have hnamed := (mode.apply_slot r₀).symm.trans hslot
      have hsel' := DeleteMode.slot_of_selects hsel
      cases mode with
      | soft =>
          have hactive : r₀.state = .active := by
            simp only [DeleteMode.selects, decide_eq_true_eq] at hsel
            exact hsel.2
          simp [DeleteMode.apply, VersionRow.softDelete, hactive] at hstate
      | destroy =>
          rw [hsel'] at hnamed
          rw [hnamed]
          exact .inr ⟨rfl, rfl, rfl⟩
    · rename_i hkeep
      rw [if_neg hkeep] at hstate
      exact .inl ⟨v, ⟨r₀, hr₀, hslot, hstate⟩, rfl⟩

/-- A deletion leaves no payload in what it destroys. -/
theorem laden_removeVersion
    (st : Store) (slot : Uuid × Version) (mode : DeleteMode) (id : Uuid) :
    (removeVersion st slot mode).laden id ⊆ st.laden id := by
  rintro n ⟨r, hr, hid, hstate, hholds, rfl⟩
  obtain ⟨r₀, hr₀, rfl⟩ := mem_removeVersion.mp hr
  by_cases hsel : mode.selects slot r₀
  · rw [if_pos hsel] at hstate hholds
    cases mode with
    | soft =>
        have hactive : r₀.state = .active := by
          simp only [DeleteMode.selects, decide_eq_true_eq] at hsel
          exact hsel.2
        simp [DeleteMode.apply, VersionRow.softDelete, hactive] at hstate
    | destroy => exact absurd rfl hholds
  · rw [if_neg hsel] at hid hstate hholds ⊢
    exact ⟨r₀, hr₀, hid, hstate, hholds, rfl⟩

end Seen

section Publish

variable {st st' : Store} {path : SecretPath} {freshId : Uuid} {began now : UnixTime}
variable {slot : WriteSlot} {sealed : SealedVersion} {info : WriteMeta} {v : Version}

/-- Each row after a commit is an old row, the new one, or what retention left of an old one. -/
theorem mem_commit
    (hbegin : beginWrite st path freshId began = .ok slot)
    (hcommit : slot.commit sealed info now = .ok (st', v)) {r : VersionRow} :
    r ∈ st'.versions.rows ↔
      ∃ r₀, (r₀ ∈ st.versions.rows ∨ r₀ = slot.row sealed info now) ∧
        (if ¬ slot.version.get.toNat < slot.maxVersions.toNat ∧
            outOfWindow slot.secretId slot.version (slot.version.get - slot.maxVersions) r₀
          then r₀.destroy else r₀) = r := by
  obtain ⟨-, hversions, -⟩ := beginWrite_eq_ok hbegin
  obtain ⟨rfl, mid, hmid, rfl⟩ := WriteSlot.commit_eq_ok hcommit
  obtain ⟨-, hrows, -, -⟩ := Store.insertVersion_eq_ok hmid
  rw [mem_prune, Store.pointCurrent_versions, hrows, hversions]
  simp only [List.mem_append, List.mem_singleton]

/-- What retention destroys, by number. -/
theorem outOfWindow_iff
    {id : Uuid} {keep : Version} {m : UInt32} {r : VersionRow}
    (hm : 1 ≤ m.toNat) :
    (¬ keep.get.toNat < m.toNat ∧ outOfWindow id keep (keep.get - m) r) ↔
      r.secretId = id ∧ r.state ≠ .destroyed ∧ r.version.toNat + m.toNat ≤ keep.toNat := by
  simp only [outOfWindow, decide_eq_true_eq]
  have hsub : ¬ keep.get.toNat < m.toNat →
      (keep.get - m).toNat = keep.get.toNat - m.toNat := by
    intro hle
    exact UInt32.toNat_sub_of_le _ _ (UInt32.le_iff_toNat_le.mpr (by omega))
  unfold Version.toNat
  constructor
  · rintro ⟨hle, hid, hstate, -, hold⟩
    rw [hsub hle] at hold
    have := r.version.toNat_pos
    unfold Version.toNat at this
    exact ⟨hid, hstate, by omega⟩
  · rintro ⟨hid, hstate, hle⟩
    have hkeep : ¬ keep.get.toNat < m.toNat := by omega
    refine ⟨hkeep, hid, hstate, ?_, ?_⟩
    · rintro rfl
      omega
    · rw [hsub hkeep]
      omega

/-- The numbers of the secret that is written: one more. -/
theorem numbers_commit
    (hbegin : beginWrite st path freshId began = .ok slot)
    (hcommit : slot.commit sealed info now = .ok (st', v)) :
    st'.numbers slot.secretId = insert slot.version.toNat (st.numbers slot.secretId) := by
  ext n
  constructor
  · rintro ⟨w, a, ⟨r, hr, hslot, -⟩, rfl⟩
    obtain ⟨r₀, hr₀, rfl⟩ := (mem_commit hbegin hcommit).mp hr
    have hslot₀ : r₀.slot = (slot.secretId, w) := by
      split at hslot <;> exact hslot
    rcases hr₀ with hr₀ | rfl
    · exact .inr ⟨w, r₀.state, ⟨r₀, hr₀, hslot₀, rfl⟩, rfl⟩
    · cases hslot₀
      exact .inl rfl
  · have hback : ∀ r₀, (r₀ ∈ st.versions.rows ∨ r₀ = slot.row sealed info now) →
        r₀.secretId = slot.secretId → r₀.version.toNat ∈ st'.numbers slot.secretId := by
      intro r₀ hr₀ hid
      refine ⟨r₀.version, _, ⟨_, (mem_commit hbegin hcommit).mpr ⟨r₀, hr₀, rfl⟩, ?_, rfl⟩,
        rfl⟩
      rw [← hid]
      split <;> rfl
    rintro (rfl | ⟨w, a, ⟨r₀, hr₀, hslot, -⟩, rfl⟩)
    · exact hback _ (.inr rfl) rfl
    · have hver : r₀.version = w := congrArg Prod.snd hslot
      rw [← hver]
      exact hback r₀ (.inl hr₀) (congrArg Prod.fst hslot)

/-- What is destroyed afterwards: what was, and what fell out of the window. -/
theorem gone_commit
    (hbegin : beginWrite st path freshId began = .ok slot)
    (hcommit : slot.commit sealed info now = .ok (st', v))
    (hm : 1 ≤ slot.maxVersions.toNat) :
    st'.gone slot.secretId =
      st.gone slot.secretId ∪
        { n | n ∈ st.numbers slot.secretId ∧
          n + slot.maxVersions.toNat ≤ slot.version.toNat } := by
  ext n
  constructor
  · rintro ⟨w, ⟨r, hr, hslot, hstate⟩, rfl⟩
    obtain ⟨r₀, hr₀, rfl⟩ := (mem_commit hbegin hcommit).mp hr
    have hslot₀ : r₀.slot = (slot.secretId, w) := by
      split at hslot <;> exact hslot
    have hver : r₀.version = w := congrArg Prod.snd hslot₀
    by_cases hout : ¬ slot.version.get.toNat < slot.maxVersions.toNat ∧
        outOfWindow slot.secretId slot.version (slot.version.get - slot.maxVersions) r₀
    · obtain ⟨-, -, hle⟩ := (outOfWindow_iff hm).mp hout
      rcases hr₀ with hr₀ | rfl
      · exact .inr ⟨⟨w, r₀.state, ⟨r₀, hr₀, hslot₀, rfl⟩, rfl⟩, hver ▸ hle⟩
      · have : slot.version.toNat + slot.maxVersions.toNat ≤ slot.version.toNat := hle
        omega
    · rw [if_neg hout] at hstate
      rcases hr₀ with hr₀ | rfl
      · exact .inl ⟨w, ⟨r₀, hr₀, hslot₀, hstate⟩, rfl⟩
      · cases hstate
  · have hback : ∀ r₀ ∈ st.versions.rows, r₀.secretId = slot.secretId →
        (r₀.state = .destroyed ∨
          r₀.version.toNat + slot.maxVersions.toNat ≤ slot.version.toNat) →
        r₀.version.toNat ∈ st'.gone slot.secretId := by
      intro r₀ hr₀ hid hwhy
      refine ⟨r₀.version, ⟨_, (mem_commit hbegin hcommit).mpr ⟨r₀, .inl hr₀, rfl⟩, ?_, ?_⟩,
        rfl⟩
      · rw [← hid]
        split <;> rfl
      · split
        · rfl
        · rename_i hout
          rcases hwhy with hstate | hle
          · exact hstate
          · by_contra hstate
            exact hout ((outOfWindow_iff hm).mpr ⟨hid, hstate, hle⟩)
    rintro (⟨w, ⟨r₀, hr₀, hslot, hstate⟩, rfl⟩ | ⟨⟨w, a, ⟨r₀, hr₀, hslot, -⟩, rfl⟩, hle⟩)
    · have hver : r₀.version = w := congrArg Prod.snd hslot
      rw [← hver]
      exact hback r₀ hr₀ (congrArg Prod.fst hslot) (.inl hstate)
    · have hver : r₀.version = w := congrArg Prod.snd hslot
      rw [← hver] at hle ⊢
      exact hback r₀ hr₀ (congrArg Prod.fst hslot) (.inr hle)

/-- A write shows nothing new of other secrets. -/
theorem numbers_commit_other
    (hbegin : beginWrite st path freshId began = .ok slot)
    (hcommit : slot.commit sealed info now = .ok (st', v))
    {id : Uuid}
    (hne : id ≠ slot.secretId) :
    st'.numbers id = st.numbers id ∧ st'.gone id = st.gone id := by
  refine Store.numbers_eq_of_rows fun r hid => ?_
  rw [mem_commit hbegin hcommit]
  have hother : r.secretId ≠ slot.secretId := by
    rw [hid]
    exact hne
  constructor
  · rintro ⟨r₀, hr₀, rfl⟩
    split at hother
    · rename_i hout
      simp only [outOfWindow, decide_eq_true_eq] at hout
      exact absurd hout.2.1 hother
    · rename_i hout
      rw [if_neg hout]
      rcases hr₀ with hr₀ | rfl
      · exact hr₀
      · exact absurd rfl hother
  · intro hr
    refine ⟨r, .inl hr, if_neg ?_⟩
    rintro ⟨-, hout⟩
    simp only [outOfWindow, decide_eq_true_eq] at hout
    exact hother hout.1

/-- Nor does a write, in what falls out of the window. -/
theorem laden_commit
    (hbegin : beginWrite st path freshId began = .ok slot)
    (hcommit : slot.commit sealed info now = .ok (st', v)) (id : Uuid) :
    st'.laden id ⊆ st.laden id := by
  rintro n ⟨r, hr, hid, hstate, hholds, rfl⟩
  obtain ⟨r₀, hr₀, rfl⟩ := (mem_commit hbegin hcommit).mp hr
  split at hholds
  · exact absurd rfl hholds
  · rename_i hkept
    rw [if_neg hkept] at hid hstate ⊢
    rcases hr₀ with hr₀ | rfl
    · exact ⟨r₀, hr₀, hid, hstate, hholds, rfl⟩
    · cases hstate

end Publish

section Imported

def ExportedSecret.numbers (e : ExportedSecret) : Set Nat :=
  { n | ∃ x ∈ e.versions, x.version.toNat = n }

def ExportedSecret.gone (e : ExportedSecret) : Set Nat :=
  { n | ∃ x ∈ e.versions, x.version.toNat = n ∧ x.state = .destroyed }

def ExportedSecret.laden (e : ExportedSecret) : Set Nat :=
  { n | ∃ x ∈ e.versions, x.version.toNat = n ∧ x.state = .destroyed ∧ x.sealed ≠ none }

variable {st st' : Store} {id : Uuid} {e : ExportedSecret} {now : UnixTime}

/-- The row of an imported version is in the state that the version was in. -/
theorem importedRow_fields
    {v : ExportedVersion} {r : VersionRow}
    (h : importedRow id v = .ok r) :
    r.secretId = id ∧ r.version = v.version ∧ r.state = v.state ∧
      r.ciphertext = v.sealed.map SealedVersion.ciphertext := by
  unfold importedRow at h
  split at h
  · cases h
    exact ⟨rfl, rfl, rfl, rfl⟩
  · cases h

/-- An imported secret shows the versions it was exported with. -/
theorem numbers_import
    (himport : importSecretWithId st id e now = .ok st') :
    st'.numbers id = e.numbers ∧ st'.gone id = e.gone ∧ st'.laden id = e.laden := by
  obtain ⟨⟨rows, hall, hrows⟩, -, hfresh, -⟩ := importSecretWithId_eq_ok himport
  have hforeign : ∀ r ∈ st.versions.rows, r.secretId ≠ id := by
    intro r hr hid
    obtain ⟨s, hs, hsid⟩ := st.versionRefs r hr
    exact (hfresh s hs).2 (hsid.trans hid)
  have hleft : ∀ r ∈ st'.versions.rows, r.secretId = id →
      ∃ x ∈ e.versions, importedRow id x = .ok r := by
    intro r hr hid
    rw [hrows] at hr
    rcases List.mem_append.mp hr with hr | hr
    · exact absurd hid (hforeign r hr)
    · exact forall₂_mem_right hall hr
  have hright : ∀ x ∈ e.versions, ∃ r ∈ st'.versions.rows, importedRow id x = .ok r := by
    intro x hx
    obtain ⟨r, hr, hxr⟩ := forall₂_mem_left hall hx
    exact ⟨r, hrows ▸ List.mem_append_right _ hr, hxr⟩
  refine ⟨Set.ext fun n => ⟨?_, ?_⟩, Set.ext fun n => ⟨?_, ?_⟩, Set.ext fun n => ⟨?_, ?_⟩⟩
  · rintro ⟨v, a, ⟨r, hr, hslot, -⟩, rfl⟩
    obtain ⟨x, hx, hxr⟩ := hleft r hr (congrArg Prod.fst hslot)
    obtain ⟨-, hver, -⟩ := importedRow_fields hxr
    exact ⟨x, hx, congrArg Version.toNat (hver.symm.trans (congrArg Prod.snd hslot))⟩
  · rintro ⟨x, hx, rfl⟩
    obtain ⟨r, hr, hxr⟩ := hright x hx
    obtain ⟨hid, hver, -⟩ := importedRow_fields hxr
    exact ⟨x.version, r.state, ⟨r, hr, Prod.ext hid hver, rfl⟩, rfl⟩
  · rintro ⟨v, ⟨r, hr, hslot, hstate⟩, rfl⟩
    obtain ⟨x, hx, hxr⟩ := hleft r hr (congrArg Prod.fst hslot)
    obtain ⟨-, hver, hxstate, -⟩ := importedRow_fields hxr
    exact ⟨x, hx, congrArg Version.toNat (hver.symm.trans (congrArg Prod.snd hslot)),
      hxstate.symm.trans hstate⟩
  · rintro ⟨x, hx, rfl, hstate⟩
    obtain ⟨r, hr, hxr⟩ := hright x hx
    obtain ⟨hid, hver, hxstate, -⟩ := importedRow_fields hxr
    exact ⟨x.version, ⟨r, hr, Prod.ext hid hver, hxstate.trans hstate⟩, rfl⟩
  · rintro ⟨r, hr, hid, hstate, hholds, rfl⟩
    obtain ⟨x, hx, hxr⟩ := hleft r hr hid
    obtain ⟨-, hver, hxstate, hcipher⟩ := importedRow_fields hxr
    rw [hcipher, ne_eq, Option.map_eq_none_iff] at hholds
    exact ⟨x, hx, congrArg Version.toNat hver.symm, hxstate.symm.trans hstate, hholds⟩
  · rintro ⟨x, hx, rfl, hstate, hholds⟩
    obtain ⟨r, hr, hxr⟩ := hright x hx
    obtain ⟨hid, hver, hxstate, hcipher⟩ := importedRow_fields hxr
    refine ⟨r, hr, hid, hxstate.trans hstate, ?_, congrArg Version.toNat hver⟩
    rwa [hcipher, ne_eq, Option.map_eq_none_iff]

theorem numbers_import_other
    (himport : importSecretWithId st id e now = .ok st')
    {other : Uuid}
    (hne : other ≠ id) :
    st'.numbers other = st.numbers other ∧ st'.gone other = st.gone other ∧
      st'.laden other ⊆ st.laden other := by
  obtain ⟨⟨rows, hall, hrows⟩, -⟩ := importSecretWithId_eq_ok himport
  have hsame : ∀ r, r.secretId = other →
      (r ∈ st'.versions.rows ↔ r ∈ st.versions.rows) := by
    intro r hid
    rw [hrows, List.mem_append]
    constructor
    · rintro (hr | hr)
      · exact hr
      · obtain ⟨x, hx, hxr⟩ := forall₂_mem_right hall hr
        obtain ⟨hrid, -⟩ := importedRow_fields hxr
        exact absurd (hid.symm.trans hrid) hne
    · exact .inl
  obtain ⟨hnumbers, hgone⟩ := Store.numbers_eq_of_rows hsame
  exact ⟨hnumbers, hgone, Store.laden_subset_of_rows fun r hid => (hsame r hid).mp⟩

end Imported

/-- A store, with what the operations on it asked for. -/
structure Tracked where
  store : Store
  /-- What `delete_version` destroyed on request. -/
  requested : List (SecretPath × Version)
  /-- What an import brought in destroyed. -/
  tombstones : List (SecretPath × Version)
  /-- What an import brought in destroyed and with a payload. -/
  laden : List (SecretPath × Version)
  /-- The secrets that were imported and not written since. -/
  unpruned : List SecretPath

def Tracked.empty : Tracked :=
  ⟨Store.empty, [], [], [], []⟩

/-- Some operation asked for this version to be destroyed, or brought it in so. -/
def Tracked.Called (t : Tracked) (path : SecretPath) (v : Version) : Prop :=
  (path, v) ∈ t.requested ∨ (path, v) ∈ t.tombstones

/-- The numbers of these versions at `path`. -/
def Tracked.called (t : Tracked) (path : SecretPath) : Set Nat :=
  { n | ∃ v, t.Called path v ∧ v.toNat = n }

/-- What an operation destroys on request. -/
def StoreOp.requested (st : Store) : StoreOp → List (SecretPath × Version)
  | .deleteVersion path selector .destroy now =>
      match Storage.deleteVersion st path selector .destroy now with
      | .ok (_, v) => [(path, v)]
      | .error _ => []
  | _ => []

/-- The secret that an operation writes. -/
def StoreOp.written (st : Store) : StoreOp → Option SecretPath
  | .write path freshId began sealed info now =>
      match writeVersion st path freshId began sealed info now with
      | .ok _ => some path
      | .error _ => none
  | _ => none

def StoreOp.isImport : StoreOp → Bool
  | .importSecret _ _ _ => true
  | _ => false

/-- The versions of a secret to import that satisfy `keep`. -/
def ExportedSecret.having (e : ExportedSecret) (keep : ExportedVersion → Bool) :
    List (SecretPath × Version) :=
  (e.versions.filter keep).map fun x => (e.path, x.version)

/-- The operations of a run; an import may bring in any secret. -/
inductive TrackedOp where
  | own (op : StoreOp) (h : op.isImport = false)
  | importSecret (id : Uuid) (secret : ExportedSecret) (now : UnixTime)

def TrackedOp.step (t : Tracked) : TrackedOp → Tracked
  | .own op _ =>
      { t with
        store := op.step t.store
        requested := op.requested t.store ++ t.requested
        unpruned := t.unpruned.filter fun path => decide (op.written t.store ≠ some path) }
  | .importSecret id secret now =>
      match importSecretWithId t.store id secret now with
      | .ok st =>
          { t with
            store := st
            tombstones :=
              secret.having (fun x => decide (x.state = .destroyed)) ++ t.tombstones
            laden :=
              secret.having (fun x => decide (x.state = .destroyed ∧ x.sealed ≠ none)) ++ t.laden
            unpruned := secret.path :: t.unpruned }
      | .error _ => t

/-- What holds of a secret with a window. -/
structure Tracked.Keeps (t : Tracked) (s : SecretRow) : Prop where
  explained : 1 ≤ s.maxVersions.toNat →
    Explained s.maxVersions.toNat (t.store.numbers s.id) (t.store.gone s.id) (t.called s.path)
  trimmed : 1 ≤ s.maxVersions.toNat → s.path ∉ t.unpruned →
    Trimmed s.maxVersions.toNat (t.store.numbers s.id) (t.store.gone s.id)
  early : s.path ∈ t.unpruned → t.store.gone s.id ⊆ t.called s.path
  laden : ∀ n ∈ t.store.laden s.id, ∃ v, (s.path, v) ∈ t.laden ∧ v.toNat = n

/-- What holds of every tracked store that can be reached. -/
structure Tracked.Ok (t : Tracked) : Prop where
  dated : t.store.Dated
  kept : ∀ s ∈ t.store.secrets.rows, t.Keeps s

section Steps

variable {t : Tracked} {st' : Store} {more : List (SecretPath × Version)}

theorem ExportedSecret.mem_having
    {e : ExportedSecret} {keep : ExportedVersion → Bool} {v : Version} :
    (e.path, v) ∈ e.having keep ↔ ∃ x ∈ e.versions, keep x = true ∧ x.version = v := by
  simp [ExportedSecret.having, and_assoc]

/-- A step that adds no version, and destroys only on request. -/
theorem Tracked.Ok.frame
    (h : t.Ok)
    (hdated : st'.Dated)
    (hsecrets : ∀ s' ∈ st'.secrets.rows, ∃ s ∈ t.store.secrets.rows,
      s'.id = s.id ∧ s'.path = s.path ∧ s'.maxVersions = s.maxVersions)
    (hnumbers : ∀ id, st'.numbers id = t.store.numbers id)
    (hgone : ∀ s ∈ t.store.secrets.rows, t.store.gone s.id ⊆ st'.gone s.id ∧
      ∀ n ∈ st'.gone s.id, n ∈ t.store.gone s.id ∨ ∃ v, (s.path, v) ∈ more ∧ v.toNat = n)
    (hladen : ∀ id, st'.laden id ⊆ t.store.laden id) :
    Tracked.Ok { t with store := st', requested := more ++ t.requested } where
  dated := hdated
  kept := by
    intro s' hs'
    obtain ⟨s, hs, hid, hpath, hmax⟩ := hsecrets s' hs'
    obtain ⟨hexplained, htrimmed, hearly, hbrought⟩ := h.kept s hs
    obtain ⟨hsub, hnew⟩ := hgone s hs
    let t' : Tracked := { t with store := st', requested := more ++ t.requested }
    have hcalled : t.called s.path ⊆ t'.called s.path := by
      rintro n ⟨v, hv, rfl⟩
      exact ⟨v, hv.imp_left (List.mem_append_right more), rfl⟩
    have hmore : ∀ n ∈ st'.gone s.id, n ∈ t.store.gone s.id ∨ n ∈ t'.called s.path := by
      intro n hn
      refine (hnew n hn).imp_right ?_
      rintro ⟨v, hv, rfl⟩
      exact ⟨v, .inl (List.mem_append_left _ hv), rfl⟩
    refine ⟨?_, ?_, ?_, ?_⟩ <;> rw [hpath] <;> dsimp only <;> rw [hid] <;> try rw [hmax, hnumbers]
    · exact fun hm => (hexplained hm).discard hcalled hmore
    · exact fun hm hpruned => (htrimmed hm hpruned).discard hsub
    · intro hpath n hn
      exact (hmore n hn).elim (fun hn => hcalled (hearly hpath hn)) id
    · exact fun n hn => hbrought n (hladen s.id hn)

/-- A step that shows the same versions in the same states. -/
theorem Tracked.Ok.unseen
    (h : t.Ok)
    (hdated : st'.Dated)
    (hsecrets : ∀ s' ∈ st'.secrets.rows, ∃ s ∈ t.store.secrets.rows,
      s'.id = s.id ∧ s'.path = s.path ∧ s'.maxVersions = s.maxVersions)
    (hsame : ∀ id, st'.numbers id = t.store.numbers id ∧ st'.gone id = t.store.gone id)
    (hladen : ∀ id, st'.laden id ⊆ t.store.laden id) :
    Tracked.Ok { t with store := st' } := by
  have hgone : ∀ s ∈ t.store.secrets.rows, t.store.gone s.id ⊆ st'.gone s.id ∧
      ∀ n ∈ st'.gone s.id, n ∈ t.store.gone s.id ∨
        ∃ v, (s.path, v) ∈ ([] : List (SecretPath × Version)) ∧ v.toNat = n := by
    intro s _
    rw [(hsame s.id).2]
    exact ⟨subset_rfl, fun n hn => .inl hn⟩
  exact h.frame hdated hsecrets (fun id => (hsame id).1) hgone hladen

theorem Tracked.Ok.touched
    (h : t.Ok)
    (hdated : st'.Dated)
    (htouch : t.store.Touched st') :
    Tracked.Ok { t with store := st' } := by
  obtain ⟨f, hf, hsecrets, hversions, -⟩ := htouch
  refine h.unseen hdated ?_ ?_ ?_
  · intro s' hs'
    rw [hsecrets] at hs'
    obtain ⟨s, hs, rfl⟩ := List.mem_map.mp hs'
    exact ⟨s, hs, (hf s).1, (hf s).2.1, (hf s).2.2.2⟩
  · intro id
    refine Store.numbers_eq_of_rows fun r _ => ?_
    rw [hversions]
  · intro id
    refine Store.laden_subset_of_rows fun r _ hr => ?_
    rwa [← hversions]

theorem secrets_pointCurrent
    {st : Store} {id : Uuid} {current : Option Version} {at_ : Int64} {s' : SecretRow}
    (hs' : s' ∈ (st.pointCurrent id current at_).secrets.rows) :
    ∃ s ∈ st.secrets.rows, s'.id = s.id ∧ s'.path = s.path ∧
      s'.maxVersions = s.maxVersions := by
  obtain ⟨s, hs, rfl⟩ := Store.mem_pointCurrent.mp hs'
  refine ⟨s, hs, ?_⟩
  split <;> exact ⟨rfl, rfl, rfl⟩

theorem Tracked.Ok.deleteVersion
    {path : SecretPath} {selector : VersionSelector} {mode : DeleteMode} {now : UnixTime}
    {v : Version}
    (h : t.Ok)
    (hdel : deleteVersion t.store path selector mode now = .ok (st', v))
    (hmore : mode = .destroy → (path, v) ∈ more) :
    Tracked.Ok { t with store := st', requested := more ++ t.requested } := by
  have hdated := dated_deleteVersion h.dated hdel
  obtain ⟨s, hs, rfl⟩ := deleteVersion_eq_ok hdel
  obtain ⟨hmem, hpath⟩ := Store.secretByPath_eq_some_iff.mp hs
  refine h.frame hdated (fun s' hs' => secrets_pointCurrent hs')
    (fun id => numbers_removeVersion t.store (s.id, v) mode id) ?_
    (fun id => laden_removeVersion t.store (s.id, v) mode id)
  intro q hq
  obtain ⟨hsub, hnew⟩ := gone_removeVersion t.store (s.id, v) mode q.id
  refine ⟨hsub, ?_⟩
  intro n hn
  rcases hnew n hn with hn | ⟨hmode, hid, hv⟩
  · exact .inl hn
  · have hqs : q = s := t.store.secrets.eq_of_key_eq hq hmem hid
    refine .inr ⟨v, ?_, hv.symm⟩
    rw [hqs, hpath]
    exact hmore hmode

/-- What is gone of the secret that a write is about, existing or not, is explained. -/
theorem Tracked.Ok.slot
    {path : SecretPath} {freshId : Uuid} {began : UnixTime} {slot : WriteSlot}
    (h : t.Ok)
    (hbegin : beginWrite t.store path freshId began = .ok slot) :
    (1 ≤ slot.maxVersions.toNat → Explained slot.maxVersions.toNat
        (t.store.numbers slot.secretId) (t.store.gone slot.secretId) (t.called path)) ∧
      ∀ n ∈ t.store.laden slot.secretId, ∃ v, (path, v) ∈ t.laden ∧ v.toNat = n := by
  obtain ⟨-, -, ⟨s, hs, -, hid, hmax⟩ | ⟨-, hid, hfresh, hrows⟩⟩ := beginWrite_eq_ok hbegin
  · obtain ⟨hmem, hpath⟩ := Store.secretByPath_eq_some_iff.mp hs
    obtain ⟨hexplained, -, -, hladen⟩ := h.kept s hmem
    rw [hid, hmax, ← hpath]
    exact ⟨hexplained, hladen⟩
  · have hnone : ∀ r ∈ t.store.versions.rows, r.secretId ≠ slot.secretId := by
      intro r hr hrid
      obtain ⟨s, hs, hsid⟩ := t.store.versionRefs r hr
      exact hfresh s hs (hsid.trans (hrid.trans hid))
    refine ⟨?_, ?_⟩
    · rintro - v ⟨u, ⟨r, hr, hslot, -⟩, -⟩
      exact absurd (congrArg Prod.fst hslot) (hnone r hr)
    · rintro n ⟨r, hr, hrid, -⟩
      exact absurd hrid (hnone r hr)

/-- The secrets after a write are those before it and the one that is written. -/
theorem secrets_commit
    {st : Store} {path : SecretPath} {freshId : Uuid} {began now : UnixTime} {slot : WriteSlot}
    {sealed : SealedVersion} {info : WriteMeta} {v : Version} {s' : SecretRow}
    (hbegin : beginWrite st path freshId began = .ok slot)
    (hcommit : slot.commit sealed info now = .ok (st', v))
    (hs' : s' ∈ st'.secrets.rows) :
    (s'.id = slot.secretId ∧ s'.path = path ∧ s'.maxVersions = slot.maxVersions) ∨
      (s'.id ≠ slot.secretId ∧ s'.path ≠ path ∧ s' ∈ st.secrets.rows) := by
  obtain ⟨q, hq, hqpath, hqid, hqmax⟩ := beginWrite_window hbegin
  obtain ⟨-, -, hcase⟩ := beginWrite_eq_ok hbegin
  obtain ⟨-, mid, hmid, rfl⟩ := WriteSlot.commit_eq_ok hcommit
  obtain ⟨-, -, hsecrets, -⟩ := Store.insertVersion_eq_ok hmid
  rw [prune_secrets] at hs'
  obtain ⟨s, hs, rfl⟩ := Store.mem_pointCurrent.mp hs'
  rw [hsecrets] at hs
  by_cases hid : s.id = slot.secretId
  · have hsq : s = q := slot.tx.secrets.eq_of_key_eq hs hq (hid.trans hqid.symm)
    rw [if_pos hid]
    exact .inl ⟨hid, hsq ▸ hqpath, hsq ▸ hqmax⟩
  · rw [if_neg hid]
    refine .inr ⟨hid, ?_, ?_⟩
    · intro hpath
      have hsq : s = q := List.inj_on_of_nodup_map slot.tx.paths hs hq (hpath.trans hqpath.symm)
      exact hid (hsq ▸ hqid)
    · rcases hcase with ⟨-, -, htx, -⟩ | ⟨-, hfresh, -, hrows⟩
      · rwa [← htx]
      · rw [hrows] at hs
        rcases List.mem_append.mp hs with hs | hs
        · exact hs
        · obtain rfl := List.mem_singleton.mp hs
          exact absurd hfresh.symm hid

theorem Tracked.Ok.commit
    {path : SecretPath} {freshId : Uuid} {began now : UnixTime} {slot : WriteSlot}
    {sealed : SealedVersion} {info : WriteMeta} {v : Version}
    (h : t.Ok)
    (hbegin : beginWrite t.store path freshId began = .ok slot)
    (hcommit : slot.commit sealed info now = .ok (st', v)) :
    Tracked.Ok
      { t with
        store := st'
        unpruned := t.unpruned.filter fun p => decide (some path ≠ some p) } where
  dated := dated_commit h.dated hbegin hcommit
  kept := by
    intro s' hs'
    have hladen := laden_commit hbegin hcommit s'.id
    rcases secrets_commit hbegin hcommit hs' with ⟨hid, hpath, hmax⟩ | ⟨hid, hpath, hs⟩
    · have hhigher : ∀ n ∈ t.store.numbers slot.secretId, n < slot.version.toNat := by
        intro n hn
        have hle := Store.numbers_le_highest hn
        have hversion := beginWrite_version hbegin
        obtain ⟨-, hversions, -⟩ := beginWrite_eq_ok hbegin
        rw [Store.highestVersion, Store.versionsOf, hversions] at hversion
        rw [Store.highestVersion, Store.versionsOf] at hle
        omega
      have hdropped : path ∉ t.unpruned.filter fun p => decide (some path ≠ some p) := by
        exact fun hmem => of_decide_eq_true (List.mem_filter.mp hmem).2 rfl
      obtain ⟨hexplained, hbrought⟩ := h.slot hbegin
      refine ⟨?_, ?_, ?_, ?_⟩ <;> rw [hpath] <;> dsimp only
      · intro hm
        rw [hmax] at hm
        rw [hid, hmax, numbers_commit hbegin hcommit, gone_commit hbegin hcommit hm]
        exact (hexplained hm).publish _
      · intro hm _
        rw [hmax] at hm
        rw [hid, hmax, numbers_commit hbegin hcommit, gone_commit hbegin hcommit hm]
        exact trimmed_publish hm hhigher _
      · exact fun hmem => absurd hmem hdropped
      · rw [hid] at hladen ⊢
        exact fun n hn => hbrought n (hladen hn)
    · obtain ⟨hnumbers, hgone⟩ := numbers_commit_other hbegin hcommit hid
      obtain ⟨hexplained, htrimmed, hearly, hbrought⟩ := h.kept s' hs
      refine ⟨?_, ?_, ?_, fun n hn => hbrought n (hladen hn)⟩ <;> dsimp only <;> rw [hgone]
      · rw [hnumbers]
        exact hexplained
      · rw [hnumbers]
        intro hm hpruned
        refine htrimmed hm fun hmem => hpruned (List.mem_filter.mpr ⟨hmem, ?_⟩)
        exact decide_eq_true fun heq => hpath (Option.some.inj heq).symm
      · exact fun hmem => hearly (List.mem_filter.mp hmem).1

theorem Tracked.Ok.import
    {id : Uuid} {secret : ExportedSecret} {now : UnixTime}
    (h : t.Ok)
    (himport : importSecretWithId t.store id secret now = .ok st') :
    Tracked.Ok
      { t with
        store := st'
        tombstones := secret.having (fun x => decide (x.state = .destroyed)) ++ t.tombstones
        laden :=
          secret.having (fun x => decide (x.state = .destroyed ∧ x.sealed ≠ none)) ++ t.laden
        unpruned := secret.path :: t.unpruned } where
  dated := dated_import h.dated himport
  kept := by
    intro s' hs'
    obtain ⟨-, hsecrets, hfresh, -⟩ := importSecretWithId_eq_ok himport
    rcases (hsecrets s').mp hs' with hs | rfl
    · obtain ⟨hnumbers, hgone, hladen⟩ := numbers_import_other himport (hfresh s' hs).2
      obtain ⟨hexplained, htrimmed, hearly, hbrought⟩ := h.kept s' hs
      have hcalled : ∀ n, (∃ v, t.Called s'.path v ∧ v.toNat = n) →
          ∃ v, ((s'.path, v) ∈ t.requested ∨ (s'.path, v) ∈
            secret.having (fun x => decide (x.state = .destroyed)) ++ t.tombstones) ∧
              v.toNat = n := by
        rintro n ⟨v, hv, rfl⟩
        exact ⟨v, hv.imp_right (List.mem_append_right _), rfl⟩
      refine ⟨?_, ?_, ?_, ?_⟩ <;> dsimp only
      · rw [hnumbers, hgone]
        exact fun hm => (hexplained hm).discard hcalled fun n hn => .inl hn
      · rw [hnumbers, hgone]
        exact fun hm hpruned => htrimmed hm fun hmem => hpruned (List.mem_cons_of_mem _ hmem)
      · rw [hgone]
        intro hmem n hn
        rcases List.mem_cons.mp hmem with hpath | hmem
        · exact absurd hpath (hfresh s' hs).1
        · exact hcalled n (hearly hmem hn)
      · intro n hn
        obtain ⟨v, hv, rfl⟩ := hbrought n (hladen hn)
        exact ⟨v, List.mem_append_right _ hv, rfl⟩
    · obtain ⟨hnumbers, hgone, hladen⟩ := numbers_import himport
      have hcalled : ∀ n ∈ st'.gone id, ∃ v, ((secret.path, v) ∈ t.requested ∨ (secret.path, v) ∈
          secret.having (fun x => decide (x.state = .destroyed)) ++ t.tombstones) ∧
            v.toNat = n := by
        rw [hgone]
        rintro n ⟨x, hx, rfl, hstate⟩
        exact ⟨x.version, .inr (List.mem_append_left _
          (ExportedSecret.mem_having.mpr ⟨x, hx, decide_eq_true hstate, rfl⟩)), rfl⟩
      refine ⟨fun _ => explained_of_subset hcalled, ?_, fun _ => hcalled, ?_⟩
      · exact fun _ hpruned => absurd List.mem_cons_self hpruned
      · show ∀ n ∈ st'.laden id, _
        rw [hladen]
        rintro n ⟨x, hx, rfl, hstate⟩
        exact ⟨x.version, List.mem_append_left _
          (ExportedSecret.mem_having.mpr ⟨x, hx, decide_eq_true hstate, rfl⟩), rfl⟩

/-- Every operation that is not an import keeps to the windows. -/
theorem Tracked.Ok.own
    (h : t.Ok) (op : StoreOp)
    (hop : op.isImport = false) :
    (TrackedOp.step t (.own op hop)).Ok := by
  have hsame : Tracked.Ok
      { t with unpruned := t.unpruned.filter fun path => decide (none ≠ some path) } := by
    have hall : t.unpruned.filter (fun path => decide (none ≠ some path)) = t.unpruned :=
      List.filter_eq_self.mpr fun _ _ => rfl
    rw [hall]
    exact h
  cases op with
  | write path freshId began sealed info now =>
      cases hwrite : writeVersion t.store path freshId began sealed info now with
      | ok out =>
          obtain ⟨st', v⟩ := out
          obtain ⟨slot, hbegin, hcommit⟩ := bind_eq_ok.mp hwrite
          simp only [TrackedOp.step, StoreOp.step, StoreOp.requested, StoreOp.written, hwrite,
            List.nil_append]
          exact h.commit hbegin hcommit
      | error e =>
          simp only [TrackedOp.step, StoreOp.step, StoreOp.requested, StoreOp.written, hwrite,
            List.nil_append]
          exact hsame
  | abandonWrite path freshId began =>
      exact hsame
  | rollback path target now =>
      simp only [TrackedOp.step, StoreOp.step, StoreOp.requested, StoreOp.written,
        List.nil_append]
      split
      · rename_i st' hroll
        have hdated := dated_rollback h.dated hroll
        obtain ⟨s, r, -, -, -, -, rfl⟩ := rollback_eq_ok hroll
        exact hsame.unseen hdated (fun s' hs' => secrets_pointCurrent hs')
          (fun id => ⟨rfl, rfl⟩) (fun id => subset_rfl)
      · exact hsame
  | deleteVersion path selector mode now =>
      cases hdel : Storage.deleteVersion t.store path selector mode now with
      | ok out =>
          obtain ⟨st', v⟩ := out
          simp only [TrackedOp.step, StoreOp.step, StoreOp.written, hdel]
          refine hsame.deleteVersion hdel ?_
          rintro rfl
          simp [StoreOp.requested, hdel]
      | error e =>
          have hnone : StoreOp.requested t.store (.deleteVersion path selector mode now) = [] := by
            cases mode with
            | soft => rfl
            | destroy => simp [StoreOp.requested, hdel]
          simp only [TrackedOp.step, StoreOp.step, StoreOp.written, hdel, hnone,
            List.nil_append]
          exact hsame
  | addTags path tags now =>
      simp only [TrackedOp.step, StoreOp.step, StoreOp.requested, StoreOp.written,
        List.nil_append]
      split
      · rename_i st' hadd
        exact hsame.touched (dated_addTags h.dated hadd) (addTags_frame hadd)
      · exact hsame
  | removeTags path selectors now =>
      simp only [TrackedOp.step, StoreOp.step, StoreOp.requested, StoreOp.written,
        List.nil_append]
      split
      · rename_i st' hremove
        exact hsame.touched (dated_removeTags h.dated hremove) (removeTags_frame hremove)
      · exact hsame
  | rekeyWith newSealedMaster rewrap =>
      simp only [TrackedOp.step, StoreOp.step, StoreOp.requested, StoreOp.written,
        List.nil_append]
      split
      · rename_i st' report hrekey
        obtain ⟨-, hsecrets, -⟩ := rekeyWith_eq_ok hrekey
        refine hsame.unseen (h.dated.of_secrets hsecrets) ?_
          (fun id => numbers_rekeyWith hrekey id) (fun id => laden_rekeyWith hrekey id)
        intro s' hs'
        rw [hsecrets] at hs'
        exact ⟨s', hs', rfl, rfl, rfl⟩
      · exact hsame
  | importSecret id secret now =>
      cases hop

theorem Tracked.Ok.step
    (h : t.Ok) (op : TrackedOp) :
    (op.step t).Ok := by
  cases op with
  | own op hop =>
      exact h.own op hop
  | importSecret id secret now =>
      simp only [TrackedOp.step]
      split
      · rename_i st' himport
        exact h.import himport
      · exact h

theorem Tracked.reachable_ok
    (ops : List TrackedOp) :
    (run TrackedOp.step Tracked.empty ops).Ok := by
  refine run_invariant Tracked.Ok (fun _ => True) (fun _ op _ h => h.step op)
    (fun _ _ => trivial) ⟨?_, ?_⟩
  · intro s hs
    cases hs
  · intro s hs
    cases hs

end Steps

section Results

variable {t : Tracked}

/-- How many versions of a secret are not destroyed. -/
def Store.retained (st : Store) (id : Uuid) : Nat :=
  (st.versionsOf id).countP fun r => decide (r.state ≠ .destroyed)

/-- How many versions of a secret hold a payload. -/
def Store.holding (st : Store) (id : Uuid) : Nat :=
  (st.versionsOf id).countP fun r => r.ciphertext.isSome

/-- No import brought in a destroyed version of this secret with a payload. -/
def Tracked.Unladen (t : Tracked) (path : SecretPath) : Prop :=
  ∀ v, (path, v) ∉ t.laden

/-- A version holds a payload until it is destroyed. -/
theorem Tracked.Ok.holding_eq
    (h : t.Ok) {s : SecretRow}
    (hs : s ∈ t.store.secrets.rows)
    (hunladen : t.Unladen s.path) :
    t.store.holding s.id = t.store.retained s.id := by
  refine List.countP_congr fun r hr => ?_
  obtain ⟨hmem, hid⟩ := Store.mem_versionsOf.mp hr
  rw [decide_eq_true_iff]
  constructor
  · intro hholds hstate
    obtain ⟨v, hv, -⟩ := (h.kept s hs).laden _
      ⟨r, hmem, hid, hstate, Option.isSome_iff_ne_none.mp hholds, rfl⟩
    exact hunladen v hv
  · intro hstate
    exact Option.isSome_iff_ne_none.mpr (r.check.resolve_left hstate)

/-- At most a window's worth of versions is left. -/
theorem Tracked.Ok.retained_le
    (h : t.Ok) {s : SecretRow}
    (hs : s ∈ t.store.secrets.rows)
    (hm : 1 ≤ s.maxVersions.toNat)
    (hpruned : s.path ∉ t.unpruned) :
    t.store.retained s.id ≤ s.maxVersions.toNat := by
  rw [Store.retained, List.countP_eq_length_filter]
  cases hlist : t.store.versionsOf s.id with
  | nil => exact Nat.zero_le _
  | cons first rest =>
      rw [← hlist]
      have hfirst : first ∈ t.store.versionsOf s.id := hlist ▸ List.mem_cons_self
      have htrimmed := (h.kept s hs).trimmed hm hpruned
      have hnodup : ((t.store.versionsOf s.id).map fun r => r.version.toNat).Nodup := by
        refine List.Nodup.map_on ?_ ((List.Nodup.of_map _ t.store.versions.unique).filter _)
        intro r hr q hq heq
        exact Store.versionsOf_unique hr hq heq
      have hlen := htrimmed.length_le (Store.highest_mem_numbers hfirst)
        (fun w hw => Store.numbers_le_highest hw)
        (hnodup.sublist (List.filter_sublist (p := fun r => decide (r.state ≠ .destroyed)).map _))
        (by
          intro v hv
          obtain ⟨r, hr, rfl⟩ := List.mem_map.mp hv
          obtain ⟨hr, hlive⟩ := List.mem_filter.mp hr
          exact ⟨Store.mem_numbers hr, fun hg =>
            of_decide_eq_true hlive ((Store.mem_gone_iff hr).mp hg)⟩)
      rwa [List.length_map] at hlen

theorem summary_versionCount
    {st : Store} {s : SecretRow} {x : SecretSummary}
    (h : summary st s = .ok x) :
    x.versionCount = st.retained s.id := by
  obtain ⟨createdAt, -, h⟩ := bind_eq_ok.mp h
  obtain ⟨updatedAt, -, h⟩ := bind_eq_ok.mp h
  cases h
  rfl

/-- `list` counts the versions that are not destroyed. -/
theorem Tracked.Ok.list
    (h : t.Ok) {filter : ListFilter}
    (hfew : filter.tags.length ≤ filter.mostTags) :
    ∃ listed, Storage.list t.store filter = .ok listed ∧
      ∀ x ∈ listed, ∃ s ∈ t.store.secrets.rows, s.path = x.path ∧
        x.versionCount = t.store.retained s.id ∧
        (t.Unladen s.path → x.versionCount = t.store.holding s.id) := by
  obtain ⟨listed, hlisted, -, -, hmem⟩ := list_spec h.dated hfew
  refine ⟨listed, hlisted, ?_⟩
  intro x hx
  obtain ⟨s, hs, -, hsum⟩ := (hmem x).mp hx
  refine ⟨s, hs, (summary_path hsum).symm, summary_versionCount hsum, ?_⟩
  intro hunladen
  rw [summary_versionCount hsum, h.holding_eq hs hunladen]

/-- A write keeps what it publishes, and the rows of the last versions as they were. -/
theorem writeVersion_keeps
    {st st' : Store} {path : SecretPath} {freshId : Uuid} {began now : UnixTime}
    {sealed : SealedVersion} {info : WriteMeta} {v : Version}
    (hwrite : writeVersion st path freshId began sealed info now = .ok (st', v)) :
    ∃ s, st'.secretByPath path = some s ∧ (1 ≤ s.maxVersions.toNat →
      st'.Seen s.id v .active ∧
      ∀ r ∈ st.versionsOf s.id, v.toNat < r.version.toNat + s.maxVersions.toNat →
        r ∈ st'.versions.rows) := by
  obtain ⟨slot, hbegin, hcommit⟩ := bind_eq_ok.mp hwrite
  obtain ⟨s, hs, hid, hmax⟩ := commit_secret hbegin hcommit
  obtain ⟨rfl, -⟩ := WriteSlot.commit_eq_ok hcommit
  refine ⟨s, hs, fun hm => ⟨?_, ?_⟩⟩
  · refine ⟨slot.row sealed info now,
      (mem_commit hbegin hcommit).mpr ⟨_, .inr rfl, if_neg ?_⟩, ?_, rfl⟩
    · rw [outOfWindow_iff (hmax ▸ hm)]
      rintro ⟨-, -, hle⟩
      have : slot.version.toNat + slot.maxVersions.toNat ≤ slot.version.toNat := hle
      rw [hmax] at hm
      omega
    · rw [hid]
      rfl
  · intro r hr hlt
    obtain ⟨hr, hrid⟩ := Store.mem_versionsOf.mp hr
    refine (mem_commit hbegin hcommit).mpr ⟨r, .inl hr, if_neg ?_⟩
    rw [outOfWindow_iff (hmax ▸ hm)]
    rintro ⟨-, -, hle⟩
    rw [hmax] at hlt
    omega

/--
Retention over whole runs, imports of any secrets included.  Take a secret with
window `m ≥ 1` and highest version `n`.  What is numbered above `n - m` is
destroyed only on request, or because an import brought it in so.  Unless the
secret was imported and not written since, what is numbered `n - m` or less is
destroyed, and at most `m` versions are left.  Where it was, nothing at all is
destroyed but on request or by the import.  `list` counts the versions that are
left, which are those that hold a payload unless an import brought in a payload
in a destroyed version; and no write that succeeds destroys the version it
publishes or one of the last `m`.
-/
theorem retention_window
    (ops : List TrackedOp) :
    let t := run TrackedOp.step Tracked.empty ops
    (∀ s ∈ t.store.secrets.rows, 1 ≤ s.maxVersions.toNat →
      (∀ r ∈ t.store.versionsOf s.id,
        t.store.highestVersion s.id < r.version.toNat + s.maxVersions.toNat →
          r.state = .destroyed → t.Called s.path r.version) ∧
      (s.path ∉ t.unpruned →
        (∀ r ∈ t.store.versionsOf s.id,
          r.version.toNat + s.maxVersions.toNat ≤ t.store.highestVersion s.id →
            r.state = .destroyed) ∧
        t.store.retained s.id ≤ s.maxVersions.toNat ∧
        (t.Unladen s.path → t.store.holding s.id ≤ s.maxVersions.toNat)) ∧
      (s.path ∈ t.unpruned → ∀ r ∈ t.store.versionsOf s.id,
        r.state = .destroyed → t.Called s.path r.version)) ∧
    (∀ filter : ListFilter,
      (filter.tags.length ≤ filter.mostTags → ∃ listed, list t.store filter = .ok listed ∧
        ∀ x ∈ listed, ∃ s ∈ t.store.secrets.rows, s.path = x.path ∧
          x.versionCount = t.store.retained s.id ∧
          (t.Unladen s.path → x.versionCount = t.store.holding s.id)) ∧
      (filter.mostTags < filter.tags.length →
        list t.store filter = .error (.sqlite .failure))) ∧
    ∀ path freshId began sealed info now st' v,
      writeVersion t.store path freshId began sealed info now = .ok (st', v) →
      ∃ s, st'.secretByPath path = some s ∧ (1 ≤ s.maxVersions.toNat →
        st'.Seen s.id v .active ∧
        ∀ r ∈ t.store.versionsOf s.id, v.toNat < r.version.toNat + s.maxVersions.toNat →
          r ∈ st'.versions.rows) := by
  intro t
  have h : t.Ok := Tracked.reachable_ok ops
  refine ⟨?_, fun filter => ⟨fun hfew => h.list hfew, list_of_not_prepares t.store⟩,
    fun path freshId began sealed info now st' v => writeVersion_keeps⟩
  intro s hs hm
  obtain ⟨hexplained, htrimmed, hearly, -⟩ := h.kept s hs
  have hcalled : ∀ {v : Version}, v.toNat ∈ t.called s.path → t.Called s.path v := by
    rintro v ⟨w, hw, hnum⟩
    rwa [← Version.toNat_inj.mp hnum]
  refine ⟨?_, ?_, ?_⟩
  · intro r hr hlt hstate
    exact hcalled ((hexplained hm).called_of_lt (fun w hw => Store.numbers_le_highest hw)
      ((Store.mem_gone_iff hr).mpr hstate) hlt)
  · intro hpruned
    have hle := h.retained_le hs hm hpruned
    refine ⟨?_, hle, fun hunladen => (h.holding_eq hs hunladen).trans_le hle⟩
    intro r hr hbehind
    exact (Store.mem_gone_iff hr).mp (htrimmed hm hpruned _ (Store.mem_numbers hr) _
      (Store.highest_mem_numbers hr) hbehind)
  · intro himported r hr hstate
    exact hcalled (hearly himported ((Store.mem_gone_iff hr).mpr hstate))

/-- A secret that keeps one version, with two that can be read. -/
def crowdedSecret : ExportedSecret where
  path := samplePath
  tags := []
  maxVersions := 1
  currentVersion := some secondVersion
  versions :=
    [⟨firstVersion, .active, sampleTime 100, none, none, some (sampleSealedVersion 1)⟩,
      ⟨secondVersion, .active, sampleTime 101, none, none, some (sampleSealedVersion 2)⟩]

/-- It is imported into an empty store. -/
def crowdedOps : List TrackedOp :=
  [.importSecret (sampleUuid 5) crowdedSecret (sampleTime 200)]

/-- An import brings in what its own window would not have kept. -/
theorem import_exceeds_window :
    ¬ ∀ ops : List TrackedOp,
      let t := run TrackedOp.step Tracked.empty ops
      ∀ s ∈ t.store.secrets.rows, 1 ≤ s.maxVersions.toNat → ∀ r ∈ t.store.versionsOf s.id,
        r.version.toNat + s.maxVersions.toNat ≤ t.store.highestVersion s.id →
          r.state = .destroyed := by
  intro hclaim
  have hfails :
      let t := run TrackedOp.step Tracked.empty crowdedOps
      ∃ s ∈ t.store.secrets.rows, 1 ≤ s.maxVersions.toNat ∧ ∃ r ∈ t.store.versionsOf s.id,
        r.version.toNat + s.maxVersions.toNat ≤ t.store.highestVersion s.id ∧
          r.state ≠ .destroyed := by
    decide +kernel
  obtain ⟨s, hs, hm, r, hr, hbehind, hlive⟩ := hfails
  exact hlive (hclaim crowdedOps s hs hm r hr hbehind)

end Results

end Storage
end Secretbae
