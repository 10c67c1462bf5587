import Secretbae.Service.Restore
import Secretbae.Store.Openable

/-!
# What a backup carries, and what is restored from it

A bundle carries a row of the store in plaintext (`BackedUp`), and a row is
restored from what the bundle carries under another key and another id
(`RestoredAs`).  `backupBundle_spec` and `restoreSecrets_spec` lift the two
relations to whole stores, and the round trip is their composition.
-/

namespace Secretbae
namespace Service

open Lib Proto Core Audit Storage Policies
open Daemon (KeyMaterial Database PeerCredentials Denied ApiError recordEntry)

/-- What a bundle carries of a row. -/
structure BackedUp (P : Primitives) (F : Foreign) (master : MasterKey) (r : VersionRow)
    (v : BackupVersion) : Prop where
  version : v.version = r.version
  state : v.state = r.state
  createdAt : ∃ t, timestamp r.createdAt = .ok t ∧ v.createdAt = rfc3339 F t
  createdBy : v.createdBy = r.createdBy
  comment : v.comment = r.comment
  value :
    (r.state = .destroyed ∧ v.value = none) ∨
      (r.state ≠ .destroyed ∧ ∃ s x, r.Holds s ∧ s.openAt P master r.binding = .ok x ∧
        v.value = some (F.base64Encode x))

/-- What becomes of a version of a bundle, under the id of its new secret. -/
structure RestoredAs (P : Primitives) (F : Foreign) (master : MasterKey) (id : Uuid)
    (v : BackupVersion) (r : VersionRow) : Prop where
  slot : r.slot = (id, v.version)
  state : r.state = v.state
  createdAt : ∃ now, r.createdAt = (parseRfc3339 F v.createdAt now).seconds
  createdBy : r.createdBy = v.createdBy
  comment : r.comment = v.comment
  value :
    (v.value = none ∧ r.Cleared) ∨
      ∃ value x s, v.value = some value ∧ F.base64Decode value = some x ∧ r.Holds s ∧
        s.openAt P master r.binding = .ok x

/-- What a bundle carries of a secret. -/
structure CarriedSecret (P : Primitives) (F : Foreign) (master : MasterKey) (st : Store)
    (s : SecretRow) (b : BackupSecret) : Prop where
  path : b.path = s.path
  tags : b.tags = st.tagsOf s.id
  maxVersions : b.maxVersions = s.maxVersions
  currentVersion : b.currentVersion = s.currentVersion
  versions :
    List.Forall₂ (BackedUp P F master)
      ((st.versionsOf s.id).mergeSort
        fun a b => decide (a.version.toNat ≤ b.version.toNat)) b.versions

/-- A secret of a bundle is in a store. -/
structure RestoredSecret (P : Primitives) (F : Foreign) (master : MasterKey) (st : Store)
    (b : BackupSecret) (s : SecretRow) : Prop where
  mem : s ∈ st.secrets.rows
  path : s.path = b.path
  maxVersions : s.maxVersions = b.maxVersions
  currentVersion : s.currentVersion = b.currentVersion
  versions : List.Forall₂ (RestoredAs P F master s.id) b.versions (st.versionsOf s.id)
  tags : ∀ t, st.Carries b.path t ↔ t ∈ b.tags

section Backup

variable {P : Primitives} {F : Foreign} {keys : KeyMaterial P} {st : Store}

/-- A row of a store whose versions all open is backed up. -/
theorem exists_backedUp
    {r : VersionRow}
    (hrows : st.RowsWellFormed)
    (hopen : st.AllOpen P keys.master)
    (hr : r ∈ st.versions.rows) :
    ∃ x v, exportedVersion r = .ok x ∧ backupVersion P F keys r.secretId x = .ok v ∧
      BackedUp P F keys.master r v := by
  have hwf := hrows r hr
  obtain ⟨t, ht⟩ : ∃ t, timestamp r.createdAt = .ok t := ⟨_, dif_pos hwf.time⟩
  by_cases hdestroyed : r.state = .destroyed
  · have hsealed := VersionRow.exportSealed_of_cleared (hwf.destroyed hdestroyed)
    refine ⟨_, _, bind_eq_ok.mpr ⟨none, hsealed, bind_eq_ok.mpr ⟨t, ht, rfl⟩⟩, rfl,
      rfl, rfl, ⟨t, ht, rfl⟩, rfl, rfl, .inl ⟨hdestroyed, rfl⟩⟩
  · obtain ⟨s, x, hholds, hx⟩ := hopen r hr hdestroyed
    have hsealed := VersionRow.exportSealed_of_holds hholds
    have hx' : s.openAt P keys.master ⟨r.secretId, r.version.get⟩ = .ok x := hx
    refine ⟨_, ⟨r.version, r.state, rfc3339 F t, r.createdBy, r.comment,
      some (F.base64Encode x)⟩, bind_eq_ok.mpr ⟨some s, hsealed, bind_eq_ok.mpr ⟨t, ht, rfl⟩⟩,
      ?_, rfl, rfl, ⟨t, ht, rfl⟩, rfl, rfl, .inr ⟨hdestroyed, s, x, hholds, hx, rfl⟩⟩
    simp only [backupVersion, hx']
    rfl

/-- The versions of a secret are backed up, in order. -/
theorem exists_backup_versions
    (hrows : st.RowsWellFormed)
    (hopen : st.AllOpen P keys.master)
    (id : Uuid) :
    ∃ xs vs, exportedVersions st id = .ok xs ∧ xs.mapM (backupVersion P F keys id) = .ok vs ∧
      List.Forall₂ (BackedUp P F keys.master)
        ((st.versionsOf id).mergeSort
          fun a b => decide (a.version.toNat ≤ b.version.toNat)) vs := by
  refine exists_mapM_mapM ?_
  intro r hr
  obtain ⟨hmem, rfl⟩ := Store.mem_versionsOf.mp (List.mem_mergeSort.mp hr)
  exact exists_backedUp hrows hopen hmem

/-- A secret is backed up. -/
theorem exists_backup_secret
    {s : SecretRow}
    (hrows : st.RowsWellFormed)
    (hopen : st.AllOpen P keys.master)
    (hs : s ∈ st.secrets.rows) :
    ∃ e b, exportedSecret st s = .ok e ∧ backupSecret P F keys st e = .ok b ∧
      CarriedSecret P F keys.master st s b := by
  obtain ⟨xs, vs, hxs, hvs, hrel⟩ := exists_backup_versions (F := F) hrows hopen s.id
  have hfound := Store.secretByPath_of_mem hs
  have hid : secretId st s.path = .ok s.id := secretId_eq_ok.mpr ⟨s, hfound, rfl⟩
  refine ⟨_, ⟨s.path, st.tagsOf s.id, s.maxVersions, s.currentVersion, vs⟩,
    bind_eq_ok.mpr ⟨_, tags_eq_ok hfound, bind_eq_ok.mpr ⟨xs, hxs, rfl⟩⟩,
    bind_eq_ok.mpr ⟨s.id, mapError_eq_ok.mpr hid, bind_eq_ok.mpr ⟨vs, hvs, rfl⟩⟩,
    rfl, rfl, rfl, rfl, hrel⟩

/-- A backup of a store whose versions all open succeeds, and carries every secret. -/
theorem backupBundle_spec
    (hrows : st.RowsWellFormed)
    (hopen : st.AllOpen P keys.master)
    (access : Access) (now : UnixTime) :
    ∃ bundle, backupBundle P F keys st access now = .ok bundle ∧
      List.Forall₂ (CarriedSecret P F keys.master st)
        (st.secrets.rows.mergeSort fun a b => decide (utf8 a.path.asStr ≤ utf8 b.path.asStr))
        bundle.secrets ∧
      bundle.policies = allPolicyDocuments access := by
  obtain ⟨es, bs, hes, hbs, hrel⟩ : ∃ es bs, exportSecrets st = .ok es ∧
      es.mapM (backupSecret P F keys st) = .ok bs ∧
      List.Forall₂ (CarriedSecret P F keys.master st)
        (st.secrets.rows.mergeSort fun a b => decide (utf8 a.path.asStr ≤ utf8 b.path.asStr))
        bs := by
    refine exists_mapM_mapM ?_
    intro s hs
    exact exists_backup_secret hrows hopen (List.mem_mergeSort.mp hs)
  exact ⟨⟨rfc3339 F now, bs, allPolicyDocuments access⟩,
    bind_eq_ok.mpr ⟨es, mapError_eq_ok.mpr hes, bind_eq_ok.mpr ⟨bs, hbs, rfl⟩⟩, hrel, rfl⟩

end Backup

section Restore

variable {P : Primitives} {F : Foreign} {keys : KeyMaterial P} {draws : RestoreDraws}

/-- What a version is sealed and inserted as. -/
theorem restoredAs_of_eq_ok
    {id : Uuid} {d : SealDraws} {now : UnixTime} {v : BackupVersion} {x : ExportedVersion}
    {r : VersionRow}
    (hP : AeadCorrect P)
    (hx : restoreVersion P F keys id d now v = .ok x)
    (hr : importedRow id x = .ok r) :
    RestoredAs P F keys.master id v r := by
  obtain ⟨hversion, hstate, hcreated, hby, hcomment, hsealed⟩ := restoreVersion_eq_ok hx
  unfold importedRow at hr
  split at hr
  swap
  · cases hr
  cases hr
  refine ⟨Prod.ext rfl hversion, hstate, ⟨now, congrArg UnixTime.seconds hcreated⟩, hby,
    hcomment, ?_⟩
  rcases hsealed with ⟨hnone, hnone'⟩ | ⟨value, plaintext, sealed, hvalue, hdecode, hseal, hsome⟩
  · exact .inl ⟨hnone, by simp [VersionRow.Cleared, hnone']⟩
  · refine .inr ⟨value, plaintext, sealed, hvalue, hdecode, by simp [VersionRow.Holds, hsome], ?_⟩
    have hopen := SealedVersion.open_seal hP hseal
    rw [← hversion] at hopen
    exact hopen

/-- The secrets of a store are in another as they were. -/
structure Keeps (st st' : Store) : Prop where
  mem : ∀ s ∈ st.secrets.rows, s ∈ st'.secrets.rows
  versions : ∀ s ∈ st.secrets.rows, st'.versionsOf s.id = st.versionsOf s.id
  tags : ∀ s ∈ st.secrets.rows, ∀ t, st'.Carries s.path t ↔ st.Carries s.path t

theorem Keeps.refl
    (st : Store) :
    Keeps st st :=
  ⟨fun _ hs => hs, fun _ _ => rfl, fun _ _ _ => Iff.rfl⟩

theorem Keeps.trans
    {st st' st'' : Store}
    (h : Keeps st st')
    (h' : Keeps st' st'') :
    Keeps st st'' where
  mem := fun s hs => h'.mem s (h.mem s hs)
  versions := fun s hs => (h'.versions s (h.mem s hs)).trans (h.versions s hs)
  tags := fun s hs t => (h'.tags s (h.mem s hs) t).trans (h.tags s hs t)

theorem RestoredSecret.of_keeps
    {master : MasterKey} {st st' : Store} {b : BackupSecret} {s : SecretRow}
    (h : RestoredSecret P F master st b s)
    (hkeeps : Keeps st st') :
    RestoredSecret P F master st' b s := by
  refine ⟨hkeeps.mem s h.mem, h.path, h.maxVersions, h.currentVersion, ?_, ?_⟩
  · rw [hkeeps.versions s h.mem]
    exact h.versions
  · intro t
    rw [← h.tags t, ← h.path]
    exact hkeeps.tags s h.mem t

/-- An import keeps the secrets that are there, and restores the one of the bundle. -/
theorem restoreSecret_spec
    {i : Nat} {b : BackupSecret} {st st' : Store}
    (hP : AeadCorrect P)
    (h : restoreSecret P F keys draws i b st = .ok st') :
    Keeps st st' ∧ ∃ s, RestoredSecret P F keys.master st' b s ∧
      ∀ s', s' ∈ st'.secrets.rows ↔ s' ∈ st.secrets.rows ∨ s' = s := by
  obtain ⟨xs, hxs, h⟩ := bind_eq_ok.mp h
  obtain ⟨⟨rows, hrows, hversions⟩, hsecrets, hfresh, -, htags⟩ :=
    importSecretWithId_eq_ok (mapError_eq_ok.mp h)
  have hids : ∀ r ∈ rows, r.secretId = draws.id i := by
    intro r hr
    obtain ⟨x, -, hx⟩ := forall₂_mem_right hrows hr
    exact congrArg Prod.fst (importedRow_slot hx)
  have hold : ∀ s ∈ st.secrets.rows, st'.versionsOf s.id = st.versionsOf s.id := by
    intro s hs
    unfold Store.versionsOf
    rw [hversions, List.filter_append]
    refine List.append_right_eq_self.mpr (List.filter_eq_nil_iff.mpr ?_)
    intro r hr hdec
    exact (hfresh s hs).2 ((of_decide_eq_true hdec).symm.trans (hids r hr))
  have hnew : st'.versionsOf (draws.id i) = rows := by
    have hself : rows.filter (fun r => decide (r.secretId = draws.id i)) = rows :=
      List.filter_eq_self.mpr fun r hr => decide_eq_true (hids r hr)
    unfold Store.versionsOf
    rw [hversions, List.filter_append, hself]
    refine List.append_left_eq_self.mpr (List.filter_eq_nil_iff.mpr ?_)
    intro r hr hdec
    obtain ⟨s, hs, hsid⟩ := st.versionRefs r hr
    exact (hfresh s hs).2 (hsid.trans (of_decide_eq_true hdec))
  have hnone : ∀ t, ¬ st.Carries b.path t := by
    rintro t ⟨s, hs, -⟩
    obtain ⟨hmem, hpath⟩ := Store.secretByPath_eq_some_iff.mp hs
    exact (hfresh s hmem).1 hpath
  refine ⟨⟨fun s hs => (hsecrets s).mpr (.inl hs), hold, ?_⟩, _,
    ⟨(hsecrets _).mpr (.inr rfl), rfl, rfl, rfl, ?_, ?_⟩, hsecrets⟩
  · intro s hs t
    rw [htags]
    refine or_iff_left ?_
    rintro ⟨hpath, -⟩
    exact (hfresh s hs).1 hpath
  · change List.Forall₂ (RestoredAs P F keys.master (draws.id i)) b.versions
      (st'.versionsOf (draws.id i))
    rw [hnew]
    exact forall₂_comp (fun v x r ⟨d, now, hx⟩ hr => restoredAs_of_eq_ok hP hx hr)
      (restoreVersions_eq_ok hxs) hrows
  · intro t
    rw [htags]
    simp [hnone t]

/-- The loop over the secrets restores each of them. -/
theorem restoreSecrets_spec
    {i : Nat} {bs : List BackupSecret} {st st' : Store}
    (hP : AeadCorrect P)
    (h : restoreSecrets P F keys draws i bs st = (.ok (), st')) :
    Keeps st st' ∧ (∀ b ∈ bs, ∃ s, RestoredSecret P F keys.master st' b s) ∧
      ∀ s ∈ st'.secrets.rows, s ∈ st.secrets.rows ∨ ∃ b ∈ bs, s.path = b.path := by
  induction bs generalizing i st with
  | nil =>
      cases h
      exact ⟨Keeps.refl _, by simp, fun s hs => .inl hs⟩
  | cons b bs ih =>
      unfold restoreSecrets at h
      split at h
      · cases h
      rename_i mid hmid
      obtain ⟨hkeeps, s, hs, hrows⟩ := restoreSecret_spec hP hmid
      obtain ⟨hkeeps', hall, hrest⟩ := ih h
      refine ⟨hkeeps.trans hkeeps', ?_, ?_⟩
      · intro b' hb'
        rcases List.mem_cons.mp hb' with rfl | hb'
        · exact ⟨s, hs.of_keeps hkeeps'⟩
        · exact hall b' hb'
      · intro s' hs'
        rcases hrest s' hs' with hmem | ⟨b', hb', hpath⟩
        · rcases (hrows s').mp hmem with hmem | rfl
          · exact .inl hmem
          · exact .inr ⟨b, by simp, hs.path⟩
        · exact .inr ⟨b', by simp [hb'], hpath⟩

end Restore

/-- Rows of two stores that show the same, and open to the same plaintext. -/
structure SameVersion (P : Primitives) (m m' : MasterKey) (r r' : VersionRow) : Prop where
  version : r'.version = r.version
  state : r'.state = r.state
  createdAt : r'.createdAt = r.createdAt
  createdBy : r'.createdBy = r.createdBy
  comment : r'.comment = r.comment
  opens :
    r.state ≠ .destroyed → ∃ s s' x, r.Holds s ∧ s.openAt P m r.binding = .ok x ∧
      r'.Holds s' ∧ s'.openAt P m' r'.binding = .ok x
  cleared : r.state = .destroyed → r'.Cleared

section Compose

variable {P : Primitives} {F : Foreign} {m m' : MasterKey}

/-- The time of a row is written and read back. -/
def TimeRereads (F : Foreign) (r : VersionRow) : Prop :=
  ∀ t, timestamp r.createdAt = .ok t → F.rfc3339Parse (rfc3339 F t) = some t

theorem timestamp_seconds
    {seconds : Int64} {t : UnixTime}
    (h : timestamp seconds = .ok t) :
    t.seconds = seconds := by
  unfold timestamp at h
  split at h
  · cases h
    rfl
  · cases h

/-- What is restored from a backup of a row is that row. -/
theorem BackedUp.restoredAs
    {id : Uuid} {r r' : VersionRow} {v : BackupVersion}
    (hbase64 : ∀ bytes, F.base64Decode (F.base64Encode bytes) = some bytes)
    (htime : TimeRereads F r)
    (h : BackedUp P F m r v)
    (h' : RestoredAs P F m' id v r') :
    SameVersion P m m' r r' := by
  obtain ⟨t, ht, hcreated⟩ := h.createdAt
  obtain ⟨now, hcreated'⟩ := h'.createdAt
  refine ⟨(congrArg Prod.snd h'.slot).trans h.version, h'.state.trans h.state, ?_,
    h'.createdBy.trans h.createdBy, h'.comment.trans h.comment, ?_, ?_⟩
  · rw [hcreated', hcreated, parseRfc3339, htime t ht]
    exact timestamp_seconds ht
  · intro hlive
    rcases h.value with ⟨hdestroyed, -⟩ | ⟨-, s, x, hholds, hx, hvalue⟩
    · exact absurd hdestroyed hlive
    · rcases h'.value with ⟨hnone, -⟩ | ⟨value, x', s', hvalue', hdecode, hholds', hx'⟩
      · rw [hvalue] at hnone
        cases hnone
      · rw [hvalue] at hvalue'
        cases hvalue'
        rw [hbase64] at hdecode
        cases hdecode
        exact ⟨s, s', x, hholds, hx, hholds', hx'⟩
  · intro hdestroyed
    rcases h.value with ⟨-, hnone⟩ | ⟨hlive, -⟩
    · rcases h'.value with ⟨-, hcleared⟩ | ⟨value, x, s', hvalue', -⟩
      · exact hcleared
      · rw [hnone] at hvalue'
        cases hvalue'
    · exact absurd hdestroyed hlive

end Compose

/-- A secret of two stores that shows the same in both, and opens to the same plaintexts. -/
structure SameSecret (P : Primitives) (m m' : MasterKey) (st st' : Store) (s s' : SecretRow) :
    Prop where
  path : s'.path = s.path
  tags : ∀ t, st'.Carries s.path t ↔ st.Carries s.path t
  maxVersions : s'.maxVersions = s.maxVersions
  currentVersion : s'.currentVersion = s.currentVersion
  versions :
    List.Forall₂ (SameVersion P m m')
      ((st.versionsOf s.id).mergeSort
        fun a b => decide (a.version.toNat ≤ b.version.toNat)) (st'.versionsOf s'.id)

section Secrets

variable {P : Primitives} {F : Foreign} {m m' : MasterKey} {st st' : Store} {s s' : SecretRow}

theorem CarriedSecret.restored
    {b : BackupSecret}
    (hbase64 : ∀ bytes, F.base64Decode (F.base64Encode bytes) = some bytes)
    (htime : ∀ r ∈ st.versions.rows, TimeRereads F r)
    (hs : s ∈ st.secrets.rows)
    (h : CarriedSecret P F m st s b)
    (h' : RestoredSecret P F m' st' b s') :
    SameSecret P m m' st st' s s' := by
  refine ⟨h'.path.trans h.path, ?_, h'.maxVersions.trans h.maxVersions,
    h'.currentVersion.trans h.currentVersion, ?_⟩
  · intro t
    rw [← h.path, h'.tags t, h.tags, h.path]
    have hfound := Store.secretByPath_of_mem hs
    constructor
    · intro ht
      exact ⟨s, hfound, ht⟩
    · rintro ⟨s₀, hs₀, ht⟩
      rw [hfound] at hs₀
      cases hs₀
      exact ht
  · have hrows : List.Forall₂ (fun r v => TimeRereads F r ∧ BackedUp P F m r v)
        ((st.versionsOf s.id).mergeSort
          fun a b => decide (a.version.toNat ≤ b.version.toNat)) b.versions := by
      refine (List.forall₂_and_left _ _).mpr ⟨?_, h.versions⟩
      intro r hr
      exact htime r (Store.mem_versionsOf.mp (List.mem_mergeSort.mp hr)).1
    exact forall₂_comp (fun r v r' hr hv => hr.2.restoredAs hbase64 hr.1 hv) hrows h'.versions

/-- A row of the one store has its like in the other. -/
theorem SameSecret.mem_left
    {r : VersionRow}
    (h : SameSecret P m m' st st' s s')
    (hr : r ∈ st.versionsOf s.id) :
    ∃ r' ∈ st'.versionsOf s'.id, SameVersion P m m' r r' :=
  forall₂_mem_left h.versions (List.mem_mergeSort.mpr hr)

theorem SameSecret.mem_right
    {r' : VersionRow}
    (h : SameSecret P m m' st st' s s')
    (hr' : r' ∈ st'.versionsOf s'.id) :
    ∃ r ∈ st.versionsOf s.id, SameVersion P m m' r r' := by
  obtain ⟨r, hr, hrel⟩ := forall₂_mem_right h.versions hr'
  exact ⟨r, List.mem_mergeSort.mp hr, hrel⟩

/-- The versions have the same numbers. -/
theorem SameSecret.numbers_perm
    (h : SameSecret P m m' st st' s s') :
    ((st'.versionsOf s'.id).map fun r => r.version.toNat).Perm
      ((st.versionsOf s.id).map fun r => r.version.toNat) := by
  rw [forall₂_map_eq (fun r r' hr => congrArg Version.toNat hr.version) h.versions]
  exact (List.mergeSort_perm _ _).map _

/-- The highest of them is the same. -/
theorem SameSecret.highestVersion_eq
    (h : SameSecret P m m' st st' s s') :
    st'.highestVersion s'.id = st.highestVersion s.id := by
  have hmax : ∀ (st : Store) (id : Uuid),
      st.highestVersion id = ((st.versionsOf id).map fun r => r.version.toNat).foldl max 0 := by
    intro st id
    rw [List.foldl_map]
    rfl
  rw [hmax, hmax]
  exact h.numbers_perm.foldl_eq 0

theorem SameVersion.versionInfo_eq
    {r r' : VersionRow}
    (h : SameVersion P m m' r r') :
    versionInfo r' = versionInfo r := by
  simp only [versionInfo, h.version, h.state, h.createdAt, h.createdBy, h.comment]

/-- `versions` lists the same. -/
theorem SameSecret.versions_eq
    (h : SameSecret P m m' st st' s s')
    (hs : s ∈ st.secrets.rows)
    (hs' : s' ∈ st'.secrets.rows) :
    Storage.versions st' s.path = Storage.versions st s.path := by
  have hid : secretId st s.path = .ok s.id :=
    secretId_eq_ok.mpr ⟨s, Store.secretByPath_of_mem hs, rfl⟩
  have hid' : secretId st' s.path = .ok s'.id :=
    secretId_eq_ok.mpr ⟨s', Store.secretByPath_eq_some_iff.mpr ⟨hs', h.path⟩, rfl⟩
  have hversions := h.versions
  have hperm := List.mergeSort_perm (st.versionsOf s.id)
    fun a b => decide (a.version.toNat ≤ b.version.toNat)
  have hsorted : ((st.versionsOf s.id).mergeSort
      fun a b => decide (a.version.toNat ≤ b.version.toNat)).Pairwise
        fun a b => a.version.toNat ≤ b.version.toNat := by
    refine (List.pairwise_mergeSort ?_ ?_ (st.versionsOf s.id)).imp of_decide_eq_true
    · intro a b c hab hbc
      exact decide_eq_true ((of_decide_eq_true hab).trans (of_decide_eq_true hbc))
    · intro a b
      rcases le_total a.version.toNat b.version.toNat with h | h <;> simp [h]
  generalize (st.versionsOf s.id).mergeSort
    (fun a b => decide (a.version.toNat ≤ b.version.toNat)) = ascending
      at hversions hperm hsorted
  -- the numbers of the restored rows ascend as well
  have hsorted' : (st'.versionsOf s'.id).Pairwise
      fun a b => a.version.toNat ≤ b.version.toNat := by
    have hnumbers : (st'.versionsOf s'.id).map (fun r => r.version.toNat) =
        ascending.map fun r => r.version.toNat :=
      forall₂_map_eq (fun r r' hr => congrArg Version.toNat hr.version) hversions
    have hmap : (ascending.map fun r => r.version.toNat).Pairwise (· ≤ ·) :=
      List.pairwise_map.mpr hsorted
    rw [← hnumbers] at hmap
    exact List.pairwise_map.mp hmap
  unfold Storage.versions
  rw [hid, hid']
  change (List.mergeSort _ _).mapM versionInfo = (List.mergeSort _ _).mapM versionInfo
  rw [mergeSort_descending hperm hsorted fun a ha b hb => Store.versionsOf_unique ha hb,
    mergeSort_descending (List.Perm.refl _) hsorted' fun a ha b hb => Store.versionsOf_unique ha hb]
  exact mapM_congr₂ (fun r r' hr => hr.versionInfo_eq) (List.forall₂_reverse_iff.mpr hversions)

/-- Where the rows are well formed, listing the versions of a secret succeeds. -/
theorem versions_isOk
    (hrows : st.RowsWellFormed)
    (hs : s ∈ st.secrets.rows) :
    ∃ infos, Storage.versions st s.path = .ok infos := by
  have hid : secretId st s.path = .ok s.id :=
    secretId_eq_ok.mpr ⟨s, Store.secretByPath_of_mem hs, rfl⟩
  obtain ⟨infos, hinfos⟩ : ∃ infos, ((st.versionsOf s.id).mergeSort
      (fun a b => decide (b.version.toNat ≤ a.version.toNat))).mapM versionInfo = .ok infos := by
    refine exists_mapM_eq_ok ?_
    intro r hr
    have hwf := hrows r (Store.mem_versionsOf.mp (List.mem_mergeSort.mp hr)).1
    exact ⟨_, bind_eq_ok.mpr ⟨⟨r.createdAt, hwf.time⟩, dif_pos hwf.time, rfl⟩⟩
  exact ⟨infos, bind_eq_ok.mpr ⟨s.id, hid, hinfos⟩⟩

/-- The next write gets the same number. -/
theorem SameSecret.beginWrite_eq
    (h : SameSecret P m m' st st' s s')
    (hs : s ∈ st.secrets.rows)
    (hs' : s' ∈ st'.secrets.rows) (freshId : Uuid) (now : UnixTime) :
    (beginWrite st' s.path freshId now).map WriteSlot.version =
      (beginWrite st s.path freshId now).map WriteSlot.version := by
  have hfound := Store.secretByPath_of_mem hs
  have hfound' : st'.secretByPath s.path = some s' :=
    Store.secretByPath_eq_some_iff.mpr ⟨hs', h.path⟩
  unfold beginWrite findOrCreate
  rw [hfound, hfound']
  simp only [bind, Except.bind, h.highestVersion_eq]
  cases liftProto (Version.new (UInt32.ofNat (st.highestVersion s.id) + 1)) <;> rfl

end Secrets

end Service
end Secretbae
