import Secretbae.Store.Invariant
import Secretbae.Store.TagSets

/-!
# When an import succeeds, and what it leaves

`import_secret_with_id` commits a secret and its versions, and then adds the
tags.  `importSecretWithId_isOk_iff` says exactly which secrets it accepts, and
`importSecretWithId_eq_ok` what it makes of the tables; in particular the tags
can always be added to what has just been imported.
-/

namespace Secretbae
namespace Storage

open Lib Proto Core

section Inserts

variable {st : Store}

theorem Store.insertSecret_isOk
    {row : SecretRow}
    (hid : ∀ s ∈ st.secrets.rows, s.id ≠ row.id)
    (hpath : ∀ s ∈ st.secrets.rows, s.path ≠ row.path) :
    ∃ st', st.insertSecret row = .ok st' := by
  obtain ⟨secrets, hins⟩ := Table.insert_ne_none hid
  unfold Store.insertSecret
  split
  · rename_i hnone
    rw [hins] at hnone
    cases hnone
  · split
    · rename_i hmem
      obtain ⟨s, hs, heq⟩ := List.mem_map.mp hmem
      exact absurd heq (hpath s hs)
    · exact ⟨_, rfl⟩

theorem Store.insertSecret_taken
    {row : SecretRow}
    (hid : ∃ s ∈ st.secrets.rows, s.id = row.id) :
    st.insertSecret row = .error (.sqlite .constraint) := by
  obtain ⟨s, hs, hid⟩ := hid
  unfold Store.insertSecret
  split
  · rfl
  · rename_i secrets hins
    exact absurd hid ((Table.insert_eq_some hins).1 s hs)

theorem Store.insertVersion_isOk
    {row : VersionRow}
    (hslot : ∀ r ∈ st.versions.rows, r.slot ≠ row.slot)
    (href : ∃ s ∈ st.secrets.rows, s.id = row.secretId) :
    ∃ st', st.insertVersion row = .ok st' := by
  obtain ⟨versions, hins⟩ := Table.insert_ne_none hslot
  unfold Store.insertVersion
  split
  · rename_i hnone
    rw [hins] at hnone
    cases hnone
  · rw [dif_pos href]
    exact ⟨_, rfl⟩

/-- The tag tables are not touched by the two inserts. -/
theorem Store.insertSecret_tagTables
    {st' : Store} {row : SecretRow}
    (h : st.insertSecret row = .ok st') :
    st'.tags = st.tags ∧ st'.secretTags = st.secretTags := by
  unfold Store.insertSecret at h
  split at h
  · cases h
  · split at h
    · cases h
    · cases h
      exact ⟨rfl, rfl⟩

theorem Store.insertVersion_tagTables
    {st' : Store} {row : VersionRow}
    (h : st.insertVersion row = .ok st') :
    st'.tags = st.tags ∧ st'.secretTags = st.secretTags := by
  unfold Store.insertVersion at h
  split at h
  · cases h
  · split at h
    · cases h
      exact ⟨rfl, rfl⟩
    · cases h

end Inserts

section Import

/-- The `CHECK` accepts a version of a bundle. -/
def ExportedVersion.Accepted (v : ExportedVersion) : Prop :=
  v.state = .destroyed ∨ v.sealed ≠ none

theorem importedRow_isOk_iff
    {id : Uuid} {v : ExportedVersion} :
    (∃ row, importedRow id v = .ok row) ↔ v.Accepted := by
  unfold importedRow ExportedVersion.Accepted
  have hmap : v.sealed.map SealedVersion.ciphertext ≠ none ↔ v.sealed ≠ none := by
    simp
  rw [← hmap]
  split
  · exact iff_of_true ⟨_, rfl⟩ ‹_›
  · refine iff_of_false ?_ ‹_›
    rintro ⟨row, h⟩
    cases h

theorem importedRow_slot
    {id : Uuid} {v : ExportedVersion} {row : VersionRow}
    (h : importedRow id v = .ok row) :
    row.slot = (id, v.version) := by
  unfold importedRow at h
  split at h
  · cases h
    rfl
  · cases h

/-- The loop of the import runs to its end exactly for accepted versions in free slots. -/
theorem importVersions_isOk_iff
    {id : Uuid} {tx : Store} {vs : List ExportedVersion}
    (hid : ∃ s ∈ tx.secrets.rows, s.id = id) :
    (∃ tx', importVersions id tx vs = .ok tx') ↔
      (∀ v ∈ vs, v.Accepted) ∧ (vs.map ExportedVersion.version).Nodup ∧
        ∀ v ∈ vs, ∀ r ∈ tx.versions.rows, r.slot ≠ (id, v.version) := by
  induction vs generalizing tx with
  | nil =>
      exact iff_of_true ⟨tx, rfl⟩ (by simp)
  | cons v vs ih =>
      constructor
      · rintro ⟨tx', h⟩
        obtain ⟨row, hrow, h⟩ := bind_eq_ok.mp h
        obtain ⟨mid, hmid, h⟩ := bind_eq_ok.mp h
        obtain ⟨hfree, hrows, hsecrets, -⟩ := Store.insertVersion_eq_ok hmid
        have hslot := importedRow_slot hrow
        have hidmid : ∃ s ∈ mid.secrets.rows, s.id = id := by
          rw [hsecrets]
          exact hid
        obtain ⟨haccepted, hnodup, hrest⟩ := (ih hidmid).mp ⟨tx', h⟩
        refine ⟨?_, ?_, ?_⟩
        · intro w hw
          rcases List.mem_cons.mp hw with rfl | hw
          · exact importedRow_isOk_iff.mp ⟨row, hrow⟩
          · exact haccepted w hw
        · refine List.nodup_cons.mpr ⟨?_, hnodup⟩
          intro hmem
          obtain ⟨w, hw, heq⟩ := List.mem_map.mp hmem
          refine hrest w hw row ?_ (by rw [hslot, heq])
          simp [hrows]
        · intro w hw r hr
          rcases List.mem_cons.mp hw with rfl | hw
          · rw [← hslot]
            exact hfree r hr
          · refine hrest w hw r ?_
            rw [hrows]
            exact List.mem_append_left _ hr
      · rintro ⟨haccepted, hnodup, hfree⟩
        obtain ⟨row, hrow⟩ : ∃ row, importedRow id v = .ok row :=
          importedRow_isOk_iff.mpr (haccepted v (by simp))
        have hslot := importedRow_slot hrow
        obtain ⟨hnew, hnodup⟩ := List.nodup_cons.mp hnodup
        obtain ⟨mid, hmid⟩ : ∃ mid, tx.insertVersion row = .ok mid := by
          refine Store.insertVersion_isOk ?_ ?_
          · rw [hslot]
            exact hfree v (by simp)
          · obtain ⟨s, hs, hsid⟩ := hid
            exact ⟨s, hs, hsid.trans (congrArg Prod.fst hslot).symm⟩
        obtain ⟨-, hrows, hsecrets, -⟩ := Store.insertVersion_eq_ok hmid
        have hidmid : ∃ s ∈ mid.secrets.rows, s.id = id := by
          rw [hsecrets]
          exact hid
        obtain ⟨tx', h⟩ := (ih hidmid).mpr ⟨fun w hw => haccepted w (by simp [hw]), hnodup, by
          intro w hw r hr
          rw [hrows] at hr
          rcases List.mem_append.mp hr with hr | hr
          · exact hfree w (by simp [hw]) r hr
          · obtain rfl := List.mem_singleton.mp hr
            rw [hslot]
            intro heq
            exact hnew (List.mem_map.mpr ⟨w, hw, (congrArg Prod.snd heq).symm⟩)⟩
        exact ⟨tx', bind_eq_ok.mpr ⟨row, hrow, bind_eq_ok.mpr ⟨mid, hmid, h⟩⟩⟩

/-- The inserts of an import leave the tag tables alone. -/
theorem importVersions_tagTables
    {id : Uuid} {tx tx' : Store} {vs : List ExportedVersion}
    (h : importVersions id tx vs = .ok tx') :
    tx'.tags = tx.tags ∧ tx'.secretTags = tx.secretTags := by
  induction vs generalizing tx with
  | nil =>
      cases h
      exact ⟨rfl, rfl⟩
  | cons v vs ih =>
      obtain ⟨row, -, h⟩ := bind_eq_ok.mp h
      obtain ⟨mid, hmid, h⟩ := bind_eq_ok.mp h
      obtain ⟨htags, hlinks⟩ := Store.insertVersion_tagTables hmid
      obtain ⟨htags', hlinks'⟩ := ih h
      exact ⟨htags'.trans htags, hlinks'.trans hlinks⟩

/-- Exactly which secrets `import_secret_with_id` accepts. -/
theorem importSecretWithId_isOk_iff
    {st : Store} {id : Uuid} {e : ExportedSecret} {now : UnixTime} :
    (∃ st', importSecretWithId st id e now = .ok st') ↔
      (∀ s ∈ st.secrets.rows, s.path ≠ e.path) ∧ (∀ s ∈ st.secrets.rows, s.id ≠ id) ∧
        (∀ v ∈ e.versions, v.Accepted) ∧ (e.versions.map ExportedVersion.version).Nodup := by
  unfold importSecretWithId
  by_cases hpath : ∀ s ∈ st.secrets.rows, s.path ≠ e.path
  swap
  · push Not at hpath
    obtain ⟨s, hs, heq⟩ := hpath
    have hfound : st.secretByPath e.path = some s :=
      Store.secretByPath_eq_some_iff.mpr ⟨hs, heq⟩
    rw [hfound]
    refine iff_of_false ?_ ?_
    · rintro ⟨st', h⟩
      cases h
    · rintro ⟨hall, -⟩
      exact hall s hs heq
  have hnone : st.secretByPath e.path = none := by
    cases hfound : st.secretByPath e.path with
    | none => rfl
    | some s =>
        obtain ⟨hs, heq⟩ := Store.secretByPath_eq_some_iff.mp hfound
        exact absurd heq (hpath s hs)
  rw [hnone]
  simp only [Option.isSome_none, Bool.false_eq_true, if_false]
  constructor
  · rintro ⟨st', h⟩
    obtain ⟨tx, hins, h⟩ := bind_eq_ok.mp h
    obtain ⟨tx', hvers, -⟩ := bind_eq_ok.mp h
    obtain ⟨hid, -, hrows, -⟩ := Store.insertSecret_eq_ok hins
    have hmem : ∃ s ∈ tx.secrets.rows, s.id = id :=
      ⟨importedSecret id e now, by simp [hrows], rfl⟩
    obtain ⟨haccepted, hnodup, -⟩ := (importVersions_isOk_iff hmem).mp ⟨tx', hvers⟩
    exact ⟨hpath, hid, haccepted, hnodup⟩
  · rintro ⟨-, hid, haccepted, hnodup⟩
    obtain ⟨tx, hins⟩ : ∃ tx, st.insertSecret (importedSecret id e now) = .ok tx :=
      Store.insertSecret_isOk hid hpath
    obtain ⟨-, -, hrows, hversions, -⟩ := Store.insertSecret_eq_ok hins
    have hmem : ∃ s ∈ tx.secrets.rows, s.id = id :=
      ⟨importedSecret id e now, by simp [hrows], rfl⟩
    obtain ⟨tx', hvers⟩ := (importVersions_isOk_iff hmem).mpr ⟨haccepted, hnodup, by
      intro v _ r hr heq
      rw [hversions] at hr
      obtain ⟨s, hs, hsid⟩ := st.versionRefs r hr
      exact hid s hs (hsid.trans (congrArg Prod.fst heq))⟩
    obtain ⟨-, -, -, hsecrets⟩ := importVersions_eq_ok hvers
    have hfound : tx'.secretByPath e.path = some (importedSecret id e now) := by
      refine Store.secretByPath_eq_some_iff.mpr ⟨?_, rfl⟩
      rw [hsecrets, hrows]
      simp
    obtain ⟨st', htags⟩ := addTags_isOk hfound e.tags now
    exact ⟨st', bind_eq_ok.mpr ⟨tx, hins, bind_eq_ok.mpr ⟨tx', hvers, htags⟩⟩⟩

/-- What an import makes of the tables. -/
theorem importSecretWithId_eq_ok
    {st st' : Store} {id : Uuid} {e : ExportedSecret} {now : UnixTime}
    (h : importSecretWithId st id e now = .ok st') :
    (∃ rows, List.Forall₂ (fun v r => importedRow id v = .ok r) e.versions rows ∧
        st'.versions.rows = st.versions.rows ++ rows) ∧
      (∀ s, s ∈ st'.secrets.rows ↔ s ∈ st.secrets.rows ∨
        s = { importedSecret id e now with updatedAt := now.seconds }) ∧
      (∀ s ∈ st.secrets.rows, s.path ≠ e.path ∧ s.id ≠ id) ∧
      st'.secrets.rows.length = st.secrets.rows.length + 1 ∧
      ∀ q t, st'.Carries q t ↔ st.Carries q t ∨ (q = e.path ∧ t ∈ e.tags) := by
  obtain ⟨hpaths, hids, -, -⟩ := importSecretWithId_isOk_iff.mp ⟨st', h⟩
  unfold importSecretWithId at h
  split at h
  · cases h
  obtain ⟨tx, hins, h⟩ := bind_eq_ok.mp h
  obtain ⟨tx', hvers, htags⟩ := bind_eq_ok.mp h
  obtain ⟨-, -, hrows, hversions, -⟩ := Store.insertSecret_eq_ok hins
  obtain ⟨rows, hall, hvrows, hsecrets⟩ := importVersions_eq_ok hvers
  obtain ⟨htagRows, hlinks⟩ := Store.insertSecret_tagTables hins
  obtain ⟨htagRows', hlinks'⟩ := importVersions_tagTables hvers
  have hall' : tx'.secrets.rows = st.secrets.rows ++ [importedSecret id e now] := by
    rw [hsecrets, hrows]
  have hcarries := fun q t => (addTags_carries htags q t).trans (or_congr_left
    (Store.carries_newSecret hall' hids (htagRows'.trans htagRows) (hlinks'.trans hlinks) q t))
  -- `add_tags` touches the secret it is about, and that is the new one
  obtain ⟨secret, hsecret, htags⟩ := bind_eq_ok.mp htags
  obtain ⟨mid, hmid, htags⟩ := bind_eq_ok.mp htags
  cases htags
  obtain ⟨hmsecrets, hmversions, -⟩ := attachAll_frame hmid
  have hfinal : (mid.touch e.path now).secrets.rows =
      (st.secrets.rows ++ [importedSecret id e now]).map fun s =>
        if s.path = e.path then { s with updatedAt := now.seconds } else s := by
    rw [← hall', ← hmsecrets]
    rfl
  have hversionRows : (mid.touch e.path now).versions.rows = st.versions.rows ++ rows := by
    rw [← hversions, ← hvrows, ← hmversions]
    rfl
  refine ⟨⟨rows, hall, hversionRows⟩, ?_, fun s hs => ⟨hpaths s hs, hids s hs⟩, ?_, hcarries⟩
  · intro s
    rw [hfinal, List.map_append, List.mem_append, List.map_singleton, List.mem_singleton]
    have hold : st.secrets.rows.map (fun s =>
        if s.path = e.path then { s with updatedAt := now.seconds } else s) =
          st.secrets.rows := by
      refine (List.map_congr_left fun s hs => ?_).trans (List.map_id _)
      exact if_neg (hpaths s hs)
    have hnew : (importedSecret id e now).path = e.path := rfl
    rw [hold, if_pos hnew]
  · rw [hfinal]
    simp

end Import

end Storage
end Secretbae
