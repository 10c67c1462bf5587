import Secretbae.Store.Import
import Secretbae.Store.Lifecycle

/-!
# What an operation sees of the store

Two stores agree at a path if they have the same secret there, with the same
versions and tags.  What an operation on that path returns is then the same in
both; how the tables are laid out, and what else is in them, does not matter.
-/

namespace Secretbae
namespace Storage

open Lib Proto Core

/-- The same secret, with the same versions and the same tags, or none in either store. -/
structure Store.AgreeAt (st st' : Store) (path : SecretPath) : Prop where
  secret : st'.secretByPath path = st.secretByPath path
  versions :
    ∀ s, st.secretByPath path = some s → ∀ r, r.secretId = s.id →
      (r ∈ st'.versions.rows ↔ r ∈ st.versions.rows)
  tags : ∀ t, st'.Carries path t ↔ st.Carries path t

section Views

variable {st st' : Store} {path : SecretPath} {s : SecretRow}

theorem Store.AgreeAt.mem_versionsOf
    (h : st.AgreeAt st' path)
    (hs : st.secretByPath path = some s) {r : VersionRow} :
    r ∈ st'.versionsOf s.id ↔ r ∈ st.versionsOf s.id := by
  rw [Store.mem_versionsOf, Store.mem_versionsOf]
  constructor
  · rintro ⟨hr, hid⟩
    exact ⟨(h.versions s hs r hid).mp hr, hid⟩
  · rintro ⟨hr, hid⟩
    exact ⟨(h.versions s hs r hid).mpr hr, hid⟩

theorem Store.AgreeAt.find_eq
    (h : st.AgreeAt st' path)
    (hs : st.secretByPath path = some s) (version : Version) :
    st'.versions.find? (s.id, version) = st.versions.find? (s.id, version) := by
  refine Option.ext fun r => ?_
  rw [Table.find?_eq_some_iff, Table.find?_eq_some_iff]
  constructor
  · rintro ⟨hr, hslot⟩
    exact ⟨(h.versions s hs r (congrArg Prod.fst hslot)).mp hr, hslot⟩
  · rintro ⟨hr, hslot⟩
    exact ⟨(h.versions s hs r (congrArg Prod.fst hslot)).mpr hr, hslot⟩

theorem Store.AgreeAt.mem_tagsOf
    (h : st.AgreeAt st' path)
    (hs : st.secretByPath path = some s) {t : Tag} :
    t ∈ st'.tagsOf s.id ↔ t ∈ st.tagsOf s.id := by
  have hs' := h.secret.trans hs
  have htags := h.tags t
  simpa only [Store.Carries, hs, hs', Option.some.injEq, exists_eq_left'] using htags

/-- The order of tags is total, and two tags have one place only if they are equal. -/
theorem tagLe_trans
    (a b c : Tag)
    (hab : tagLe a b = true)
    (hbc : tagLe b c = true) :
    tagLe a c = true := by
  unfold tagLe at hab hbc ⊢
  rw [decide_eq_true_eq] at hab hbc ⊢
  rcases hab with hab | ⟨hab, hab'⟩
  · rcases hbc with hbc | ⟨hbc, -⟩
    · exact .inl (List.lt_trans hab hbc)
    · exact .inl (hbc ▸ hab)
  · rcases hbc with hbc | ⟨hbc, hbc'⟩
    · exact .inl (hab ▸ hbc)
    · exact .inr ⟨hab.trans hbc, List.le_trans hab' hbc'⟩

theorem tagLe_total
    (a b : Tag) :
    (tagLe a b || tagLe b a) = true := by
  unfold tagLe
  rw [Bool.or_eq_true, decide_eq_true_eq, decide_eq_true_eq]
  rcases Std.lt_trichotomy (utf8 a.key) (utf8 b.key) with hlt | heq | hgt
  · exact .inl (.inl hlt)
  · rcases List.le_total (utf8 a.value) (utf8 b.value) with hle | hle
    · exact .inl (.inr ⟨utf8_inj heq, hle⟩)
    · exact .inr (.inr ⟨(utf8_inj heq).symm, hle⟩)
  · exact .inr (.inl hgt)

theorem tagLe_antisymm
    {a b : Tag}
    (hab : tagLe a b = true)
    (hba : tagLe b a = true) :
    a = b := by
  unfold tagLe at hab hba
  rw [decide_eq_true_eq] at hab hba
  rcases hab with hab | ⟨hkey, hab⟩
  · rcases hba with hba | ⟨hkey, -⟩
    · exact absurd hba (List.lt_asymm hab)
    · rw [hkey] at hab
      exact absurd hab (List.lt_irrefl _)
  · rcases hba with hba | ⟨-, hba⟩
    · rw [hkey] at hba
      exact absurd hba (List.lt_irrefl _)
    · have hvalue := utf8_inj (List.le_antisymm hab hba)
      cases a
      cases b
      simp_all

theorem Store.nodup_attached
    (st : Store) (p : TagRow → Bool) :
    ((st.tags.rows.filter p).map TagRow.tag).Nodup :=
  st.tagValues.sublist (List.filter_sublist.map TagRow.tag)

/-- The tags of a secret are listed in an order of their own. -/
theorem Store.AgreeAt.tagsOf_eq
    (h : st.AgreeAt st' path)
    (hs : st.secretByPath path = some s) :
    st'.tagsOf s.id = st.tagsOf s.id := by
  refine mergeSort_eq_of_mem tagLe_trans tagLe_total (st'.nodup_attached _)
    (st.nodup_attached _) ?_ fun a _ b _ => tagLe_antisymm
  intro t
  have hmem := h.mem_tagsOf hs (t := t)
  rwa [Store.tagsOf, Store.tagsOf, List.mem_mergeSort, List.mem_mergeSort] at hmem

theorem Store.AgreeAt.resolve_eq
    (h : st.AgreeAt st' path) (selector : VersionSelector) :
    Storage.resolve st' path selector = Storage.resolve st path selector := by
  unfold Storage.resolve
  rw [h.secret]

theorem Store.AgreeAt.secretId_eq
    (h : st.AgreeAt st' path) :
    secretId st' path = secretId st path := by
  unfold secretId
  rw [h.secret]

/-- Reading returns the same. -/
theorem Store.AgreeAt.readVersion_eq
    (h : st.AgreeAt st' path) (selector : VersionSelector) :
    readVersion st' path selector = readVersion st path selector := by
  unfold readVersion
  rw [h.resolve_eq]
  refine bind_congr_ok ?_
  rintro ⟨id, version⟩ hresolve
  obtain ⟨s, hs, rfl, -⟩ := resolve_eq_ok.mp hresolve
  dsimp only
  rw [h.find_eq hs]

/-- The history of a secret is listed alike. -/
theorem Store.AgreeAt.versions_eq
    (h : st.AgreeAt st' path) :
    Storage.versions st' path = Storage.versions st path := by
  unfold Storage.versions
  rw [h.secretId_eq]
  refine bind_congr_ok ?_
  intro id hid
  obtain ⟨s, hs, rfl⟩ := secretId_eq_ok.mp hid
  refine congrArg (List.mapM versionInfo) ?_
  refine mergeSort_eq_of_mem ?_ ?_ ?_ ?_ (fun r => h.mem_versionsOf hs) ?_
  · intro a b c hab hbc
    exact decide_eq_true ((of_decide_eq_true hbc).trans (of_decide_eq_true hab))
  · intro a b
    rcases le_total b.version.toNat a.version.toNat with hle | hle <;> simp [hle]
  · exact (List.Nodup.of_map _ st'.versions.unique).filter _
  · exact (List.Nodup.of_map _ st.versions.unique).filter _
  · intro a ha b hb hab hba
    exact Store.versionsOf_unique ha hb
      (le_antisymm (of_decide_eq_true hba) (of_decide_eq_true hab))

/-- Whether a rollback succeeds is the same. -/
theorem Store.AgreeAt.rollback_eq
    (h : st.AgreeAt st' path) (target : Version) (now : UnixTime) :
    (rollback st' path target now).map (fun _ => ()) =
      (rollback st path target now).map fun _ => () := by
  unfold rollback
  rw [h.secretId_eq, map_sequence, map_sequence]
  refine bind_congr_ok ?_
  intro id hid
  obtain ⟨s, hs, rfl⟩ := secretId_eq_ok.mp hid
  rw [h.find_eq hs, map_sequence, map_sequence]
  refine bind_congr_ok ?_
  intro r _
  split <;> rfl

/-- Which version a deletion takes is the same. -/
theorem Store.AgreeAt.deleteVersion_eq
    (h : st.AgreeAt st' path) (selector : VersionSelector) (mode : DeleteMode)
    (now : UnixTime) :
    (deleteVersion st' path selector mode now).map Prod.snd =
      (deleteVersion st path selector mode now).map Prod.snd := by
  unfold deleteVersion
  rw [h.resolve_eq, map_sequence, map_sequence]
  refine bind_congr_ok ?_
  rintro ⟨id, version⟩ hresolve
  obtain ⟨s, hs, rfl, -⟩ := resolve_eq_ok.mp hresolve
  have hslot : ∀ r, mode.selects (s.id, version) r = true → r.secretId = s.id := by
    intro r hr
    exact congrArg Prod.fst (DeleteMode.slot_of_selects hr)
  have hcount : st'.versions.rows.countP (mode.selects (s.id, version)) = 0 ↔
      st.versions.rows.countP (mode.selects (s.id, version)) = 0 := by
    rw [List.countP_eq_zero, List.countP_eq_zero]
    constructor
    · intro hnone r hr hsel
      exact hnone r ((h.versions s hs r (hslot r hsel)).mpr hr) hsel
    · intro hnone r hr hsel
      exact hnone r ((h.versions s hs r (hslot r hsel)).mp hr) hsel
  dsimp only
  by_cases hzero : st.versions.rows.countP (mode.selects (s.id, version)) = 0
  · rw [if_pos hzero, if_pos (hcount.mpr hzero)]
  · rw [if_neg hzero, if_neg fun hzero' => hzero (hcount.mp hzero')]
    rfl

/-- Adding tags succeeds exactly where there is a secret. -/
theorem addTags_map
    (st : Store) (path : SecretPath) (tags : List Tag) (now : UnixTime) :
    (addTags st path tags now).map (fun _ => ()) = (secretId st path).map fun _ => () := by
  cases hs : st.secretByPath path with
  | none =>
      simp [addTags, secretId, hs, okOr, bind, Except.bind, Except.map]
  | some s =>
      obtain ⟨st', hadd⟩ := addTags_isOk hs tags now
      rw [hadd, secretId_eq_ok.mpr ⟨s, hs, rfl⟩]
      rfl

/-- So does removing them. -/
theorem removeTags_map
    (st : Store) (path : SecretPath) (selectors : List TagSelector) (now : UnixTime) :
    (removeTags st path selectors now).map (fun _ => ()) =
      (secretId st path).map fun _ => () := by
  unfold removeTags
  cases secretId st path <;> rfl

end Views

section Writes

variable {st st' : Store} {path : SecretPath}

theorem Store.highestVersion_lt
    (st : Store) (id : Uuid) :
    st.highestVersion id < 2 ^ 32 := by
  unfold Store.highestVersion
  rcases foldl_max_mem (st.versionsOf id) 0 with hzero | ⟨r, -, heq⟩
  · rw [hzero]
    norm_num
  · rw [heq]
    exact r.version.toNat_lt

/-- The number that a write reserves is the one after the highest. -/
theorem beginWrite_version
    {freshId : Uuid} {now : UnixTime} {slot : WriteSlot}
    (h : beginWrite st path freshId now = .ok slot) :
    slot.version.toNat = slot.tx.highestVersion slot.secretId + 1 := by
  obtain ⟨hget, -, -⟩ := beginWrite_eq_ok h
  have hlt := slot.tx.highestVersion_lt slot.secretId
  have hpos := slot.version.toNat_pos
  have hnat : slot.version.toNat = (slot.tx.highestVersion slot.secretId + 1) % 2 ^ 32 := by
    unfold Version.toNat
    rw [hget, UInt32.toNat_add, UInt32.toNat_ofNat']
    simp
  omega

/-- A slot that was reserved can be committed. -/
theorem commit_isOk
    {freshId : Uuid} {began : UnixTime} {slot : WriteSlot}
    (h : beginWrite st path freshId began = .ok slot) (sealed : SealedVersion)
    (info : WriteMeta) (now : UnixTime) :
    ∃ st', slot.commit sealed info now = .ok (st', slot.version) := by
  have hversion := beginWrite_version h
  obtain ⟨-, hall⟩ := foldl_max_ge (slot.tx.versionsOf slot.secretId) 0
  have hfree : ∀ r ∈ slot.tx.versions.rows, r.slot ≠ (slot.row sealed info now).slot := by
    intro r hr hslot
    obtain ⟨hid, hnumber⟩ := Prod.mk.inj hslot
    have hle := hall r (Store.mem_versionsOf.mpr ⟨hr, hid⟩)
    have heq : r.version.toNat = slot.version.toNat := congrArg Version.toNat hnumber
    unfold Store.highestVersion at hversion
    omega
  have href : ∃ s ∈ slot.tx.secrets.rows, s.id = slot.secretId := by
    obtain ⟨-, -, ⟨s, hs, htx, hid, -⟩ | ⟨-, hid, -, hrows⟩⟩ := beginWrite_eq_ok h
    · exact ⟨s, htx ▸ (Store.secretByPath_eq_some_iff.mp hs).1, hid.symm⟩
    · refine ⟨newSecret path freshId began, ?_, hid.symm⟩
      rw [hrows]
      simp
  obtain ⟨mid, hmid⟩ := Store.insertVersion_isOk hfree href
  exact ⟨_, bind_eq_ok.mpr ⟨mid, hmid, rfl⟩⟩

/-- A slot carries the window of its secret. -/
theorem beginWrite_window
    {freshId : Uuid} {began : UnixTime} {slot : WriteSlot}
    (hbegin : beginWrite st path freshId began = .ok slot) :
    ∃ s ∈ slot.tx.secrets.rows, s.path = path ∧ s.id = slot.secretId ∧
      s.maxVersions = slot.maxVersions := by
  obtain ⟨⟨tx, id, maxVersions⟩, htx, hbegin⟩ := bind_eq_ok.mp hbegin
  obtain ⟨version, -, hbegin⟩ := bind_eq_ok.mp hbegin
  cases hbegin
  unfold findOrCreate at htx
  split at htx
  · rename_i s hs
    cases htx
    obtain ⟨hmem, hpath⟩ := Store.secretByPath_eq_some_iff.mp hs
    exact ⟨s, hmem, hpath, rfl, rfl⟩
  · obtain ⟨tx', hins, htx⟩ := bind_eq_ok.mp htx
    cases htx
    obtain ⟨-, -, hrows, -⟩ := Store.insertSecret_eq_ok hins
    refine ⟨newSecret path freshId began, ?_, rfl, rfl, rfl⟩
    rw [hrows]
    simp

/-- What is found at the path of a write afterwards. -/
theorem commit_secret
    {freshId : Uuid} {began now : UnixTime} {slot : WriteSlot} {sealed : SealedVersion}
    {info : WriteMeta} {v : Version}
    (hbegin : beginWrite st path freshId began = .ok slot)
    (hcommit : slot.commit sealed info now = .ok (st', v)) :
    ∃ s, st'.secretByPath path = some s ∧ s.id = slot.secretId ∧
      s.maxVersions = slot.maxVersions := by
  obtain ⟨q, hq, hqpath, hqid, hqmax⟩ := beginWrite_window hbegin
  obtain ⟨-, mid, hmid, rfl⟩ := WriteSlot.commit_eq_ok hcommit
  obtain ⟨-, -, hsecrets, -⟩ := Store.insertVersion_eq_ok hmid
  refine ⟨{ q with currentVersion := some slot.version, updatedAt := now.seconds },
    Store.secretByPath_eq_some_iff.mpr ⟨?_, hqpath⟩, hqid, hqmax⟩
  rw [prune_secrets]
  refine Store.mem_pointCurrent.mpr ⟨q, ?_, if_pos hqid⟩
  rw [hsecrets]
  exact hq

theorem Store.AgreeAt.highestVersion_eq
    {s : SecretRow}
    (h : st.AgreeAt st' path)
    (hs : st.secretByPath path = some s) :
    st'.highestVersion s.id = st.highestVersion s.id := by
  have hle : ∀ {rows rows' : List VersionRow}, (∀ r ∈ rows, r ∈ rows') →
      rows.foldl (fun m r => max m r.version.toNat) 0 ≤
        rows'.foldl (fun m r => max m r.version.toNat) 0 := by
    intro rows rows' hsub
    rcases foldl_max_mem rows 0 with hzero | ⟨r, hr, heq⟩
    · omega
    · rw [heq]
      exact (foldl_max_ge rows' 0).2 r (hsub r hr)
  exact le_antisymm (hle fun r hr => (h.mem_versionsOf hs).mp hr)
    (hle fun r hr => (h.mem_versionsOf hs).mpr hr)

/-- A secret that does not exist yet starts at version one. -/
theorem beginWrite_new
    {freshId : Uuid} {now : UnixTime}
    (hnone : st.secretByPath path = none)
    (hfresh : ∀ s ∈ st.secrets.rows, s.id ≠ freshId) :
    (beginWrite st path freshId now).map (fun slot => (slot.secretId, slot.version)) =
      .ok (freshId, ⟨1, by decide⟩) := by
  have hpath : ∀ s ∈ st.secrets.rows, s.path ≠ path := by
    intro s hs heq
    have hsome := Store.secretByPath_eq_some_iff.mpr ⟨hs, heq⟩
    rw [hnone] at hsome
    cases hsome
  obtain ⟨tx, hins⟩ : ∃ tx, st.insertSecret (newSecret path freshId now) = .ok tx :=
    Store.insertSecret_isOk hfresh hpath
  obtain ⟨-, -, -, hversions, -⟩ := Store.insertSecret_eq_ok hins
  have hhighest : tx.highestVersion freshId = 0 := by
    have hnil : tx.versionsOf freshId = [] := by
      rw [List.eq_nil_iff_forall_not_mem]
      intro r hr
      obtain ⟨hr, hid⟩ := Store.mem_versionsOf.mp hr
      rw [hversions] at hr
      obtain ⟨s, hs, hsid⟩ := st.versionRefs r hr
      exact hfresh s hs (hsid.trans hid)
    rw [Store.highestVersion, hnil]
    rfl
  simp only [beginWrite, findOrCreate, hnone, hins, bind, Except.bind, hhighest]
  rfl

/-- An id that is taken fails the write of a new secret. -/
theorem beginWrite_taken
    {freshId : Uuid} {now : UnixTime}
    (hnone : st.secretByPath path = none)
    (htaken : ∃ s ∈ st.secrets.rows, s.id = freshId) :
    beginWrite st path freshId now = .error (.sqlite .constraint) := by
  have hins : st.insertSecret (newSecret path freshId now) = .error (.sqlite .constraint) :=
    Store.insertSecret_taken htaken
  unfold beginWrite findOrCreate
  simp only [hnone, hins, bind, Except.bind]

/-- What a write is bound to and its number depend on little of the store. -/
theorem beginWrite_congr
    {freshId : Uuid} {now : UnixTime}
    (hsecret : st'.secretByPath path = st.secretByPath path)
    (hhighest : ∀ s, st.secretByPath path = some s →
      st'.highestVersion s.id = st.highestVersion s.id)
    (hfresh : (∃ s ∈ st'.secrets.rows, s.id = freshId) ↔
      ∃ s ∈ st.secrets.rows, s.id = freshId) :
    (beginWrite st' path freshId now).map (fun slot => (slot.secretId, slot.version)) =
      (beginWrite st path freshId now).map fun slot => (slot.secretId, slot.version) := by
  cases hs : st.secretByPath path with
  | some s =>
      unfold beginWrite findOrCreate
      rw [hsecret, hs]
      simp only [bind, Except.bind, hhighest s hs]
      cases liftProto (Version.new (UInt32.ofNat (st.highestVersion s.id) + 1)) <;> rfl
  | none =>
      have hs' := hsecret.trans hs
      by_cases hused : ∃ s ∈ st.secrets.rows, s.id = freshId
      · rw [beginWrite_taken hs hused, beginWrite_taken hs' (hfresh.mpr hused)]
      · have hfree : ∀ {st : Store}, (¬ ∃ s ∈ st.secrets.rows, s.id = freshId) →
            ∀ s ∈ st.secrets.rows, s.id ≠ freshId :=
          fun hnot s hs heq => hnot ⟨s, hs, heq⟩
        rw [beginWrite_new hs (hfree hused), beginWrite_new hs' (hfree (mt hfresh.mp hused))]

theorem Store.AgreeAt.beginWrite_eq
    (h : st.AgreeAt st' path) {freshId : Uuid}
    (hfresh : (∃ s ∈ st'.secrets.rows, s.id = freshId) ↔ ∃ s ∈ st.secrets.rows, s.id = freshId)
    (now : UnixTime) :
    (beginWrite st' path freshId now).map (fun slot => (slot.secretId, slot.version)) =
      (beginWrite st path freshId now).map fun slot => (slot.secretId, slot.version) :=
  beginWrite_congr h.secret (fun _ hs => h.highestVersion_eq hs) hfresh

/-- A write returns the number of the slot it was given, or what `seal` failed with. -/
theorem Vault.write_map
    (P : Primitives) (vault : Vault) (path : SecretPath) (freshId : Uuid) (began : UnixTime)
    (draws : SealDraws) (plaintext : Bytes) (info : WriteMeta) (now : UnixTime) :
    (vault.write P path freshId began draws plaintext info now).map Prod.snd =
      ((beginWrite vault.store path freshId began).map fun slot =>
        (slot.secretId, slot.version)) >>= fun (id, version) =>
          (liftCrypto (SealedVersion.seal P draws vault.master vault.generation
            ⟨id, version.get⟩ plaintext)).map fun _ => version := by
  unfold Vault.write
  cases hslot : beginWrite vault.store path freshId began with
  | error e => rfl
  | ok slot =>
      simp only [bind, Except.bind, Except.map, WriteSlot.binding]
      cases hsealed : liftCrypto (SealedVersion.seal P draws vault.master vault.generation
          ⟨slot.secretId, slot.version.get⟩ plaintext) with
      | error e => rfl
      | ok sealed =>
          obtain ⟨st', hcommit⟩ := commit_isOk hslot sealed info now
          simp only [hcommit]

end Writes

section Lists

variable {st st' : Store}

/-- Every secret bears timestamps that can be shown. -/
def Store.Dated (st : Store) : Prop :=
  ∀ s ∈ st.secrets.rows, inTimeRange s.createdAt ∧ inTimeRange s.updatedAt

theorem summary_isOk
    {s : SecretRow}
    (h : st.Dated)
    (hs : s ∈ st.secrets.rows) :
    ∃ x, summary st s = .ok x := by
  obtain ⟨hcreated, hupdated⟩ := h s hs
  unfold summary timestamp
  rw [dif_pos hcreated, dif_pos hupdated]
  exact ⟨_, rfl⟩

theorem summary_path
    {s : SecretRow} {x : SecretSummary}
    (h : summary st s = .ok x) :
    x.path = s.path := by
  obtain ⟨createdAt, -, h⟩ := bind_eq_ok.mp h
  obtain ⟨updatedAt, -, h⟩ := bind_eq_ok.mp h
  cases h
  rfl

theorem summary_tags
    {s : SecretRow} {x : SecretSummary}
    (h : summary st s = .ok x) :
    x.tags = st.tagsOf s.id := by
  obtain ⟨createdAt, -, h⟩ := bind_eq_ok.mp h
  obtain ⟨updatedAt, -, h⟩ := bind_eq_ok.mp h
  cases h
  rfl

/-- What is listed, and in which order. -/
theorem list_spec
    (h : st.Dated) {filter : ListFilter}
    (hfew : filter.tags.length ≤ filter.mostTags) :
    ∃ listed, list st filter = .ok listed ∧
      (listed.map SecretSummary.path).Nodup ∧
      listed.Pairwise (fun a b => utf8 a.path.asStr ≤ utf8 b.path.asStr) ∧
      ∀ x, x ∈ listed ↔
        ∃ s ∈ st.secrets.rows, filter.selects st s = true ∧ summary st s = .ok x := by
  have hrow : ∀ s ∈ (st.secrets.rows.filter (filter.selects st)).mergeSort pathLe,
      s ∈ st.secrets.rows ∧ filter.selects st s = true := by
    intro s hs
    exact List.mem_filter.mp (List.mem_mergeSort.mp hs)
  obtain ⟨listed, hlisted⟩ := exists_mapM_eq_ok fun s hs => summary_isOk h (hrow s hs).1
  have hall := mapM_eq_ok hlisted
  have hpaths : listed.map SecretSummary.path =
      ((st.secrets.rows.filter (filter.selects st)).mergeSort pathLe).map SecretRow.path :=
    forall₂_map_eq (fun s x hx => summary_path hx) hall
  refine ⟨listed, (list_of_prepares hfew).trans hlisted, ?_, ?_, ?_⟩
  · rw [hpaths, ((List.mergeSort_perm _ pathLe).map SecretRow.path).nodup_iff]
    exact st.paths.sublist (List.filter_sublist.map SecretRow.path)
  · have hsorted : (listed.map SecretSummary.path).Pairwise
        fun a b => utf8 a.asStr ≤ utf8 b.asStr := by
      rw [hpaths]
      refine List.pairwise_map.mpr ?_
      refine (List.pairwise_mergeSort ?_ ?_ _).imp of_decide_eq_true
      · intro a b c hab hbc
        exact decide_eq_true (List.le_trans (of_decide_eq_true hab) (of_decide_eq_true hbc))
      · intro a b
        rcases List.le_total (utf8 a.path.asStr) (utf8 b.path.asStr) with hle | hle <;> simp [hle]
    rwa [List.pairwise_map] at hsorted
  · intro x
    constructor
    · intro hx
      obtain ⟨s, hs, hsum⟩ := forall₂_mem_right hall hx
      exact ⟨s, (hrow s hs).1, (hrow s hs).2, hsum⟩
    · rintro ⟨s, hs, hsel, hsum⟩
      obtain ⟨x', hx', hsum'⟩ := forall₂_mem_left hall
        (List.mem_mergeSort.mpr (List.mem_filter.mpr ⟨hs, hsel⟩))
      cases hsum.symm.trans hsum'
      exact hx'

variable {s : SecretRow}

theorem Store.AgreeAt.summary_eq
    (h : st.AgreeAt st' s.path)
    (hs : st.secretByPath s.path = some s) :
    summary st' s = summary st s := by
  have hperm : (st'.versionsOf s.id).Perm (st.versionsOf s.id) := by
    refine (List.perm_ext_iff_of_nodup ?_ ?_).mpr fun r => h.mem_versionsOf hs
    · exact (List.Nodup.of_map _ st'.versions.unique).filter _
    · exact (List.Nodup.of_map _ st.versions.unique).filter _
  unfold summary
  rw [hperm.countP_eq, h.tagsOf_eq hs]

theorem Store.AgreeAt.selects_eq
    (h : st.AgreeAt st' s.path)
    (hs : st.secretByPath s.path = some s) (filter : ListFilter) :
    filter.selects st' s = filter.selects st s := by
  have hcarries : ∀ t, st'.carries s.id t = st.carries s.id t := by
    intro t
    rw [Bool.eq_iff_iff, Store.carries_iff, Store.carries_iff]
    exact h.mem_tagsOf hs
  unfold ListFilter.selects
  rw [funext hcarries]

theorem Store.AgreeAt.symm
    {path : SecretPath}
    (h : st.AgreeAt st' path) :
    st'.AgreeAt st path := by
  refine ⟨h.secret.symm, ?_, fun t => (h.tags t).symm⟩
  intro s hs r hid
  exact (h.versions s (h.secret.symm.trans hs) r hid).symm

/-- One half of `list_eq_of_agree`. -/
theorem mem_list_of_agree
    {filter : ListFilter} {x : SecretSummary}
    (hagree : ∀ s ∈ st.secrets.rows, summary st s = .ok x → st.AgreeAt st' s.path)
    (hx : ∃ s ∈ st.secrets.rows, filter.selects st s = true ∧ summary st s = .ok x) :
    ∃ s ∈ st'.secrets.rows, filter.selects st' s = true ∧ summary st' s = .ok x := by
  obtain ⟨s, hs, hsel, hsum⟩ := hx
  have h := hagree s hs hsum
  have hfound := Store.secretByPath_of_mem hs
  refine ⟨s, ?_, ?_, ?_⟩
  · exact (Store.secretByPath_eq_some_iff.mp (h.secret.trans hfound)).1
  · rw [h.selects_eq hfound, hsel]
  · rw [h.summary_eq hfound, hsum]

/-- Two listings show the same wherever a secret that is shown is one that they agree on. -/
theorem list_eq_of_agree
    (hdated : st.Dated)
    (hdated' : st'.Dated) {filter : ListFilter} {keep : SecretSummary → Bool}
    (hfew : filter.tags.length ≤ filter.mostTags)
    (hagree : ∀ s ∈ st.secrets.rows, ∀ x, summary st s = .ok x → keep x = true →
      st.AgreeAt st' s.path)
    (hagree' : ∀ s ∈ st'.secrets.rows, ∀ x, summary st' s = .ok x → keep x = true →
      st'.AgreeAt st s.path) :
    ∃ listed listed', list st filter = .ok listed ∧ list st' filter = .ok listed' ∧
      listed.filter keep = listed'.filter keep := by
  obtain ⟨listed, hlisted, hnodup, hsorted, hmem⟩ := list_spec hdated hfew
  obtain ⟨listed', hlisted', hnodup', hsorted', hmem'⟩ := list_spec hdated' hfew
  refine ⟨listed, listed', hlisted, hlisted', ?_⟩
  refine eq_of_pairwise_of_mem (hsorted.filter _) (hsorted'.filter _)
    ((List.Nodup.of_map _ hnodup).filter _) ((List.Nodup.of_map _ hnodup').filter _) ?_ ?_
  · intro x
    rw [List.mem_filter, List.mem_filter, hmem, hmem']
    constructor
    · rintro ⟨hx, hkeep⟩
      exact ⟨mem_list_of_agree (fun s hs hsum => hagree s hs x hsum hkeep) hx, hkeep⟩
    · rintro ⟨hx, hkeep⟩
      exact ⟨mem_list_of_agree (fun s hs hsum => hagree' s hs x hsum hkeep) hx, hkeep⟩
  · intro a ha b hb hab hba
    have hpath : a.path = b.path :=
      SecretPath.asStr_inj (utf8_inj (List.le_antisymm hab hba))
    exact List.inj_on_of_nodup_map hnodup (List.mem_filter.mp ha).1 (List.mem_filter.mp hb).1
      hpath

end Lists

section Dates

variable {st st' : Store}

theorem Store.Dated.of_secrets
    (h : st.Dated)
    (hsecrets : st'.secrets = st.secrets) :
    st'.Dated := by
  unfold Store.Dated
  rw [hsecrets]
  exact h

/-- A statement that writes the present time. -/
theorem Store.Dated.update
    {f : SecretRow → SecretRow} {hid : ∀ s, (f s).id = s.id} {hpath : ∀ s, (f s).path = s.path}
    (h : st.Dated) (now : UnixTime)
    (hcreated : ∀ s, (f s).createdAt = s.createdAt)
    (hupdated : ∀ s, (f s).updatedAt = s.updatedAt ∨ (f s).updatedAt = now.seconds) :
    (st.updateSecrets f hid hpath).Dated := by
  intro s hs
  obtain ⟨s₀, hs₀, rfl⟩ := List.mem_map.mp hs
  refine ⟨hcreated s₀ ▸ (h s₀ hs₀).1, ?_⟩
  rcases hupdated s₀ with heq | heq
  · rw [heq]
    exact (h s₀ hs₀).2
  · rw [heq]
    exact now.inRange

theorem Store.Dated.pointCurrent
    (h : st.Dated) (id : Uuid) (current : Option Version) (now : UnixTime) :
    (st.pointCurrent id current now.seconds).Dated := by
  refine h.update now ?_ ?_
  · intro s
    split <;> rfl
  · intro s
    split
    · exact .inr rfl
    · exact .inl rfl

theorem Store.Dated.touch
    (h : st.Dated) (path : SecretPath) (now : UnixTime) :
    (st.touch path now).Dated := by
  refine h.update now ?_ ?_
  · intro s
    split <;> rfl
  · intro s
    split
    · exact .inr rfl
    · exact .inl rfl

theorem dated_commit
    {path : SecretPath} {freshId : Uuid} {began now : UnixTime} {slot : WriteSlot}
    {sealed : SealedVersion} {info : WriteMeta} {v : Version}
    (h : st.Dated)
    (hbegin : beginWrite st path freshId began = .ok slot)
    (hcommit : slot.commit sealed info now = .ok (st', v)) :
    st'.Dated := by
  obtain ⟨-, -, hcase⟩ := beginWrite_eq_ok hbegin
  have htx : slot.tx.Dated := by
    rcases hcase with ⟨s, -, htx, -⟩ | ⟨-, -, -, hrows⟩
    · rwa [htx]
    · intro s hs
      rw [hrows] at hs
      rcases List.mem_append.mp hs with hs | hs
      · exact h s hs
      · obtain rfl := List.mem_singleton.mp hs
        exact ⟨began.inRange, began.inRange⟩
  obtain ⟨-, mid, hmid, rfl⟩ := WriteSlot.commit_eq_ok hcommit
  obtain ⟨-, -, hsecrets, -⟩ := Store.insertVersion_eq_ok hmid
  exact ((htx.of_secrets hsecrets).pointCurrent _ _ now).of_secrets (prune_secrets ..)

theorem dated_addTags
    {path : SecretPath} {tags : List Tag} {now : UnixTime}
    (h : st.Dated)
    (hadd : addTags st path tags now = .ok st') :
    st'.Dated := by
  obtain ⟨id, -, hadd⟩ := bind_eq_ok.mp hadd
  obtain ⟨mid, hmid, hadd⟩ := bind_eq_ok.mp hadd
  cases hadd
  exact (h.of_secrets (attachAll_frame hmid).1).touch path now

theorem dated_removeTags
    {path : SecretPath} {selectors : List TagSelector} {now : UnixTime}
    (h : st.Dated)
    (hremove : removeTags st path selectors now = .ok st') :
    st'.Dated := by
  obtain ⟨id, -, hremove⟩ := bind_eq_ok.mp hremove
  cases hremove
  exact (h.of_secrets (detachAll_frame st id selectors).1).touch path now

theorem dated_rollback
    {path : SecretPath} {target : Version} {now : UnixTime}
    (h : st.Dated)
    (hroll : rollback st path target now = .ok st') :
    st'.Dated := by
  obtain ⟨s, r, -, -, -, -, rfl⟩ := rollback_eq_ok hroll
  exact h.pointCurrent _ _ now

theorem dated_deleteVersion
    {path : SecretPath} {selector : VersionSelector} {mode : DeleteMode} {now : UnixTime}
    {v : Version}
    (h : st.Dated)
    (hdel : deleteVersion st path selector mode now = .ok (st', v)) :
    st'.Dated := by
  obtain ⟨s, -, rfl⟩ := deleteVersion_eq_ok hdel
  exact Store.Dated.pointCurrent (Store.Dated.of_secrets h rfl) _ _ now

theorem dated_import
    {id : Uuid} {e : ExportedSecret} {now : UnixTime}
    (h : st.Dated)
    (himport : importSecretWithId st id e now = .ok st') :
    st'.Dated := by
  obtain ⟨-, hsecrets, -⟩ := importSecretWithId_eq_ok himport
  intro s hs
  rcases (hsecrets s).mp hs with hs | rfl
  · exact h s hs
  · exact ⟨UnixTime.inRange _, now.inRange⟩

/-- Every operation of a vault leaves timestamps that can be shown. -/
theorem Vault.dated_step
    (P : Primitives) (vault : Vault)
    (h : vault.store.Dated) (op : VaultOp) :
    (op.step P vault).store.Dated := by
  refine VaultOp.step_of_does (motive := fun v => v.store.Dated) h ?_ op
  intro vault' hdoes
  cases hdoes with
  | write hwrite =>
      obtain ⟨slot, sealed, hbegin, -, hcommit, -⟩ := Vault.write_eq_ok hwrite
      exact dated_commit h hbegin hcommit
  | rollback hroll => exact dated_rollback h hroll
  | deleteVersion hdel => exact dated_deleteVersion h hdel
  | addTags hadd => exact dated_addTags h hadd
  | removeTags hremove => exact dated_removeTags h hremove
  | rotate hrotate =>
      obtain ⟨⟨store, report⟩, hrekey, heq⟩ := bind_eq_ok.mp hrotate
      cases heq
      obtain ⟨-, hsecrets, -⟩ := rekeyWith_eq_ok hrekey
      exact h.of_secrets hsecrets

end Dates

end Storage
end Secretbae
