import Secretbae.Store.Current
import Secretbae.Store.Frames
import Secretbae.Store.Views
import Secretbae.Store.Prefixes

/-!
# Tags and listings as a map

What the tag operations are for is a map from paths to sets of tags.  The store
keeps it in a table of tags, a table of links and a sweep of the tags that no
link names; `Store.tagMap` reads the map off the tables, and `tagMap_run` says
that over every run it is the one that the operations build up.
`tags_and_listings_of_map` draws what `tags`, `all_distinct_tags` and `list`
return from it.
-/

namespace Secretbae
namespace Storage

open Lib Proto Core

section Maps

/-- The tags at each path where there is a secret. -/
def TagMap : Type :=
  SecretPath → Option (Set Tag)

def TagMap.empty : TagMap :=
  fun _ => none

/-- There is a secret at `path`; a new one has no tags. -/
def TagMap.create (m : TagMap) (path : SecretPath) : TagMap :=
  fun p => if p = path then some ((m p).getD ∅) else m p

def TagMap.add (m : TagMap) (path : SecretPath) (tags : List Tag) : TagMap :=
  fun p => if p = path then (m p).map (fun set => set ∪ {t | t ∈ tags}) else m p

def TagMap.remove (m : TagMap) (path : SecretPath) (selectors : List TagSelector) : TagMap :=
  fun p =>
    if p = path then
      (m p).map (fun set => set \ {t | ∃ s ∈ selectors, s.matches t = true})
    else m p

/-- What an operation that succeeds does to the map. -/
def StoreOp.onTags (op : StoreOp) (m : TagMap) : TagMap :=
  match op with
  | .write path .. => m.create path
  | .addTags path tags _ => m.add path tags
  | .removeTags path selectors _ => m.remove path selectors
  | .importSecret _ secret _ => (m.create secret.secret.path).add secret.secret.path
      secret.secret.tags
  | .abandonWrite .. | .rollback .. | .deleteVersion .. | .rekeyWith .. => m

/-- The path an operation is about. -/
def StoreOp.path? : StoreOp → Option SecretPath
  | .write path .. => some path
  | .abandonWrite path .. => some path
  | .rollback path .. => some path
  | .deleteVersion path .. => some path
  | .addTags path .. => some path
  | .removeTags path .. => some path
  | .rekeyWith .. => none
  | .importSecret _ secret _ => some secret.secret.path

/-- The store and the map side by side; an operation that fails does not count. -/
def tagStep (s : Store × TagMap) (op : StoreOp) : Store × TagMap :=
  (op.step s.1, if (op.outcome s.1).isOk then op.onTags s.2 else s.2)

/-- The map that a run from the empty store builds up. -/
def tagMapOf (ops : List StoreOp) : TagMap :=
  (run tagStep (Store.empty, TagMap.empty) ops).2

theorem StoreOp.onTags_frame
    {op : StoreOp} {path : SecretPath}
    (h : op.path? ≠ some path) (m : TagMap) :
    op.onTags m path = m path := by
  have hne : ∀ q, op.path? = some q → path ≠ q := by
    rintro q hq rfl
    exact h hq
  cases op with
  | write q => exact if_neg (hne q rfl)
  | addTags q => exact if_neg (hne q rfl)
  | removeTags q => exact if_neg (hne q rfl)
  | importSecret id secret now =>
      have hq := hne secret.secret.path rfl
      exact (if_neg hq).trans (if_neg hq)
  | abandonWrite => rfl
  | rollback => rfl
  | deleteVersion => rfl
  | rekeyWith => rfl

end Maps

section Abstraction

/-- The map that the tables hold. -/
def Store.tagMap (st : Store) : TagMap :=
  fun path => (st.secretByPath path).map fun s => {t | t ∈ st.tagsOf s.id}

/-- There is a secret at `path`. -/
def Store.Present (st : Store) (path : SecretPath) : Prop :=
  ∃ s ∈ st.secrets.rows, s.path = path

theorem Store.present_iff
    {st : Store} {path : SecretPath} :
    st.Present path ↔ ∃ s, st.secretByPath path = some s := by
  simp only [Store.Present, Store.secretByPath_eq_some_iff]

theorem Store.isSome_tagMap
    {st : Store} {path : SecretPath} :
    (st.tagMap path).isSome ↔ st.Present path := by
  rw [Store.present_iff, Store.tagMap, Option.isSome_map, Option.isSome_iff_exists]

theorem Store.mem_of_tagMap_eq
    {st : Store} {path : SecretPath} {set : Set Tag}
    (h : st.tagMap path = some set) (t : Tag) :
    t ∈ set ↔ st.Carries path t := by
  obtain ⟨s, hs, rfl⟩ := Option.map_eq_some_iff.mp h
  simp [Store.Carries, hs]

/-- Where there is a secret, and what it carries, is all the map says. -/
theorem Store.tagMap_eq
    {st : Store} {path : SecretPath} {o : Option (Set Tag)}
    (hpresent : st.Present path ↔ o.isSome)
    (htags : ∀ set, o = some set → ∀ t, st.Carries path t ↔ t ∈ set) :
    st.tagMap path = o := by
  cases o with
  | none =>
      rw [← Option.not_isSome_iff_eq_none, Store.isSome_tagMap, hpresent]
      simp
  | some set =>
      obtain ⟨set', hset'⟩ :=
        Option.isSome_iff_exists.mp (Store.isSome_tagMap.mpr (hpresent.mpr rfl))
      have heq : set' = set := by
        ext t
        rw [Store.mem_of_tagMap_eq hset', htags set rfl]
      rw [hset', heq]

theorem Store.tagMap_congr
    {st st' : Store}
    (hpresent : ∀ p, st'.Present p ↔ st.Present p)
    (htags : ∀ p t, st'.Carries p t ↔ st.Carries p t) :
    st'.tagMap = st.tagMap := by
  funext p
  refine Store.tagMap_eq ?_ ?_
  · rw [hpresent, Store.isSome_tagMap]
  · intro set hset t
    rw [htags, Store.mem_of_tagMap_eq hset]

theorem Store.tagMap_create
    {st st' : Store} {path : SecretPath}
    (hpresent : ∀ p, st'.Present p ↔ st.Present p ∨ p = path)
    (htags : ∀ p t, st'.Carries p t ↔ st.Carries p t) :
    st'.tagMap = st.tagMap.create path := by
  funext p
  unfold TagMap.create
  by_cases hp : p = path
  · rw [if_pos hp]
    refine Store.tagMap_eq ?_ ?_
    · rw [hpresent]
      simp [hp]
    · rintro set ⟨⟩ t
      rw [htags]
      cases hset : st.tagMap p with
      | some set => exact (Store.mem_of_tagMap_eq hset t).symm
      | none =>
          have hnone : ¬ st.Present p := by
            rw [← Store.isSome_tagMap, hset]
            simp
          refine iff_of_false ?_ (Set.notMem_empty t)
          rintro ⟨s, hs, -⟩
          exact hnone (Store.present_iff.mpr ⟨s, hs⟩)
  · rw [if_neg hp]
    refine Store.tagMap_eq ?_ ?_
    · rw [hpresent, Store.isSome_tagMap]
      simp [hp]
    · intro set hset t
      rw [htags, Store.mem_of_tagMap_eq hset]

/-- A change of the tags at one path. -/
theorem Store.tagMap_update
    {st st' : Store} {path : SecretPath} {f : Set Tag → Set Tag}
    (hpresent : ∀ p, st'.Present p ↔ st.Present p)
    (hother : ∀ p t, p ≠ path → (st'.Carries p t ↔ st.Carries p t))
    (hpath : ∀ set, st.tagMap path = some set → ∀ t, st'.Carries path t ↔ t ∈ f set) :
    st'.tagMap = fun p => if p = path then (st.tagMap p).map f else st.tagMap p := by
  funext p
  by_cases hp : p = path
  · subst hp
    rw [if_pos rfl]
    refine Store.tagMap_eq ?_ ?_
    · rw [hpresent, Option.isSome_map, Store.isSome_tagMap]
    · intro set hset t
      obtain ⟨old, hold, rfl⟩ := Option.map_eq_some_iff.mp hset
      exact hpath old hold t
  · rw [if_neg hp]
    refine Store.tagMap_eq ?_ ?_
    · rw [hpresent, Store.isSome_tagMap]
    · intro set hset t
      rw [hother p t hp, Store.mem_of_tagMap_eq hset]

end Abstraction

section Steps

variable {st st' : Store}

/-- Changing other columns moves no secret. -/
theorem Store.present_of_map
    {f : SecretRow → SecretRow}
    (hpath : ∀ s, (f s).path = s.path)
    (hrows : st'.secrets.rows = st.secrets.rows.map f) (p : SecretPath) :
    st'.Present p ↔ st.Present p := by
  unfold Store.Present
  rw [hrows]
  simp [hpath]

theorem Store.Touched.present
    (h : st.Touched st') (p : SecretPath) :
    st'.Present p ↔ st.Present p := by
  obtain ⟨f, hf, hrows, -⟩ := h
  exact Store.present_of_map (fun s => (hf s).2.1) hrows p

theorem Store.present_pointCurrent
    (st : Store) (id : Uuid) (current : Option Version) (updatedAt : Int64) (p : SecretPath) :
    (st.pointCurrent id current updatedAt).Present p ↔ st.Present p := by
  refine Store.present_of_map ?_ rfl p
  intro s
  split <;> rfl

/-- Pointing a secret elsewhere leaves its tags. -/
theorem Store.carries_pointCurrent
    (st : Store) (id : Uuid) (current : Option Version) (updatedAt : Int64) (p : SecretPath)
    (t : Tag) :
    (st.pointCurrent id current updatedAt).Carries p t ↔ st.Carries p t := by
  have htables : ∀ id' t, t ∈ (st.pointCurrent id current updatedAt).tagsOf id' ↔
      t ∈ st.tagsOf id' := fun _ _ => Iff.rfl
  refine Store.carries_congr ?_ htables p t
  intro q
  unfold Store.pointCurrent
  rw [Store.secretByPath_updateSecrets, Option.map_map]
  congr 1
  funext s
  dsimp only [Function.comp]
  split <;> rfl

theorem tagMap_pointCurrent
    (st : Store) (id : Uuid) (current : Option Version) (updatedAt : Int64) :
    (st.pointCurrent id current updatedAt).tagMap = st.tagMap :=
  Store.tagMap_congr (st.present_pointCurrent id current updatedAt)
    (st.carries_pointCurrent id current updatedAt)

theorem Store.tagMap_of_tables
    (hsecrets : st'.secrets = st.secrets)
    (htables : st.SameTagTables st') :
    st'.tagMap = st.tagMap := by
  funext p
  unfold Store.tagMap
  rw [Store.secretByPath_congr hsecrets]
  simp only [Store.tagsOf_congr htables.1 htables.2]

theorem tagMap_beginWrite
    {path : SecretPath} {freshId : Uuid} {began : UnixTime} {slot : WriteSlot}
    (h : beginWrite st path freshId began = .ok slot) :
    slot.tx.tagMap = st.tagMap.create path := by
  obtain ⟨-, -, ⟨s, hs, htx, -⟩ | ⟨-, -, hfresh, hrows⟩⟩ := beginWrite_eq_ok h
  · rw [htx]
    refine Store.tagMap_create ?_ fun _ _ => Iff.rfl
    intro p
    refine ⟨.inl, ?_⟩
    rintro (hp | rfl)
    · exact hp
    · exact Store.present_iff.mpr ⟨s, hs⟩
  · obtain ⟨htags, hlinks⟩ := beginWrite_tagTables h
    refine Store.tagMap_create ?_ (Store.carries_newSecret hrows hfresh htags hlinks)
    intro p
    unfold Store.Present
    rw [hrows]
    simp [newSecret, or_and_right, exists_or, eq_comm]

theorem tagMap_commit
    {slot : WriteSlot} {sealed : SealedVersion} {info : WriteMeta} {now : UnixTime}
    {v : Version}
    (h : slot.commit sealed info now = .ok (st', v)) :
    st'.tagMap = slot.tx.tagMap := by
  obtain ⟨-, mid, hmid, rfl⟩ := WriteSlot.commit_eq_ok h
  obtain ⟨-, -, hsecrets, -⟩ := Store.insertVersion_eq_ok hmid
  have hprune := Store.tagMap_of_tables (prune_secrets _ _ _ _)
    (prune_tagTables (mid.pointCurrent slot.secretId (some slot.version) now.seconds)
      slot.secretId slot.version slot.maxVersions)
  rw [hprune, tagMap_pointCurrent]
  exact Store.tagMap_of_tables hsecrets (Store.insertVersion_tagTables hmid)

theorem tagMap_addTags
    {path : SecretPath} {tags : List Tag} {now : UnixTime}
    (h : addTags st path tags now = .ok st') :
    st'.tagMap = st.tagMap.add path tags := by
  have hcarries := addTags_carries h
  refine Store.tagMap_update (addTags_frame h).present ?_ ?_
  · intro p t hp
    rw [hcarries]
    simp [hp]
  · intro set hset t
    rw [hcarries, Set.mem_union, Store.mem_of_tagMap_eq hset]
    simp

theorem tagMap_removeTags
    {path : SecretPath} {selectors : List TagSelector} {now : UnixTime}
    (h : removeTags st path selectors now = .ok st') :
    st'.tagMap = st.tagMap.remove path selectors := by
  have hcarries := removeTags_carries h
  refine Store.tagMap_update (removeTags_frame h).present ?_ ?_
  · intro p t hp
    rw [hcarries]
    simp [hp]
  · intro set hset t
    rw [hcarries, Set.mem_sdiff, Store.mem_of_tagMap_eq hset]
    simp

theorem tagMap_import
    {id : Uuid} {e : ExportedSecret} {now : UnixTime}
    (h : importSecretWithId st id e now = .ok st') :
    st'.tagMap = (st.tagMap.create e.path).add e.path e.tags := by
  obtain ⟨-, hsecrets, hfree, -, hcarries⟩ := importSecretWithId_eq_ok h
  have hpresent : ∀ p, st'.Present p ↔ st.Present p ∨ p = e.path := by
    intro p
    simp [Store.Present, hsecrets, importedSecret, or_and_right, exists_or, eq_comm]
  -- the path is a new one, so what is there afterwards is what the import brings
  have hnew : ¬ st.Present e.path := by
    rintro ⟨s, hs, hpath⟩
    exact (hfree s hs).1 hpath
  have hnone : st.tagMap e.path = none := by
    rw [← Option.not_isSome_iff_eq_none, Store.isSome_tagMap]
    exact hnew
  funext p
  unfold TagMap.add TagMap.create
  by_cases hp : p = e.path
  · subst hp
    refine Store.tagMap_eq ?_ ?_
    · simp [hpresent]
    · intro set hset t
      simp only [if_true, hnone, Option.getD_none, Option.map_some, Option.some.injEq] at hset
      subst hset
      rw [hcarries]
      have hnot : ¬ st.Carries e.path t := by
        rintro ⟨s, hs, -⟩
        exact hnew (Store.present_iff.mpr ⟨s, hs⟩)
      simp [hnot]
  · simp only [if_neg hp]
    refine Store.tagMap_eq ?_ ?_
    · rw [hpresent, Store.isSome_tagMap]
      simp [hp]
    · intro set hset t
      rw [hcarries, Store.mem_of_tagMap_eq hset]
      simp [hp]

/-- An operation that succeeds does to the tables what it does to the map. -/
theorem tagMap_outcome
    {op : StoreOp}
    (h : op.outcome st = .ok st') :
    st'.tagMap = op.onTags st.tagMap := by
  cases op with
  | write path freshId began sealed info now =>
      obtain ⟨⟨st', v⟩, hwrite, rfl⟩ := map_eq_ok.mp h
      obtain ⟨slot, hbegin, hcommit⟩ := bind_eq_ok.mp hwrite
      exact (tagMap_commit hcommit).trans (tagMap_beginWrite hbegin)
  | abandonWrite path freshId began =>
      cases h
      rfl
  | rollback path target now =>
      obtain ⟨s, r, -, -, -, -, rfl⟩ := rollback_eq_ok h
      exact tagMap_pointCurrent ..
  | deleteVersion path selector mode now =>
      obtain ⟨⟨st', v⟩, hdel, rfl⟩ := map_eq_ok.mp h
      obtain ⟨s, -, rfl⟩ := deleteVersion_eq_ok hdel
      exact (tagMap_pointCurrent ..).trans (Store.tagMap_of_tables rfl ⟨rfl, rfl⟩)
  | addTags path tags now => exact tagMap_addTags h
  | removeTags path selectors now => exact tagMap_removeTags h
  | rekeyWith newSealedMaster rewrap =>
      obtain ⟨⟨st', report⟩, hrekey, rfl⟩ := map_eq_ok.mp h
      exact Store.tagMap_of_tables (rekeyWith_eq_ok hrekey).2.1 (rekeyWith_tagTables hrekey)
  | importSecret id secret now => exact tagMap_import h

theorem tagMap_step
    (st : Store) (op : StoreOp) :
    (op.step st).tagMap =
      if (op.outcome st).isOk then op.onTags st.tagMap else st.tagMap := by
  cases h : op.outcome st with
  | ok st' =>
      rw [StoreOp.step_of_ok h]
      exact tagMap_outcome h
  | error e =>
      rw [StoreOp.step_of_error h]
      rfl

theorem run_tagStep
    (m : TagMap) (ops : List StoreOp)
    (hm : st.tagMap = m) :
    run tagStep (st, m) ops =
      (run StoreOp.step st ops, (run StoreOp.step st ops).tagMap) := by
  induction ops generalizing st m with
  | nil =>
      rw [← hm]
      rfl
  | cons op ops ih =>
      subst hm
      exact ih _ (tagMap_step st op)

/-- The tables hold the map that the run builds up. -/
theorem tagMap_run
    (ops : List StoreOp) :
    (run StoreOp.step Store.empty ops).tagMap = tagMapOf ops := by
  unfold tagMapOf
  rw [run_tagStep TagMap.empty ops rfl]

end Steps

section Orphans

variable {st st' : Store}

/-- Some link names every tag. -/
def Store.NoOrphan (st : Store) : Prop :=
  ∀ t ∈ st.tags.rows, ∃ r ∈ st.secretTags.rows, r.tagId = t.id

theorem Store.NoOrphan.of_tables
    (h : st.NoOrphan)
    (htables : st.SameTagTables st') :
    st'.NoOrphan := by
  unfold Store.NoOrphan
  rw [htables.1, htables.2]
  exact h

/-- The tag that is inserted is attached at once. -/
theorem noOrphan_attach
    {mid : Store} {id : Uuid} {tag : Tag}
    (h : st.NoOrphan)
    (hinsert : st.insertTag tag = .ok mid)
    (hattach : mid.attachTag id tag = .ok st') :
    st'.NoOrphan := by
  have hmid := Store.insertTag_spec hinsert
  have htag : tag ∈ st'.tagsOf id :=
    ((Store.attachTag_spec hmid.1 hattach).2 id tag).mpr (.inr ⟨rfl, rfl⟩)
  obtain ⟨row, hrow, hrowtag, r, hr, -, hlink⟩ := Store.mem_tagsOf.mp htag
  -- every other row was there before, with its link
  have hold : ∀ t ∈ st'.tags.rows, t.tag = tag ∨ t ∈ st.tags.rows := by
    intro t ht
    rw [(Store.attachTag_tables hattach).1] at ht
    exact Store.insertTag_rows hinsert t ht
  intro t ht
  rcases hold t ht with heq | ht'
  · have hsame : t = row :=
      List.inj_on_of_nodup_map st'.tagValues ht hrow (heq.trans hrowtag.symm)
    exact ⟨r, hr, hlink.trans (congrArg TagRow.id hsame.symm)⟩
  · obtain ⟨r', hr', hlink'⟩ := h t ht'
    refine ⟨r', (Store.attachTag_tables hattach).2 r' ?_, hlink'⟩
    rw [Store.insertTag_links hinsert]
    exact hr'

theorem noOrphan_attachAll
    {id : Uuid} {tags : List Tag}
    (h : st.NoOrphan)
    (hall : attachAll st id tags = .ok st') :
    st'.NoOrphan := by
  induction tags generalizing st with
  | nil =>
      cases hall
      exact h
  | cons tag tags ih =>
      obtain ⟨st₁, h₁, hall⟩ := bind_eq_ok.mp hall
      obtain ⟨st₂, h₂, hall⟩ := bind_eq_ok.mp hall
      exact ih (noOrphan_attach h h₁ h₂) hall

theorem noOrphan_addTags
    {path : SecretPath} {tags : List Tag} {now : UnixTime}
    (h : st.NoOrphan)
    (hadd : addTags st path tags now = .ok st') :
    st'.NoOrphan := by
  obtain ⟨id, -, hadd⟩ := bind_eq_ok.mp hadd
  obtain ⟨mid, hmid, hadd⟩ := bind_eq_ok.mp hadd
  cases hadd
  exact (noOrphan_attachAll h hmid).of_tables ⟨rfl, rfl⟩

/-- The sweep at the end of `remove_tags` leaves none, whatever was there. -/
theorem noOrphan_removeTags
    {path : SecretPath} {selectors : List TagSelector} {now : UnixTime}
    (hremove : removeTags st path selectors now = .ok st') :
    st'.NoOrphan := by
  obtain ⟨id, -, hremove⟩ := bind_eq_ok.mp hremove
  cases hremove
  intro t ht
  obtain ⟨-, hused⟩ := Table.mem_keep.mp ht
  obtain ⟨r, hr, hlink⟩ := List.any_eq_true.mp hused
  exact ⟨r, hr, of_decide_eq_true hlink⟩

theorem noOrphan_import
    {id : Uuid} {e : ExportedSecret} {now : UnixTime}
    (h : st.NoOrphan)
    (himport : importSecretWithId st id e now = .ok st') :
    st'.NoOrphan := by
  unfold importSecretWithId at himport
  split at himport
  · cases himport
  obtain ⟨tx, hins, himport⟩ := bind_eq_ok.mp himport
  obtain ⟨tx', hvers, htags⟩ := bind_eq_ok.mp himport
  have htables : st.SameTagTables tx := Store.insertSecret_tagTables hins
  have htables' : tx.SameTagTables tx' := importVersions_tagTables hvers
  exact noOrphan_addTags ((h.of_tables htables).of_tables htables') htags

theorem noOrphan_outcome
    {op : StoreOp}
    (h : st.NoOrphan)
    (hop : op.outcome st = .ok st') :
    st'.NoOrphan := by
  cases op with
  | write path freshId began sealed info now =>
      obtain ⟨⟨st', v⟩, hwrite, rfl⟩ := map_eq_ok.mp hop
      obtain ⟨slot, hbegin, hcommit⟩ := bind_eq_ok.mp hwrite
      exact (h.of_tables (beginWrite_tagTables hbegin)).of_tables (commit_tagTables hcommit)
  | abandonWrite path freshId began =>
      cases hop
      exact h
  | rollback path target now =>
      obtain ⟨s, r, -, -, -, -, rfl⟩ := rollback_eq_ok hop
      exact h.of_tables ⟨rfl, rfl⟩
  | deleteVersion path selector mode now =>
      obtain ⟨⟨st', v⟩, hdel, rfl⟩ := map_eq_ok.mp hop
      obtain ⟨s, -, rfl⟩ := deleteVersion_eq_ok hdel
      exact h.of_tables ⟨rfl, rfl⟩
  | addTags path tags now => exact noOrphan_addTags h hop
  | removeTags path selectors now => exact noOrphan_removeTags hop
  | rekeyWith newSealedMaster rewrap =>
      obtain ⟨⟨st', report⟩, hrekey, rfl⟩ := map_eq_ok.mp hop
      exact h.of_tables (rekeyWith_tagTables hrekey)
  | importSecret id secret now => exact noOrphan_import h hop

theorem dated_outcome
    {op : StoreOp}
    (h : st.Dated)
    (hop : op.outcome st = .ok st') :
    st'.Dated := by
  cases op with
  | write path freshId began sealed info now =>
      obtain ⟨⟨st', v⟩, hwrite, rfl⟩ := map_eq_ok.mp hop
      obtain ⟨slot, hbegin, hcommit⟩ := bind_eq_ok.mp hwrite
      exact dated_commit h hbegin hcommit
  | abandonWrite path freshId began =>
      cases hop
      exact h
  | rollback path target now => exact dated_rollback h hop
  | deleteVersion path selector mode now =>
      obtain ⟨⟨st', v⟩, hdel, rfl⟩ := map_eq_ok.mp hop
      exact dated_deleteVersion h hdel
  | addTags path tags now => exact dated_addTags h hop
  | removeTags path selectors now => exact dated_removeTags h hop
  | rekeyWith newSealedMaster rewrap =>
      obtain ⟨⟨st', report⟩, hrekey, rfl⟩ := map_eq_ok.mp hop
      exact h.of_secrets (rekeyWith_eq_ok hrekey).2.1
  | importSecret id secret now => exact dated_import h hop

theorem reachable_noOrphan
    (ops : List StoreOp) :
    (run StoreOp.step Store.empty ops).NoOrphan :=
  reachable_of_outcome (by rintro t ⟨⟩) noOrphan_outcome ops

theorem reachable_dated
    (ops : List StoreOp) :
    (run StoreOp.step Store.empty ops).Dated :=
  reachable_of_outcome (by rintro s ⟨⟩) dated_outcome ops

end Orphans

section Answers

variable {st st' : Store}

/-- Tags in the order of `ORDER BY key, value`, each once. -/
def TagsInOrder (tags : List Tag) : Prop :=
  tags.Pairwise (fun a b => tagLe a b = true) ∧ tags.Nodup

theorem tagsInOrder_mergeSort
    {tags : List Tag}
    (h : tags.Nodup) :
    TagsInOrder (tags.mergeSort tagLe) :=
  ⟨List.pairwise_mergeSort tagLe_trans tagLe_total tags,
    (List.mergeSort_perm tags tagLe).nodup_iff.mpr h⟩

theorem tags_of_none
    {path : SecretPath}
    (h : st.tagMap path = none) :
    tags st path = .error .notFound :=
  tags_eq_error (Option.map_eq_none_iff.mp h)

theorem tags_of_some
    {path : SecretPath} {set : Set Tag}
    (h : st.tagMap path = some set) :
    ∃ listed, tags st path = .ok listed ∧ TagsInOrder listed ∧ ∀ t, t ∈ listed ↔ t ∈ set := by
  obtain ⟨s, hs, rfl⟩ := Option.map_eq_some_iff.mp h
  exact ⟨st.tagsOf s.id, tags_eq_ok hs, tagsInOrder_mergeSort (st.nodup_attached _),
    fun _ => Iff.rfl⟩

/-- One set is listed in one way. -/
theorem tagsInOrder_ext
    {l l' : List Tag}
    (h : TagsInOrder l)
    (h' : TagsInOrder l')
    (hmem : ∀ t, t ∈ l ↔ t ∈ l') :
    l = l' :=
  eq_of_pairwise_of_mem h.1 h'.1 h.2 h'.2 hmem fun _ _ _ _ => tagLe_antisymm

theorem tags_congr
    {path : SecretPath}
    (h : st'.tagMap path = st.tagMap path) :
    tags st' path = tags st path := by
  cases hset : st.tagMap path with
  | none =>
      rw [tags_of_none hset, tags_of_none (h.trans hset)]
  | some set =>
      obtain ⟨l, hl, horder, hmem⟩ := tags_of_some hset
      obtain ⟨l', hl', horder', hmem'⟩ := tags_of_some (h.trans hset)
      rw [hl, hl', tagsInOrder_ext horder' horder fun t => (hmem' t).trans (hmem t).symm]

/-- With no orphan, the tag table is the union of the sets. -/
theorem mem_allDistinctTags
    (h : st.NoOrphan) {t : Tag} :
    t ∈ allDistinctTags st ↔ ∃ path set, st.tagMap path = some set ∧ t ∈ set := by
  rw [allDistinctTags, List.mem_mergeSort, List.mem_map]
  constructor
  · rintro ⟨row, hrow, rfl⟩
    obtain ⟨r, hr, hlink⟩ := h row hrow
    obtain ⟨⟨s, hs, hid⟩, -⟩ := st.secretTagRefs r hr
    refine ⟨s.path, _, congrArg (Option.map _) (Store.secretByPath_of_mem hs), ?_⟩
    exact Store.mem_tagsOf.mpr ⟨row, hrow, rfl, r, hr, hid.symm, hlink⟩
  · rintro ⟨path, set, hset, ht⟩
    obtain ⟨s, -, hs⟩ := (Store.mem_of_tagMap_eq hset t).mp ht
    obtain ⟨row, hrow, htag, -⟩ := Store.mem_tagsOf.mp hs
    exact ⟨row, hrow, htag⟩

theorem ListFilter.selects_iff
    {filter : ListFilter} {s : SecretRow} {set : Set Tag}
    (hset : st.tagMap s.path = some set)
    (hs : st.secretByPath s.path = some s) :
    filter.selects st s = true ↔
      (∀ t ∈ filter.tags, t ∈ set) ∧
      (∀ p, filter.pathPrefix = some p → p ≠ "" →
        Continues (trimSlashes p.toList) s.path.asStr.toList) ∧
      (filter.includeEmpty = false → ∃ v, s.currentVersion = some v) := by
  have hcarries : ∀ t, st.carries s.id t = true ↔ t ∈ set := by
    intro t
    rw [Store.carries_iff, Store.mem_of_tagMap_eq hset]
    simp [Store.Carries, hs]
  have hempty : (filter.includeEmpty || s.currentVersion.isSome) = true ↔
      (filter.includeEmpty = false → ∃ v, s.currentVersion = some v) := by
    rw [← Option.isSome_iff_exists]
    cases filter.includeEmpty <;> simp
  simp only [ListFilter.selects, Bool.and_eq_true, List.all_eq_true, hcarries, hempty,
    ListFilter.selectsPath_iff]
  tauto

/-- What is listed, in terms of the map. -/
theorem list_of_tagMap
    (h : st.Dated) {filter : ListFilter}
    (hfew : filter.tags.length ≤ filter.mostTags) :
    ∃ listed, list st filter = .ok listed ∧
      (listed.map SecretSummary.path).Nodup ∧
      listed.Pairwise (fun a b => utf8 a.path.asStr ≤ utf8 b.path.asStr) ∧
      (∀ x ∈ listed, tags st x.path = .ok x.tags) ∧
      ∀ path, path ∈ listed.map SecretSummary.path ↔
        ∃ set, st.tagMap path = some set ∧ (∀ t ∈ filter.tags, t ∈ set) ∧
          (∀ p, filter.pathPrefix = some p → p ≠ "" →
            Continues (trimSlashes p.toList) path.asStr.toList) ∧
          (filter.includeEmpty = false → ∃ v, st.currentAt path = some v) := by
  obtain ⟨listed, hlisted, hnodup, horder, hmem⟩ := list_spec h hfew
  refine ⟨listed, hlisted, hnodup, horder, ?_, ?_⟩
  · intro x hx
    obtain ⟨s, hs, -, hsum⟩ := (hmem x).mp hx
    rw [summary_path hsum, summary_tags hsum]
    exact tags_eq_ok (Store.secretByPath_of_mem hs)
  · intro path
    rw [List.mem_map]
    constructor
    · rintro ⟨x, hx, rfl⟩
      obtain ⟨s, hs, hsel, hsum⟩ := (hmem x).mp hx
      have hfound := Store.secretByPath_of_mem hs
      have hset : st.tagMap s.path = some {t | t ∈ st.tagsOf s.id} :=
        congrArg (Option.map _) hfound
      rw [summary_path hsum]
      refine ⟨_, hset, ?_⟩
      rw [Store.currentAt, hfound]
      exact (ListFilter.selects_iff hset hfound).mp hsel
    · rintro ⟨set, hset, hsel⟩
      obtain ⟨s, hfound, -⟩ := Option.map_eq_some_iff.mp hset
      obtain ⟨hs, rfl⟩ := Store.secretByPath_eq_some_iff.mp hfound
      rw [Store.currentAt, hfound] at hsel
      obtain ⟨x, hsum⟩ := summary_isOk h hs
      exact ⟨x, (hmem x).mpr ⟨s, hs, (ListFilter.selects_iff hset hfound).mpr hsel, hsum⟩,
        summary_path hsum⟩

/--
Over every run `tags`, `all_distinct_tags` and `list` answer from the map that
the operations of the run build up; `list` fails on a filter with more tags than
SQLite can prepare a query for.
-/
theorem tags_and_listings_of_map
    (ops : List StoreOp) :
    let st := run StoreOp.step Store.empty ops
    let m := tagMapOf ops
    (∀ path, m path = none → tags st path = .error .notFound) ∧
    (∀ path set, m path = some set →
      ∃ listed, tags st path = .ok listed ∧ TagsInOrder listed ∧
        ∀ t, t ∈ listed ↔ t ∈ set) ∧
    (∀ (op : StoreOp) path, op.path? ≠ some path → tags (op.step st) path = tags st path) ∧
    (TagsInOrder (allDistinctTags st) ∧
      ∀ t, t ∈ allDistinctTags st ↔ ∃ path set, m path = some set ∧ t ∈ set) ∧
    ∀ filter : ListFilter,
      (filter.tags.length ≤ filter.mostTags → ∃ listed, list st filter = .ok listed ∧
        (listed.map SecretSummary.path).Nodup ∧
        listed.Pairwise (fun a b => utf8 a.path.asStr ≤ utf8 b.path.asStr) ∧
        (∀ x ∈ listed, tags st x.path = .ok x.tags) ∧
        ∀ path, path ∈ listed.map SecretSummary.path ↔
          ∃ set, m path = some set ∧ (∀ t ∈ filter.tags, t ∈ set) ∧
            (∀ p, filter.pathPrefix = some p → p ≠ "" →
              Continues (trimSlashes p.toList) path.asStr.toList) ∧
            (filter.includeEmpty = false → ∃ v, st.currentAt path = some v)) ∧
      (filter.mostTags < filter.tags.length → list st filter = .error (.sqlite .failure)) := by
  intro st m
  have hm : m = st.tagMap := (tagMap_run ops).symm
  rw [hm]
  refine ⟨fun _ => tags_of_none, fun _ _ => tags_of_some, ?_, ?_, ?_⟩
  · intro op path hpath
    refine tags_congr ?_
    rw [tagMap_step]
    split
    · exact op.onTags_frame hpath st.tagMap
    · rfl
  · exact ⟨tagsInOrder_mergeSort st.tagValues,
      fun _ => mem_allDistinctTags (reachable_noOrphan ops)⟩
  · exact fun filter =>
      ⟨fun hfew => list_of_tagMap (reachable_dated ops) hfew, list_of_not_prepares st⟩

/-- An empty prefix lists a secret that neither is the empty text nor continues it. -/
theorem empty_prefix_lists_everything :
    ∃ listed, list (run StoreOp.step Store.empty [versionWrite 1]) ⟨some "", [], false⟩ =
        .ok listed ∧
      samplePath ∈ listed.map SecretSummary.path ∧
      ¬ Continues (trimSlashes "".toList) samplePath.asStr.toList := by
  obtain ⟨listed, hlisted, -, -, -, hmem⟩ :=
    list_of_tagMap (reachable_dated [versionWrite 1])
      (ListFilter.length_le_of_untagged (some "") false)
  refine ⟨listed, hlisted, ?_, not_continues_nil samplePath⟩
  have hpresent : (run StoreOp.step Store.empty [versionWrite 1]).Present samplePath := by
    refine Store.present_iff.mpr (Option.isSome_iff_exists.mp ?_)
    decide +kernel
  obtain ⟨set, hset⟩ := Option.isSome_iff_exists.mp (Store.isSome_tagMap.mpr hpresent)
  refine (hmem samplePath).mpr ⟨set, hset, by simp, ?_, ?_⟩
  · rintro p ⟨⟩ hne
    exact absurd rfl hne
  · intro _
    exact ⟨firstVersion, by decide +kernel⟩

end Answers

end Storage
end Secretbae
