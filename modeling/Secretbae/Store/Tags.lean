import Secretbae.Store.Secrets

/-!
# Tag operations

Tags live in a table of their own and are attached through `secret_tags`.  No
tag operation touches a version; `addTags_frame` and `removeTags_frame` say
that of a secret only `updated_at` changes.
-/

namespace Secretbae
namespace Storage

open Lib Proto Core

/-- The row id SQLite gives to the next tag. -/
def Store.nextTagId (st : Store) : Nat :=
  (st.tags.rows.map TagRow.id).foldl max 0 + 1

/-- `INSERT INTO tags … ON CONFLICT DO NOTHING`. -/
def Store.insertTag (st : Store) (tag : Tag) : Except StoreError Store :=
  if htag : tag ∈ st.tags.rows.map TagRow.tag then .ok st
  else
    match hins : st.tags.insert ⟨st.nextTagId, tag⟩ with
    | none => .error (.sqlite .constraint)
    | some tags =>
        .ok
          { st with
            tags := tags
            tagValues := by
              rw [(Table.insert_eq_some hins).2]
              exact nodup_map_concat st.tagValues htag
            secretTagRefs := by
              intro r hr
              obtain ⟨hs, t, ht, hid⟩ := st.secretTagRefs r hr
              refine ⟨hs, t, ?_, hid⟩
              rw [(Table.insert_eq_some hins).2]
              exact List.mem_append_left _ ht }

/-- `INSERT INTO secret_tags SELECT … ON CONFLICT DO NOTHING`. -/
def Store.attachTag (st : Store) (id : Uuid) (tag : Tag) : Except StoreError Store :=
  match ht : st.tags.rows.find? (fun t => decide (t.tag = tag)) with
  | none => .ok st
  | some t =>
      match hins : st.secretTags.insert ⟨id, t.id⟩ with
      | none => .ok st
      | some secretTags =>
          if hs : ∃ s ∈ st.secrets.rows, s.id = id then
            .ok
              { st with
                secretTags := secretTags
                secretTagRefs := by
                  intro r hr
                  rw [(Table.insert_eq_some hins).2] at hr
                  rcases List.mem_append.mp hr with hr | hr
                  · exact st.secretTagRefs r hr
                  · obtain rfl := List.mem_singleton.mp hr
                    exact ⟨hs, t, List.mem_of_find?_eq_some ht, rfl⟩ }
          else .error (.sqlite .constraint)

/-- `Store::touch`. -/
def Store.touch (st : Store) (path : SecretPath) (now : UnixTime) : Store :=
  st.updateSecrets
    (fun s => if s.path = path then { s with updatedAt := now.seconds } else s)
    (by intro s; split <;> rfl)
    (by intro s; split <;> rfl)

/-- The loop of `add_tags`. -/
def attachAll (st : Store) (id : Uuid) : List Tag → Except StoreError Store
  | [] => .ok st
  | tag :: tags => do
      let st ← st.insertTag tag
      let st ← st.attachTag id tag
      attachAll st id tags

/-- `Store::add_tags`. -/
def addTags (st : Store) (path : SecretPath) (tags : List Tag) (now : UnixTime) :
    Except StoreError Store := do
  let id ← secretId st path
  let st ← attachAll st id tags
  .ok (st.touch path now)

/-- `DELETE FROM secret_tags WHERE …` for one selector. -/
def Store.detach (st : Store) (id : Uuid) (selector : TagSelector) : Store :=
  { st with
    secretTags :=
      st.secretTags.keep (fun r =>
        !(decide (r.secretId = id) &&
          st.tags.rows.any (fun t => decide (t.id = r.tagId) && selector.matches t.tag)))
    secretTagRefs := by
      intro r hr
      exact st.secretTagRefs r (Table.mem_keep.mp hr).1 }

/-- `DELETE FROM tags WHERE id NOT IN (SELECT tag_id FROM secret_tags)`. -/
def Store.dropUnusedTags (st : Store) : Store :=
  { st with
    tags := st.tags.keep (fun t => st.secretTags.rows.any (fun r => decide (r.tagId = t.id)))
    tagValues := st.tagValues.sublist (List.filter_sublist.map TagRow.tag)
    secretTagRefs := by
      intro r hr
      obtain ⟨hs, t, ht, hid⟩ := st.secretTagRefs r hr
      refine ⟨hs, t, Table.mem_keep.mpr ⟨ht, ?_⟩, hid⟩
      exact List.any_eq_true.mpr ⟨r, hr, by simpa using hid.symm⟩ }

/-- The loop of `remove_tags`. -/
def detachAll (st : Store) (id : Uuid) (selectors : List TagSelector) : Store :=
  selectors.foldl (fun st selector => st.detach id selector) st

/-- `Store::remove_tags`. -/
def removeTags (st : Store) (path : SecretPath) (selectors : List TagSelector)
    (now : UnixTime) : Except StoreError Store := do
  let id ← secretId st path
  .ok ((detachAll st id selectors).dropUnusedTags.touch path now)

/-- The order of `ORDER BY key, value`. -/
def tagLe (a b : Tag) : Bool :=
  decide (utf8 a.key < utf8 b.key ∨ (a.key = b.key ∧ utf8 a.value ≤ utf8 b.value))

/-- `Store::tags`. -/
def tags (st : Store) (path : SecretPath) : Except StoreError (List Tag) := do
  let id ← secretId st path
  let attached := st.tags.rows.filter (fun t =>
    st.secretTags.rows.any (fun r => decide (r.secretId = id ∧ r.tagId = t.id)))
  .ok ((attached.map TagRow.tag).mergeSort tagLe)

/-- `Store::all_distinct_tags`. -/
def allDistinctTags (st : Store) : List Tag :=
  (st.tags.rows.map TagRow.tag).mergeSort tagLe

section Frame

/-- Only tag tables differ. -/
def Store.SameSecrets (st st' : Store) : Prop :=
  st'.secrets = st.secrets ∧ st'.versions = st.versions ∧
    st'.sealedMasterKey = st.sealedMasterKey

theorem Store.insertTag_frame
    {st st' : Store} {tag : Tag}
    (h : st.insertTag tag = .ok st') :
    st.SameSecrets st' := by
  unfold Store.insertTag at h
  split at h
  · cases h
    exact ⟨rfl, rfl, rfl⟩
  · split at h
    · cases h
    · cases h
      exact ⟨rfl, rfl, rfl⟩

theorem Store.attachTag_frame
    {st st' : Store} {id : Uuid} {tag : Tag}
    (h : st.attachTag id tag = .ok st') :
    st.SameSecrets st' := by
  unfold Store.attachTag at h
  split at h
  · cases h
    exact ⟨rfl, rfl, rfl⟩
  split at h
  · cases h
    exact ⟨rfl, rfl, rfl⟩
  split at h
  · cases h
    exact ⟨rfl, rfl, rfl⟩
  · cases h

theorem attachAll_frame
    {st st' : Store} {id : Uuid} {tags : List Tag}
    (h : attachAll st id tags = .ok st') :
    st.SameSecrets st' := by
  induction tags generalizing st with
  | nil =>
      cases h
      exact ⟨rfl, rfl, rfl⟩
  | cons tag tags ih =>
      obtain ⟨st₁, h₁, h⟩ := bind_eq_ok.mp h
      obtain ⟨st₂, h₂, h⟩ := bind_eq_ok.mp h
      obtain ⟨hs₁, hv₁, hk₁⟩ := Store.insertTag_frame h₁
      obtain ⟨hs₂, hv₂, hk₂⟩ := Store.attachTag_frame h₂
      obtain ⟨hs₃, hv₃, hk₃⟩ := ih h
      exact ⟨hs₃.trans (hs₂.trans hs₁), hv₃.trans (hv₂.trans hv₁),
        hk₃.trans (hk₂.trans hk₁)⟩

theorem detachAll_frame
    (st : Store) (id : Uuid) (selectors : List TagSelector) :
    st.SameSecrets (detachAll st id selectors) := by
  induction selectors generalizing st with
  | nil =>
      exact ⟨rfl, rfl, rfl⟩
  | cons selector selectors ih =>
      exact ih (st.detach id selector)

/-- The secrets of `st'` are those of `st` with other `updated_at`s. -/
def Store.Touched (st st' : Store) : Prop :=
  ∃ f : SecretRow → SecretRow,
    (∀ s, (f s).id = s.id ∧ (f s).path = s.path ∧
      (f s).currentVersion = s.currentVersion ∧ (f s).maxVersions = s.maxVersions) ∧
    st'.secrets.rows = st.secrets.rows.map f ∧ st'.versions = st.versions ∧
    st'.sealedMasterKey = st.sealedMasterKey

theorem Store.SameSecrets.touch
    {st st' : Store}
    (h : st.SameSecrets st') (path : SecretPath) (now : UnixTime) :
    st.Touched (st'.touch path now) := by
  obtain ⟨hs, hv, hk⟩ := h
  refine ⟨fun s => if s.path = path then { s with updatedAt := now.seconds } else s,
    ?_, ?_, hv, hk⟩
  · intro s
    dsimp only
    split <;> exact ⟨rfl, rfl, rfl, rfl⟩
  · rw [← hs]
    rfl

theorem addTags_frame
    {st st' : Store} {path : SecretPath} {tags : List Tag} {now : UnixTime}
    (h : addTags st path tags now = .ok st') :
    st.Touched st' := by
  obtain ⟨id, -, h⟩ := bind_eq_ok.mp h
  obtain ⟨mid, hmid, h⟩ := bind_eq_ok.mp h
  cases h
  exact (attachAll_frame hmid).touch path now

theorem removeTags_frame
    {st st' : Store} {path : SecretPath} {selectors : List TagSelector} {now : UnixTime}
    (h : removeTags st path selectors now = .ok st') :
    st.Touched st' := by
  obtain ⟨id, -, h⟩ := bind_eq_ok.mp h
  cases h
  obtain ⟨hs, hv, hk⟩ := detachAll_frame st id selectors
  have hsame : st.SameSecrets (detachAll st id selectors).dropUnusedTags :=
    ⟨hs, hv, hk⟩
  exact hsame.touch path now

end Frame

end Storage
end Secretbae
