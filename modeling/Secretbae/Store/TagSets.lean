import Secretbae.Store.Listing
import Secretbae.Store.Maintenance

/-!
# Tags as sets

Which tags a secret carries after each operation, as a set: `add_tags` is a
union, `remove_tags` takes away what its selectors match, and no other
operation changes the tags of a secret that is there.  `add_tags` cannot fail
once the secret exists, which is why an import that reaches it is complete.
-/

namespace Secretbae
namespace Storage

open Lib Proto Core

/-- The secret at `path` is there and carries `tag`. -/
def Store.Carries (st : Store) (path : SecretPath) (tag : Tag) : Prop :=
  ∃ s, st.secretByPath path = some s ∧ tag ∈ st.tagsOf s.id

section Rows

/-- The tags of a secret depend on the two tag tables only. -/
theorem Store.tagsOf_congr
    {st st' : Store}
    (htags : st'.tags = st.tags)
    (hlinks : st'.secretTags = st.secretTags) (id : Uuid) :
    st'.tagsOf id = st.tagsOf id := by
  unfold Store.tagsOf
  rw [htags, hlinks]

/-- `INSERT INTO tags`: the tag is there, and no secret carries another tag than before. -/
theorem Store.insertTag_spec
    {st st' : Store} {tag : Tag}
    (h : st.insertTag tag = .ok st') :
    (∃ t ∈ st'.tags.rows, t.tag = tag) ∧ st'.secrets = st.secrets ∧
      ∀ id t, t ∈ st'.tagsOf id ↔ t ∈ st.tagsOf id := by
  unfold Store.insertTag at h
  split at h
  · rename_i hmem
    cases h
    obtain ⟨t, ht, htag⟩ := List.mem_map.mp hmem
    exact ⟨⟨t, ht, htag⟩, rfl, fun _ _ => Iff.rfl⟩
  · split at h
    · cases h
    · rename_i tags hins
      cases h
      obtain ⟨hfresh, hrows⟩ := Table.insert_eq_some hins
      refine ⟨⟨_, by rw [hrows]; exact List.mem_append_right _ (List.mem_singleton_self _), rfl⟩,
        rfl, ?_⟩
      intro id t
      rw [Store.mem_tagsOf, Store.mem_tagsOf]
      constructor
      · rintro ⟨row, hrow, htag, r, hr, hid, hlink⟩
        rw [hrows] at hrow
        rcases List.mem_append.mp hrow with hrow | hrow
        · exact ⟨row, hrow, htag, r, hr, hid, hlink⟩
        · -- no link names the new row
          obtain rfl := List.mem_singleton.mp hrow
          obtain ⟨-, t', ht', hid'⟩ := st.secretTagRefs r hr
          exact absurd (hid'.trans hlink) (hfresh t' ht')
      · rintro ⟨row, hrow, htag, r, hr, hid, hlink⟩
        refine ⟨row, ?_, htag, r, hr, hid, hlink⟩
        rw [hrows]
        exact List.mem_append_left _ hrow

theorem Store.insertTag_isOk
    (st : Store) (tag : Tag) :
    ∃ st', st.insertTag tag = .ok st' := by
  have hfresh : ∀ t ∈ st.tags.rows, t.id ≠ (⟨st.nextTagId, tag⟩ : TagRow).id := by
    intro t ht hid
    have hle := (le_foldl_max (st.tags.rows.map TagRow.id) 0).2 t.id
      (List.mem_map.mpr ⟨t, ht, rfl⟩)
    simp only [Store.nextTagId] at hid
    omega
  obtain ⟨tags, hins⟩ := Table.insert_ne_none hfresh
  unfold Store.insertTag
  split
  · exact ⟨_, rfl⟩
  · split
    · rename_i hnone
      rw [hins] at hnone
      cases hnone
    · exact ⟨_, rfl⟩

/-- `INSERT INTO secret_tags`, of a tag that is there. -/
theorem Store.attachTag_spec
    {st st' : Store} {id : Uuid} {tag : Tag}
    (hmem : ∃ t ∈ st.tags.rows, t.tag = tag)
    (h : st.attachTag id tag = .ok st') :
    st'.secrets = st.secrets ∧
      ∀ id' t, t ∈ st'.tagsOf id' ↔ t ∈ st.tagsOf id' ∨ (id' = id ∧ t = tag) := by
  unfold Store.attachTag at h
  split at h
  · rename_i hnone
    obtain ⟨t, ht, htag⟩ := hmem
    have := List.find?_eq_none.mp hnone t ht
    simp [htag] at this
  rename_i row hfind
  have hrow := List.mem_of_find?_eq_some hfind
  have htag : row.tag = tag := by simpa using List.find?_some hfind
  split at h
  · rename_i hnone
    cases h
    -- the link is already there
    have hlink : (⟨id, row.id⟩ : SecretTagRow) ∈ st.secretTags.rows := by
      by_contra hfree
      obtain ⟨t', hins⟩ := Table.insert_ne_none (t := st.secretTags) (a := ⟨id, row.id⟩)
        (by
          rintro b hb (rfl : b = _)
          exact hfree hb)
      rw [hins] at hnone
      cases hnone
    refine ⟨rfl, ?_⟩
    intro id' t
    constructor
    · exact .inl
    · rintro (ht | ⟨rfl, rfl⟩)
      · exact ht
      · exact Store.mem_tagsOf.mpr ⟨row, hrow, htag, _, hlink, rfl, rfl⟩
  rename_i links hins
  split at h
  · cases h
    obtain ⟨-, hrows⟩ := Table.insert_eq_some hins
    refine ⟨rfl, ?_⟩
    intro id' t
    rw [Store.mem_tagsOf, Store.mem_tagsOf]
    constructor
    · rintro ⟨row', hrow', htag', r, hr, hid, hlink⟩
      rw [hrows] at hr
      rcases List.mem_append.mp hr with hr | hr
      · exact .inl ⟨row', hrow', htag', r, hr, hid, hlink⟩
      · obtain rfl := List.mem_singleton.mp hr
        have hsame := st.tags.eq_of_key_eq hrow hrow' hlink
        refine .inr ⟨hid.symm, ?_⟩
        rw [← htag', ← hsame, htag]
    · rintro (⟨row', hrow', htag', r, hr, hid, hlink⟩ | ⟨rfl, rfl⟩)
      · refine ⟨row', hrow', htag', r, ?_, hid, hlink⟩
        rw [hrows]
        exact List.mem_append_left _ hr
      · refine ⟨row, hrow, htag, ⟨id', row.id⟩, ?_, rfl, rfl⟩
        rw [hrows]
        exact List.mem_append_right _ (List.mem_singleton_self _)
  · cases h

/-- The rows and links that the two statements of the loop leave. -/
theorem Store.insertTag_rows
    {st st' : Store} {tag : Tag}
    (h : st.insertTag tag = .ok st') (t : TagRow)
    (ht : t ∈ st'.tags.rows) :
    t.tag = tag ∨ t ∈ st.tags.rows := by
  unfold Store.insertTag at h
  split at h
  · cases h
    exact .inr ht
  split at h
  · cases h
  rename_i tags hins
  cases h
  rw [(Table.insert_eq_some hins).2, List.mem_append, List.mem_singleton] at ht
  rcases ht with ht | rfl
  · exact .inr ht
  · exact .inl rfl

theorem Store.insertTag_links
    {st st' : Store} {tag : Tag}
    (h : st.insertTag tag = .ok st') :
    st'.secretTags = st.secretTags := by
  unfold Store.insertTag at h
  split at h
  · cases h
    rfl
  split at h
  · cases h
  · cases h
    rfl

theorem Store.attachTag_tables
    {st st' : Store} {id : Uuid} {tag : Tag}
    (h : st.attachTag id tag = .ok st') :
    st'.tags = st.tags ∧ ∀ r ∈ st.secretTags.rows, r ∈ st'.secretTags.rows := by
  unfold Store.attachTag at h
  split at h
  · cases h
    exact ⟨rfl, fun _ hr => hr⟩
  split at h
  · cases h
    exact ⟨rfl, fun _ hr => hr⟩
  rename_i links hins
  split at h
  · cases h
    refine ⟨rfl, ?_⟩
    intro r hr
    rw [(Table.insert_eq_some hins).2]
    exact List.mem_append_left _ hr
  · cases h

theorem Store.attachTag_isOk
    {st : Store} {id : Uuid}
    (hs : ∃ s ∈ st.secrets.rows, s.id = id) (tag : Tag) :
    ∃ st', st.attachTag id tag = .ok st' := by
  unfold Store.attachTag
  split
  · exact ⟨_, rfl⟩
  split
  · exact ⟨_, rfl⟩
  · rw [dif_pos hs]
    exact ⟨_, rfl⟩

end Rows

section Loops

/-- The loop of `add_tags` is a union. -/
theorem attachAll_spec
    {st st' : Store} {id : Uuid} {tags : List Tag}
    (h : attachAll st id tags = .ok st') :
    st'.secrets = st.secrets ∧
      ∀ id' t, t ∈ st'.tagsOf id' ↔ t ∈ st.tagsOf id' ∨ (id' = id ∧ t ∈ tags) := by
  induction tags generalizing st with
  | nil =>
      cases h
      exact ⟨rfl, fun _ _ => by simp⟩
  | cons tag tags ih =>
      obtain ⟨st₁, h₁, h⟩ := bind_eq_ok.mp h
      obtain ⟨st₂, h₂, h⟩ := bind_eq_ok.mp h
      obtain ⟨hmem, hs₁, ht₁⟩ := Store.insertTag_spec h₁
      obtain ⟨hs₂, ht₂⟩ := Store.attachTag_spec hmem h₂
      obtain ⟨hs₃, ht₃⟩ := ih h
      refine ⟨hs₃.trans (hs₂.trans hs₁), ?_⟩
      intro id' t
      rw [ht₃, ht₂, ht₁, List.mem_cons]
      tauto

theorem attachAll_isOk
    {st : Store} {id : Uuid}
    (hs : ∃ s ∈ st.secrets.rows, s.id = id) (tags : List Tag) :
    ∃ st', attachAll st id tags = .ok st' := by
  induction tags generalizing st with
  | nil =>
      exact ⟨st, rfl⟩
  | cons tag tags ih =>
      obtain ⟨st₁, h₁⟩ := st.insertTag_isOk tag
      have hs₁ : ∃ s ∈ st₁.secrets.rows, s.id = id := by
        rw [(Store.insertTag_spec h₁).2.1]
        exact hs
      obtain ⟨st₂, h₂⟩ := Store.attachTag_isOk hs₁ tag
      have hs₂ : ∃ s ∈ st₂.secrets.rows, s.id = id := by
        rw [(Store.attachTag_frame h₂).1]
        exact hs₁
      obtain ⟨st₃, h₃⟩ := ih hs₂
      exact ⟨st₃, bind_eq_ok.mpr ⟨st₁, h₁, bind_eq_ok.mpr ⟨st₂, h₂, h₃⟩⟩⟩

theorem Store.mem_tagsOf_detach
    {st : Store} {id id' : Uuid} {selector : TagSelector} {t : Tag} :
    t ∈ (st.detach id selector).tagsOf id' ↔
      t ∈ st.tagsOf id' ∧ ¬ (id' = id ∧ selector.matches t = true) := by
  rw [Store.mem_tagsOf, Store.mem_tagsOf]
  simp only [Store.detach, Table.mem_keep, Bool.not_eq_true', Bool.and_eq_false_iff,
    decide_eq_false_iff_not, List.any_eq_false, Bool.and_eq_true, decide_eq_true_eq, not_and]
  constructor
  · rintro ⟨row, hrow, rfl, r, ⟨hr, hkeep⟩, rfl, hlink⟩
    refine ⟨⟨row, hrow, rfl, r, hr, rfl, hlink⟩, ?_⟩
    rintro hid hmatch
    rcases hkeep with hne | hnone
    · exact hne hid
    · exact hnone row hrow hlink.symm hmatch
  · rintro ⟨⟨row, hrow, rfl, r, hr, rfl, hlink⟩, hnot⟩
    refine ⟨row, hrow, rfl, r, ⟨hr, ?_⟩, rfl, hlink⟩
    by_cases hid : r.secretId = id
    · refine .inr ?_
      intro row' hrow' hid' hmatch
      have hsame := st.tags.eq_of_key_eq hrow' hrow (hid'.trans hlink)
      exact hnot hid (hsame ▸ hmatch)
    · exact .inl hid

theorem mem_tagsOf_detachAll
    {st : Store} {id id' : Uuid} {selectors : List TagSelector} {t : Tag} :
    t ∈ (detachAll st id selectors).tagsOf id' ↔
      t ∈ st.tagsOf id' ∧ ¬ (id' = id ∧ ∃ s ∈ selectors, s.matches t = true) := by
  induction selectors generalizing st with
  | nil =>
      simp [detachAll]
  | cons selector selectors ih =>
      have hstep : detachAll st id (selector :: selectors) =
          detachAll (st.detach id selector) id selectors := rfl
      rw [hstep, ih, Store.mem_tagsOf_detach]
      simp only [List.mem_cons, exists_eq_or_imp]
      constructor
      · rintro ⟨⟨ht, hhead⟩, htail⟩
        refine ⟨ht, ?_⟩
        rintro ⟨hid, hmatch | hmatch⟩
        · exact hhead ⟨hid, hmatch⟩
        · exact htail ⟨hid, hmatch⟩
      · rintro ⟨ht, hnot⟩
        refine ⟨⟨ht, ?_⟩, ?_⟩
        · rintro ⟨hid, hmatch⟩
          exact hnot ⟨hid, .inl hmatch⟩
        · rintro ⟨hid, hmatch⟩
          exact hnot ⟨hid, .inr hmatch⟩

/-- Dropping unused tags takes none from a secret. -/
theorem Store.mem_tagsOf_dropUnusedTags
    {st : Store} {id : Uuid} {t : Tag} :
    t ∈ st.dropUnusedTags.tagsOf id ↔ t ∈ st.tagsOf id := by
  rw [Store.mem_tagsOf, Store.mem_tagsOf]
  simp only [Store.dropUnusedTags, Table.mem_keep, List.any_eq_true, decide_eq_true_eq]
  constructor
  · rintro ⟨row, ⟨hrow, -⟩, htag, hlink⟩
    exact ⟨row, hrow, htag, hlink⟩
  · rintro ⟨row, hrow, htag, r, hr, hid, hlink⟩
    exact ⟨row, ⟨hrow, r, hr, hlink⟩, htag, r, hr, hid, hlink⟩

end Loops

section Paths

/-- Updating other columns of secrets does not move them. -/
theorem Store.secretByPath_updateSecrets
    {st : Store} {f : SecretRow → SecretRow} {hid : ∀ s, (f s).id = s.id}
    {hpath : ∀ s, (f s).path = s.path} (path : SecretPath) :
    (st.updateSecrets f hid hpath).secretByPath path = (st.secretByPath path).map f := by
  simp only [Store.secretByPath, Store.updateSecrets, Table.update]
  rw [List.find?_map]
  simp [hpath]

theorem Store.secretByPath_congr
    {st st' : Store}
    (h : st'.secrets = st.secrets) (path : SecretPath) :
    st'.secretByPath path = st.secretByPath path := by
  unfold Store.secretByPath
  rw [h]

/-- Operations that keep ids, paths and the two tag tables keep what is carried. -/
theorem Store.carries_congr
    {st st' : Store}
    (hsecrets : ∀ path, (st'.secretByPath path).map SecretRow.id =
      (st.secretByPath path).map SecretRow.id)
    (htags : ∀ id t, t ∈ st'.tagsOf id ↔ t ∈ st.tagsOf id)
    (path : SecretPath) (tag : Tag) :
    st'.Carries path tag ↔ st.Carries path tag := by
  have hid := hsecrets path
  unfold Store.Carries
  cases h : st.secretByPath path with
  | none =>
      rw [h, Option.map_none, Option.map_eq_none_iff] at hid
      simp [hid]
  | some s =>
      rw [h, Option.map_some, Option.map_eq_some_iff] at hid
      obtain ⟨s', hs', hid⟩ := hid
      simp [hs', hid, htags]

theorem Store.secretByPath_touch
    (st : Store) (path q : SecretPath) (now : UnixTime) :
    ((st.touch path now).secretByPath q).map SecretRow.id =
      (st.secretByPath q).map SecretRow.id := by
  unfold Store.touch
  rw [Store.secretByPath_updateSecrets, Option.map_map]
  congr 1
  funext s
  dsimp only [Function.comp]
  split <;> rfl

@[simp] theorem Store.tagsOf_touch
    (st : Store) (path : SecretPath) (now : UnixTime) (id : Uuid) :
    (st.touch path now).tagsOf id = st.tagsOf id := by
  rfl

theorem secretId_eq_ok
    {st : Store} {path : SecretPath} {id : Uuid} :
    secretId st path = .ok id ↔ ∃ s, st.secretByPath path = some s ∧ s.id = id := by
  constructor
  · intro h
    obtain ⟨s, hs, h⟩ := bind_eq_ok.mp h
    cases h
    exact ⟨s, okOr_eq_ok.mp hs, rfl⟩
  · rintro ⟨s, hs, rfl⟩
    simp [secretId, hs, okOr, bind, Except.bind]

/-- One path has one id, and one id one path. -/
theorem Store.path_eq_of_id_eq
    {st : Store} {p q : SecretPath} {s t : SecretRow}
    (hs : st.secretByPath p = some s)
    (ht : st.secretByPath q = some t)
    (hid : s.id = t.id) :
    p = q := by
  obtain ⟨hsmem, hspath⟩ := Store.secretByPath_eq_some_iff.mp hs
  obtain ⟨htmem, htpath⟩ := Store.secretByPath_eq_some_iff.mp ht
  rw [← hspath, ← htpath, st.secrets.eq_of_key_eq hsmem htmem hid]

/-- A secret under a fresh id carries nothing yet. -/
theorem Store.carries_newSecret
    {st st' : Store} {row : SecretRow}
    (hrows : st'.secrets.rows = st.secrets.rows ++ [row])
    (hfresh : ∀ s ∈ st.secrets.rows, s.id ≠ row.id)
    (htags : st'.tags = st.tags)
    (hlinks : st'.secretTags = st.secretTags) (q : SecretPath) (t : Tag) :
    st'.Carries q t ↔ st.Carries q t := by
  unfold Store.Carries
  simp only [Store.tagsOf_congr htags hlinks, Store.secretByPath_eq_some_iff, hrows,
    List.mem_append, List.mem_singleton]
  constructor
  · rintro ⟨s, ⟨hs | rfl, hpath⟩, ht⟩
    · exact ⟨s, ⟨hs, hpath⟩, ht⟩
    · obtain ⟨-, -, -, r, hr, hid, -⟩ := Store.mem_tagsOf.mp ht
      obtain ⟨⟨s', hs', hid'⟩, -⟩ := st.secretTagRefs r hr
      exact absurd (hid'.trans hid) (hfresh s' hs')
  · rintro ⟨s, ⟨hs, hpath⟩, ht⟩
    exact ⟨s, ⟨.inl hs, hpath⟩, ht⟩

/-- `add_tags` is a union at its path. -/
theorem addTags_carries
    {st st' : Store} {path : SecretPath} {tags : List Tag} {now : UnixTime}
    (h : addTags st path tags now = .ok st') (q : SecretPath) (t : Tag) :
    st'.Carries q t ↔ st.Carries q t ∨ (q = path ∧ t ∈ tags) := by
  obtain ⟨id, hid, h⟩ := bind_eq_ok.mp h
  obtain ⟨mid, hmid, h⟩ := bind_eq_ok.mp h
  cases h
  obtain ⟨s, hs, rfl⟩ := secretId_eq_ok.mp hid
  obtain ⟨hsecrets, htags⟩ := attachAll_spec hmid
  have htouch := Store.carries_congr (mid.secretByPath_touch path · now)
    (fun _ _ => Iff.rfl) q t
  rw [htouch]
  unfold Store.Carries
  simp only [Store.secretByPath_congr hsecrets, htags]
  constructor
  · rintro ⟨s', hs', ht | ⟨hid', ht⟩⟩
    · exact .inl ⟨s', hs', ht⟩
    · exact .inr ⟨Store.path_eq_of_id_eq hs' hs hid', ht⟩
  · rintro (⟨s', hs', ht⟩ | ⟨rfl, ht⟩)
    · exact ⟨s', hs', .inl ht⟩
    · exact ⟨s, hs, .inr ⟨rfl, ht⟩⟩

/-- `add_tags` fails only where there is no secret. -/
theorem addTags_isOk
    {st : Store} {path : SecretPath} {s : SecretRow}
    (h : st.secretByPath path = some s) (tags : List Tag) (now : UnixTime) :
    ∃ st', addTags st path tags now = .ok st' := by
  have hmem := (Store.secretByPath_eq_some_iff.mp h).1
  obtain ⟨mid, hmid⟩ := attachAll_isOk ⟨s, hmem, rfl⟩ tags
  exact ⟨_, bind_eq_ok.mpr ⟨s.id, secretId_eq_ok.mpr ⟨s, h, rfl⟩,
    bind_eq_ok.mpr ⟨mid, hmid, rfl⟩⟩⟩

/-- `remove_tags` takes away what its selectors match, at its path. -/
theorem removeTags_carries
    {st st' : Store} {path : SecretPath} {selectors : List TagSelector} {now : UnixTime}
    (h : removeTags st path selectors now = .ok st') (q : SecretPath) (t : Tag) :
    st'.Carries q t ↔
      st.Carries q t ∧ ¬ (q = path ∧ ∃ s ∈ selectors, s.matches t = true) := by
  obtain ⟨id, hid, h⟩ := bind_eq_ok.mp h
  cases h
  obtain ⟨s, hs, rfl⟩ := secretId_eq_ok.mp hid
  obtain ⟨hsecrets, -, -⟩ := detachAll_frame st s.id selectors
  have htouch := Store.carries_congr
    ((detachAll st s.id selectors).dropUnusedTags.secretByPath_touch path · now)
    (fun _ _ => Iff.rfl) q t
  rw [htouch]
  have hpath : ∀ q, (detachAll st s.id selectors).dropUnusedTags.secretByPath q =
      st.secretByPath q := Store.secretByPath_congr hsecrets
  unfold Store.Carries
  simp only [hpath, Store.mem_tagsOf_dropUnusedTags, mem_tagsOf_detachAll]
  constructor
  · rintro ⟨s', hs', ht, hnot⟩
    refine ⟨⟨s', hs', ht⟩, ?_⟩
    rintro ⟨rfl, hmatch⟩
    rw [hs] at hs'
    cases hs'
    exact hnot ⟨rfl, hmatch⟩
  · rintro ⟨⟨s', hs', ht⟩, hnot⟩
    refine ⟨s', hs', ht, ?_⟩
    rintro ⟨hid', hmatch⟩
    exact hnot ⟨Store.path_eq_of_id_eq hs' hs hid', hmatch⟩

end Paths

end Storage
end Secretbae
