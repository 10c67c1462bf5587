import Secretbae.Store.Frames
import Secretbae.Store.Views

/-!
# Operations on another path

An operation that names a path reads and changes the secret of that path only:
the two stores agree at every other path (`Store.AgreeAt`), that is, on the row
of the secret there, on its versions and on its tags.
-/

namespace Secretbae
namespace Storage

open Lib Proto Core

section Elsewhere

variable {st st' : Store} {path q : SecretPath}

theorem Store.AgreeAt.refl
    (st : Store) (q : SecretPath) :
    st.AgreeAt st q :=
  ⟨rfl, fun _ _ _ _ => Iff.rfl, fun _ => Iff.rfl⟩

theorem Store.AgreeAt.trans
    {st'' : Store}
    (h : st.AgreeAt st' q)
    (h' : st'.AgreeAt st'' q) :
    st.AgreeAt st'' q where
  secret := h'.secret.trans h.secret
  versions := by
    intro s hs r hr
    exact (h'.versions s (h.secret.trans hs) r hr).trans (h.versions s hs r hr)
  tags := fun t => (h'.tags t).trans (h.tags t)

/-- Two paths have secrets with different ids. -/
theorem Store.id_ne_of_path_ne
    {s s' : SecretRow}
    (hs : st.secretByPath path = some s)
    (hs' : st.secretByPath q = some s')
    (hq : q ≠ path) :
    s'.id ≠ s.id := by
  obtain ⟨hmem, hpath⟩ := Store.secretByPath_eq_some_iff.mp hs
  obtain ⟨hmem', hpath'⟩ := Store.secretByPath_eq_some_iff.mp hs'
  intro hid
  have hsame := st.secrets.eq_of_key_eq hmem' hmem hid
  exact hq (by rw [← hpath', hsame, hpath])

/-- A statement that leaves the row at a path alone. -/
theorem Store.updateSecrets_elsewhere
    {f : SecretRow → SecretRow} {hid : ∀ s, (f s).id = s.id}
    {hpath : ∀ s, (f s).path = s.path}
    (hf : ∀ s, st.secretByPath q = some s → f s = s) :
    (st.updateSecrets f hid hpath).secretByPath q = st.secretByPath q := by
  rw [Store.secretByPath_updateSecrets]
  cases hs : st.secretByPath q with
  | none => rfl
  | some s => exact congrArg some (hf s hs)

/-- Pointing one secret at a version leaves the rows at other paths alone. -/
theorem Store.pointCurrent_elsewhere
    {s : SecretRow}
    (hs : st.secretByPath path = some s)
    (hq : q ≠ path) (current : Option Version) (at_ : Int64) :
    (st.pointCurrent s.id current at_).secretByPath q = st.secretByPath q :=
  Store.updateSecrets_elsewhere fun _ hs' => if_neg (Store.id_ne_of_path_ne hs hs' hq)

theorem Store.touch_elsewhere
    (hq : q ≠ path) (now : UnixTime) :
    (st.touch path now).secretByPath q = st.secretByPath q := by
  refine Store.updateSecrets_elsewhere ?_
  intro s hs
  have hpath := (Store.secretByPath_eq_some_iff.mp hs).2
  exact if_neg (by rw [hpath]; exact hq)

/-- The tags at a path depend on its secret and on the two tag tables. -/
theorem Store.carries_of_tables
    (hsecret : st'.secretByPath q = st.secretByPath q)
    (htables : st.SameTagTables st') (t : Tag) :
    st'.Carries q t ↔ st.Carries q t := by
  unfold Store.Carries
  rw [hsecret]
  simp only [Store.tagsOf_congr htables.1 htables.2]

theorem agreeAt_rollback
    {target : Version} {now : UnixTime}
    (h : rollback st path target now = .ok st')
    (hq : q ≠ path) :
    st.AgreeAt st' q := by
  obtain ⟨s, r, hs, -, -, -, rfl⟩ := rollback_eq_ok h
  have hsecret := Store.pointCurrent_elsewhere hs hq (some target) now.seconds
  exact ⟨hsecret, fun _ _ _ _ => Iff.rfl, Store.carries_of_tables hsecret ⟨rfl, rfl⟩⟩

theorem agreeAt_deleteVersion
    {selector : VersionSelector} {mode : DeleteMode} {now : UnixTime} {v : Version}
    (h : deleteVersion st path selector mode now = .ok (st', v))
    (hq : q ≠ path) :
    st.AgreeAt st' q := by
  obtain ⟨s, hs, rfl⟩ := deleteVersion_eq_ok h
  have hremoved : (removeVersion st (s.id, v) mode).secretByPath path = some s := hs
  have hsecret := Store.pointCurrent_elsewhere hremoved hq
    ((removeVersion st (s.id, v) mode).maxActive s.id) now.seconds
  refine ⟨hsecret, ?_, Store.carries_of_tables hsecret ⟨rfl, rfl⟩⟩
  intro s' hs' r hr
  refine mem_removeVersion_of_ne ?_
  rw [hr]
  exact Store.id_ne_of_path_ne hs hs' hq

theorem agreeAt_addTags
    {tags : List Tag} {now : UnixTime}
    (h : addTags st path tags now = .ok st')
    (hq : q ≠ path) :
    st.AgreeAt st' q := by
  have hcarries := addTags_carries h q
  obtain ⟨id, -, h⟩ := bind_eq_ok.mp h
  obtain ⟨mid, hmid, h⟩ := bind_eq_ok.mp h
  cases h
  obtain ⟨hsecrets, hversions, -⟩ := attachAll_frame hmid
  refine ⟨?_, ?_, ?_⟩
  · rw [Store.touch_elsewhere hq, Store.secretByPath, hsecrets]
    rfl
  · intro _ _ r _
    change r ∈ mid.versions.rows ↔ _
    rw [hversions]
  · intro t
    rw [hcarries t]
    simp [hq]

theorem agreeAt_removeTags
    {selectors : List TagSelector} {now : UnixTime}
    (h : removeTags st path selectors now = .ok st')
    (hq : q ≠ path) :
    st.AgreeAt st' q := by
  have hcarries := removeTags_carries h q
  obtain ⟨id, -, h⟩ := bind_eq_ok.mp h
  cases h
  obtain ⟨hsecrets, hversions, -⟩ := detachAll_frame st id selectors
  refine ⟨?_, ?_, ?_⟩
  · rw [Store.touch_elsewhere hq]
    change (detachAll st id selectors).secretByPath q = _
    rw [Store.secretByPath, hsecrets]
    rfl
  · intro _ _ r _
    change r ∈ (detachAll st id selectors).versions.rows ↔ _
    rw [hversions]
  · intro t
    rw [hcarries t]
    simp [hq]

/-- The secret that a write is about, as its transaction sees it. -/
theorem beginWrite_secret
    {freshId : Uuid} {began : UnixTime} {slot : WriteSlot}
    (h : beginWrite st path freshId began = .ok slot) :
    (∃ s, slot.tx.secretByPath path = some s ∧ s.id = slot.secretId) ∧
      ∀ q, q ≠ path → slot.tx.secretByPath q = st.secretByPath q := by
  obtain ⟨-, -, ⟨s, hs, htx, hid, -⟩ | ⟨-, hid, -, hrows⟩⟩ := beginWrite_eq_ok h
  · rw [htx]
    exact ⟨⟨s, hs, hid.symm⟩, fun _ _ => rfl⟩
  · refine ⟨⟨newSecret path freshId began, ?_, hid.symm⟩, ?_⟩
    · refine Store.secretByPath_eq_some_iff.mpr ⟨?_, rfl⟩
      rw [hrows]
      exact List.mem_append_right _ (List.mem_singleton_self _)
    · intro q hq
      refine Option.ext fun s => ?_
      rw [Store.secretByPath_eq_some_iff, Store.secretByPath_eq_some_iff, hrows,
        List.mem_append, List.mem_singleton]
      constructor
      · rintro ⟨hs | rfl, hpath⟩
        · exact ⟨hs, hpath⟩
        · exact absurd hpath.symm hq
      · rintro ⟨hs, hpath⟩
        exact ⟨.inl hs, hpath⟩

theorem agreeAt_write
    {P : Primitives} {vault vault' : Vault} {freshId : Uuid} {began now : UnixTime}
    {draws : SealDraws} {plaintext : Bytes} {info : WriteMeta} {v : Version}
    (h : vault.write P path freshId began draws plaintext info now = .ok (vault', v))
    (hq : q ≠ path) :
    vault.store.AgreeAt vault'.store q := by
  obtain ⟨slot, sealed, hbegin, -, hcommit, -, -⟩ := Vault.write_eq_ok h
  obtain ⟨htags, hlinks⟩ := beginWrite_tagTables hbegin
  obtain ⟨htags', hlinks'⟩ := commit_tagTables hcommit
  obtain ⟨-, hversions, -⟩ := beginWrite_eq_ok hbegin
  obtain ⟨⟨s, hs, hid⟩, hother⟩ := beginWrite_secret hbegin
  obtain ⟨rfl, mid, hmid, hstore⟩ := WriteSlot.commit_eq_ok hcommit
  obtain ⟨-, hrows, hsecrets, -⟩ := Store.insertVersion_eq_ok hmid
  have hmidPath : ∀ p, mid.secretByPath p = slot.tx.secretByPath p := by
    intro p
    rw [Store.secretByPath, hsecrets]
    rfl
  have hsecret : vault'.store.secretByPath q = vault.store.secretByPath q := by
    rw [hstore, Store.secretByPath, prune_secrets, ← hid]
    exact (Store.pointCurrent_elsewhere ((hmidPath path).trans hs) hq _ _).trans
      ((hmidPath q).trans (hother q hq))
  refine ⟨hsecret, ?_, ?_⟩
  · intro s' hs' r hr
    have hne : r.secretId ≠ slot.secretId := by
      rw [hr, ← hid]
      exact Store.id_ne_of_path_ne hs ((hother q hq).trans hs') hq
    rw [hstore, mem_prune_of_ne hne]
    change r ∈ mid.versions.rows ↔ _
    rw [hrows, hversions, List.mem_append, List.mem_singleton]
    constructor
    · rintro (hmem | rfl)
      · exact hmem
      · exact absurd rfl hne
    · exact .inl
  · exact Store.carries_of_tables hsecret ⟨htags'.trans htags, hlinks'.trans hlinks⟩

end Elsewhere

end Storage
end Secretbae
