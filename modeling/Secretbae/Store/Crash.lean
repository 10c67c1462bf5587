import Secretbae.Lib.Statements
import Secretbae.Store.Current
import Secretbae.Store.Import

/-!
# Stopping between two statements

A write is one transaction, and so is a rekey; a rollback is one statement.
`delete_version` and the tag operations are several statements that commit one
by one, and `import_secret_with_id` is a transaction and then `add_tags`.  When
the process stops between two of them, or a statement fails, the store that is
found afterwards holds what the statements before have done.

`crash_runs_iff` says exactly which stops leave a `current_version` that names
no active version or an imported secret without all of its tags.
-/

namespace Secretbae
namespace Storage

open Lib Proto Core

section Programs

/-- A statement, or a transaction, that commits on its own. -/
abbrev Statement : Type :=
  Store → Except StoreError Store

/-- The statements of the loop of `add_tags`. -/
def tagStatements (id : Uuid) (tags : List Tag) : List Statement :=
  tags.flatMap fun tag => [fun st => st.insertTag tag, fun st => st.attachTag id tag]

/-- The statements of `add_tags` on the secret with this id. -/
def addTagsStatements (id : Uuid) (path : SecretPath) (tags : List Tag) (now : UnixTime) :
    List Statement :=
  tagStatements id tags ++ [fun st => .ok (st.touch path now)]

def removeTagsStatements (id : Uuid) (path : SecretPath) (selectors : List TagSelector)
    (now : UnixTime) : List Statement :=
  selectors.map (fun selector st => .ok (st.detach id selector)) ++
    [fun st => .ok st.dropUnusedTags, fun st => .ok (st.touch path now)]

/-- The two statements of `delete_version`. -/
def deleteStatements (slot : Uuid × Version) (mode : DeleteMode) (now : UnixTime) :
    List Statement :=
  [fun st => .ok (removeVersion st slot mode),
    fun st => .ok (st.pointCurrent slot.1 (st.maxActive slot.1) now.seconds)]

/-- The transaction of `import_secret_with_id`. -/
def importTransaction (id : Uuid) (secret : ExportedSecret) (now : UnixTime) : Statement :=
  fun st =>
    if (st.secretByPath secret.path).isSome then .error .alreadyExists
    else do
      let tx ← st.insertSecret (importedSecret id secret now)
      importVersions id tx secret.versions

/-- What an operation executes, after the queries it starts with. -/
def StoreOp.statements (st : Store) (op : StoreOp) : List Statement :=
  match op with
  | .deleteVersion path selector mode now =>
      match Storage.resolve st path selector with
      | .error _ => []
      | .ok slot =>
          if st.versions.rows.countP (mode.selects slot) = 0 then []
          else deleteStatements slot mode now
  | .addTags path tags now =>
      match secretId st path with
      | .error _ => []
      | .ok id => addTagsStatements id path tags now
  | .removeTags path selectors now =>
      match secretId st path with
      | .error _ => []
      | .ok id => removeTagsStatements id path selectors now
  | .importSecret id secret now =>
      importTransaction id secret.secret now ::
        addTagsStatements id secret.secret.path secret.secret.tags now
  | .write .. | .abandonWrite .. | .rollback .. | .rekeyWith .. => [fun st => op.outcome st]

def StoreOp.isDeletion : StoreOp → Bool
  | .deleteVersion .. => true
  | _ => false

/-- An operation that stops after its first `cut` statements. -/
def cutStep (st : Store) (c : StoreOp × Nat) : Store :=
  exec st ((c.1.statements st).take c.2)

end Programs

section Whole

variable {st mid : Store}

theorem exec_tagStatements
    {id : Uuid} {tags : List Tag}
    (h : attachAll st id tags = .ok mid) (rest : List Statement) :
    exec st (tagStatements id tags ++ rest) = exec mid rest := by
  induction tags generalizing st with
  | nil =>
      cases h
      rfl
  | cons tag tags ih =>
      obtain ⟨st₁, h₁, h⟩ := bind_eq_ok.mp h
      obtain ⟨st₂, h₂, h⟩ := bind_eq_ok.mp h
      refine (exec_cons_of_ok h₁ _).trans ((exec_cons_of_ok h₂ _).trans ?_)
      exact ih h

theorem exec_addTagsStatements
    {s : SecretRow} {path : SecretPath} {tags : List Tag} {now : UnixTime} {st' : Store}
    (hs : st.secretByPath path = some s)
    (h : addTags st path tags now = .ok st') :
    exec st (addTagsStatements s.id path tags now) = st' := by
  obtain ⟨id, hid, h⟩ := bind_eq_ok.mp h
  obtain ⟨mid, hmid, h⟩ := bind_eq_ok.mp h
  cases h
  cases (secretId_eq_ok.mpr ⟨s, hs, rfl⟩).symm.trans hid
  exact exec_tagStatements hmid _

theorem exec_detach
    (st : Store) (id : Uuid) (selectors : List TagSelector) (rest : List Statement) :
    exec st (selectors.map (fun selector st => .ok (st.detach id selector)) ++ rest) =
      exec (detachAll st id selectors) rest := by
  induction selectors generalizing st with
  | nil =>
      rfl
  | cons selector selectors ih =>
      exact ih (st.detach id selector)

/-- `import_secret_with_id` is its transaction and then `add_tags`. -/
theorem importSecretWithId_eq_bind
    (st : Store) (id : Uuid) (e : ExportedSecret) (now : UnixTime) :
    importSecretWithId st id e now =
      importTransaction id e now st >>= fun tx => addTags tx e.path e.tags now := by
  unfold importSecretWithId importTransaction
  split
  · rfl
  · rw [bind_assoc]

theorem importTransaction_eq_ok
    {id : Uuid} {e : ExportedSecret} {now : UnixTime} {tx : Store}
    (h : importTransaction id e now st = .ok tx) :
    tx.secretByPath e.path = some (importedSecret id e now) ∧
      (∀ s ∈ st.secrets.rows, s.id ≠ id) ∧
      ∀ q t, tx.Carries q t ↔ st.Carries q t := by
  unfold importTransaction at h
  split at h
  · cases h
  obtain ⟨mid, hins, hvers⟩ := bind_eq_ok.mp h
  obtain ⟨hfresh, -, hrows, -⟩ := Store.insertSecret_eq_ok hins
  obtain ⟨-, -, -, hsecrets⟩ := importVersions_eq_ok hvers
  obtain ⟨htags, hlinks⟩ := Store.insertSecret_tagTables hins
  obtain ⟨htags', hlinks'⟩ := importVersions_tagTables hvers
  have hall : tx.secrets.rows = st.secrets.rows ++ [importedSecret id e now] := by
    rw [hsecrets, hrows]
  refine ⟨?_, hfresh, ?_⟩
  · refine Store.secretByPath_eq_some_iff.mpr ⟨?_, rfl⟩
    rw [hall]
    simp
  · exact Store.carries_newSecret hall hfresh (htags'.trans htags) (hlinks'.trans hlinks)

/-- The transaction decides whether the import succeeds. -/
theorem importTransaction_isOk_iff
    {id : Uuid} {e : ExportedSecret} {now : UnixTime} :
    (∃ tx, importTransaction id e now st = .ok tx) ↔
      ∃ st', importSecretWithId st id e now = .ok st' := by
  rw [importSecretWithId_eq_bind]
  constructor
  · rintro ⟨tx, htx⟩
    obtain ⟨st', h⟩ := addTags_isOk (importTransaction_eq_ok htx).1 e.tags now
    exact ⟨st', bind_eq_ok.mpr ⟨tx, htx, h⟩⟩
  · rintro ⟨st', h⟩
    obtain ⟨tx, htx, -⟩ := bind_eq_ok.mp h
    exact ⟨tx, htx⟩

/-- An operation that is not stopped does what it does as a whole. -/
theorem exec_statements
    (st : Store) (op : StoreOp) :
    exec st (op.statements st) = op.step st := by
  have hwhole : exec st [fun st => op.outcome st] = op.step st := by
    cases h : op.outcome st with
    | ok st' => rw [exec_cons_of_ok h, exec_nil, StoreOp.step_of_ok h]
    | error e => rw [exec_cons_of_error h, StoreOp.step_of_error h]
  cases op with
  | write => exact hwhole
  | abandonWrite => exact hwhole
  | rollback => exact hwhole
  | rekeyWith => exact hwhole
  | deleteVersion path selector mode now =>
      simp only [StoreOp.statements, StoreOp.step, Storage.deleteVersion]
      cases hres : Storage.resolve st path selector with
      | error e => rfl
      | ok slot =>
          dsimp only [bind, Except.bind]
          split
          · rfl
          · rfl
  | addTags path tags now =>
      simp only [StoreOp.statements, StoreOp.step]
      cases hid : secretId st path with
      | error e =>
          rw [Storage.addTags, hid]
          rfl
      | ok id =>
          obtain ⟨s, hs, rfl⟩ := secretId_eq_ok.mp hid
          obtain ⟨st', h⟩ := addTags_isOk hs tags now
          rw [h]
          exact exec_addTagsStatements hs h
  | removeTags path selectors now =>
      simp only [StoreOp.statements, StoreOp.step, Storage.removeTags]
      cases hid : secretId st path with
      | error e => rfl
      | ok id => exact exec_detach st id selectors _
  | importSecret id secret now =>
      simp only [StoreOp.statements, StoreOp.step, importSecretWithId_eq_bind]
      cases htx : importTransaction id secret.secret now st with
      | error e =>
          rw [exec_cons_of_error htx]
          rfl
      | ok tx =>
          have hs := (importTransaction_eq_ok htx).1
          obtain ⟨st', h⟩ := addTags_isOk hs secret.secret.tags now
          rw [exec_cons_of_ok htx]
          simp only [bind, Except.bind, h]
          exact exec_addTagsStatements hs h

end Whole

section Stops

variable {st : Store}

theorem inv_sameSecrets
    {st' : Store}
    (h : st.Inv)
    (hsame : st.SameSecrets st') :
    st'.Inv := by
  obtain ⟨hsecrets, hversions, hkey⟩ := hsame
  refine inv_touched h ⟨id, fun _ => ⟨rfl, rfl, rfl, rfl⟩, ?_, hversions, hkey⟩
  rw [hsecrets, List.map_id]

theorem inv_touch
    (h : st.Inv) (path : SecretPath) (now : UnixTime) :
    (st.touch path now).Inv := by
  have hsame : st.SameSecrets st := ⟨rfl, rfl, rfl⟩
  exact inv_touched h (hsame.touch path now)

theorem inv_addTagsStatements
    (id : Uuid) (path : SecretPath) (tags : List Tag) (now : UnixTime) :
    ∀ f ∈ addTagsStatements id path tags now, ∀ s s', s.Inv → f s = .ok s' → s'.Inv := by
  intro f hf s s' hs h
  rcases List.mem_append.mp hf with hf | hf
  · obtain ⟨tag, -, hf⟩ := List.mem_flatMap.mp hf
    rcases List.mem_pair.mp hf with rfl | rfl
    · exact inv_sameSecrets hs (Store.insertTag_frame h)
    · exact inv_sameSecrets hs (Store.attachTag_frame h)
  · obtain rfl := List.mem_singleton.mp hf
    cases h
    exact inv_touch hs path now

theorem inv_removeTagsStatements
    (id : Uuid) (path : SecretPath) (selectors : List TagSelector) (now : UnixTime) :
    ∀ f ∈ removeTagsStatements id path selectors now, ∀ s s', s.Inv → f s = .ok s' →
      s'.Inv := by
  intro f hf s s' hs h
  rcases List.mem_append.mp hf with hf | hf
  · obtain ⟨selector, -, rfl⟩ := List.mem_map.mp hf
    cases h
    exact inv_sameSecrets hs ⟨rfl, rfl, rfl⟩
  · rcases List.mem_pair.mp hf with rfl | rfl
    · cases h
      exact inv_sameSecrets hs ⟨rfl, rfl, rfl⟩
    · cases h
      exact inv_touch hs path now

theorem inv_importTransaction
    {tx : Store} {id : Uuid} {e : ExportedSecret} {now : UnixTime}
    (h : st.Inv)
    (he : e.WellFormed)
    (htx : importTransaction id e now st = .ok tx) :
    tx.Inv := by
  unfold importTransaction at htx
  split at htx
  · cases htx
  obtain ⟨mid, hins, hvers⟩ := bind_eq_ok.mp htx
  obtain ⟨rows, himp⟩ := imports_of_eq_ok he hins hvers
  exact himp.inv h he

/-- Between the two statements of a deletion, only the version deleted matters. -/
theorem currentOk_removeVersion_iff
    {path : SecretPath} {s : SecretRow}
    (h : st.Inv)
    (hs : st.secretByPath path = some s) (v : Version) (mode : DeleteMode) :
    (∀ s' ∈ st.secrets.rows, (removeVersion st (s.id, v) mode).CurrentOk s') ↔
      s.currentVersion ≠ some v := by
  have hmem := (Store.secretByPath_eq_some_iff.mp hs).1
  constructor
  · intro hall hcur
    have hok := hall s hmem
    rw [Store.CurrentOk, hcur] at hok
    obtain ⟨r, hr, hslot, hactive⟩ := hok
    exact not_active_removeVersion hr hslot hactive
  · intro hne s' hs'
    by_cases hid : s'.id = s.id
    swap
    · refine (h.current s' hs').of_rows rfl rfl ?_
      intro r hr
      exact mem_removeVersion_of_ne (by rw [hr]; exact hid)
    obtain rfl := st.secrets.eq_of_key_eq hs' hmem hid
    have hok := h.current s' hs'
    unfold Store.CurrentOk at hok ⊢
    cases hcur : s'.currentVersion with
    | some c =>
        rw [hcur] at hok hne
        obtain ⟨r, hr, hslot, hactive⟩ := hok
        have hother : r.slot ≠ (s'.id, v) := by
          rw [hslot]
          intro heq
          exact hne (congrArg some (congrArg Prod.snd heq))
        exact ⟨r, (mem_removeVersion_other hother).mpr hr, hslot, hactive⟩
    | none =>
        rw [hcur] at hok
        intro r hr hrid
        by_cases hslot : r.slot = (s'.id, v)
        · exact not_active_removeVersion hr hslot
        · exact hok r ((mem_removeVersion_other hslot).mp hr) hrid

theorem inv_removeVersion
    {slot : Uuid × Version} {mode : DeleteMode}
    (h : st.Inv)
    (hcurrent : ∀ s ∈ st.secrets.rows, (removeVersion st slot mode).CurrentOk s) :
    (removeVersion st slot mode).Inv where
  numbered := numbered_removeVersion h slot mode
  current := hcurrent
  rows := wellFormed_removeVersion h.rows slot mode

/-- The first `cut` statements of `add_tags` attach every second of them a tag. -/
theorem exec_take_addTagsStatements
    {id : Uuid}
    (hid : ∃ s ∈ st.secrets.rows, s.id = id) (path : SecretPath) (tags : List Tag)
    (now : UnixTime) (cut : Nat) :
    (∀ q, ((exec st ((addTagsStatements id path tags now).take cut)).secretByPath q).map
        SecretRow.id = (st.secretByPath q).map SecretRow.id) ∧
      ∀ t, t ∈ (exec st ((addTagsStatements id path tags now).take cut)).tagsOf id ↔
        t ∈ st.tagsOf id ∨ t ∈ tags.take (cut / 2) := by
  induction tags generalizing st cut with
  | nil =>
      cases cut with
      | zero => exact ⟨fun _ => rfl, fun t => by simp⟩
      | succ cut =>
          have htouch : exec st ((addTagsStatements id path [] now).take (cut + 1)) =
              st.touch path now := by
            simp [addTagsStatements, tagStatements, exec]
          rw [htouch]
          exact ⟨fun q => st.secretByPath_touch path q now, fun t => by simp⟩
  | cons tag tags ih =>
      have hprogram : addTagsStatements id path (tag :: tags) now =
          (fun st => st.insertTag tag) :: (fun st => st.attachTag id tag) ::
            addTagsStatements id path tags now := rfl
      obtain ⟨st₁, h₁⟩ := st.insertTag_isOk tag
      obtain ⟨htag, hs₁, ht₁⟩ := Store.insertTag_spec h₁
      rw [hprogram]
      rcases cut with - | - | cut
      · exact ⟨fun _ => rfl, fun t => by simp⟩
      · -- the tag is there, but not yet attached
        rw [List.take_succ_cons, List.take_zero, exec_cons_of_ok h₁, exec_nil]
        refine ⟨fun q => ?_, fun t => ?_⟩
        · rw [Store.secretByPath_congr hs₁]
        · rw [ht₁]
          simp
      · have hid₁ : ∃ s ∈ st₁.secrets.rows, s.id = id := by
          rw [hs₁]
          exact hid
        obtain ⟨st₂, h₂⟩ := Store.attachTag_isOk hid₁ tag
        obtain ⟨hs₂, ht₂⟩ := Store.attachTag_spec htag h₂
        have hid₂ : ∃ s ∈ st₂.secrets.rows, s.id = id := by
          rw [hs₂]
          exact hid₁
        obtain ⟨hpath, htags⟩ := ih hid₂ cut
        rw [List.take_succ_cons, List.take_succ_cons, exec_cons_of_ok h₁, exec_cons_of_ok h₂]
        refine ⟨fun q => ?_, fun t => ?_⟩
        · rw [hpath, Store.secretByPath_congr hs₂, Store.secretByPath_congr hs₁]
        · have hhalf : (cut + 2) / 2 = cut / 2 + 1 := by omega
          rw [htags, ht₂, ht₁, hhalf, List.take_succ_cons, List.mem_cons]
          tauto

end Stops

section Crash

/-- What an export says of a secret numbers its versions apart. -/
theorem exportSecrets_versions_nodup
    {st : Store} {es : List ExportedSecret} {e : ExportedSecret}
    (hexport : exportSecrets st = .ok es)
    (he : e ∈ es) :
    (e.versions.map ExportedVersion.version).Nodup := by
  obtain ⟨s, -, hes⟩ := forall₂_mem_right (mapM_eq_ok hexport) he
  obtain ⟨tagList, -, hes⟩ := bind_eq_ok.mp hes
  obtain ⟨versions, hversions, hes⟩ := bind_eq_ok.mp hes
  cases hes
  have hnumber : ∀ r x, exportedVersion r = .ok x → x.version = r.version := by
    intro r x h
    obtain ⟨sealed, -, h⟩ := bind_eq_ok.mp h
    obtain ⟨t, -, h⟩ := bind_eq_ok.mp h
    cases h
    rfl
  rw [forall₂_map_eq hnumber (mapM_eq_ok hversions)]
  exact st.nodup_sortedVersions s.id _

theorem Store.carries_iff_of_id
    {st : Store} {path : SecretPath} {id : Uuid} {t : Tag}
    (h : (st.secretByPath path).map SecretRow.id = some id) :
    st.Carries path t ↔ t ∈ st.tagsOf id := by
  obtain ⟨s, hs, rfl⟩ := Option.map_eq_some_iff.mp h
  simp [Store.Carries, hs]

/-- A secret that an import brings to a free path is absent or carries all of its tags. -/
def StoreOp.ImportWhole (st st' : Store) : StoreOp → Prop
  | .importSecret _ secret _ =>
      st.secretByPath secret.secret.path = none →
        st'.secretByPath secret.secret.path = none ∨
          ∀ t ∈ secret.secret.tags, st'.Carries secret.secret.path t
  | _ => True

/-- What should be found after an operation that may have been stopped. -/
def Intact (st : Store) (c : StoreOp × Nat) : Prop :=
  (∀ s ∈ (cutStep st c).secrets.rows, (cutStep st c).CurrentOk s) ∧
    c.1.ImportWhole st (cutStep st c)

/--
The operation is not a deletion of the current version that stops after its
first statement, nor an import that stops after its transaction and before each
of the tags is attached.
-/
def SafelyCut (st : Store) (c : StoreOp × Nat) : Prop :=
  match c.1 with
  | .deleteVersion path selector _ _ =>
      c.2 = 1 → ∀ s v, st.secretByPath path = some s → selector.pick s = some v →
        s.currentVersion ≠ some v
  | .importSecret id secret _ =>
      (∀ s ∈ st.secrets.rows, s.path ≠ secret.secret.path ∧ s.id ≠ id) →
        c.2 = 0 ∨ ∀ t ∈ secret.secret.tags, t ∈ secret.secret.tags.take ((c.2 - 1) / 2)
  | _ => True

variable {st : Store}

@[simp] theorem cutStep_zero
    (st : Store) (op : StoreOp) :
    cutStep st (op, 0) = st := by
  rfl

theorem cutStep_whole
    {op : StoreOp} {cut : Nat}
    (h : (op.statements st).length ≤ cut) :
    cutStep st (op, cut) = op.step st := by
  rw [cutStep, List.take_of_length_le h, exec_statements]

theorem length_deleteVersion_statements
    (st : Store) (path : SecretPath) (selector : VersionSelector) (mode : DeleteMode)
    (now : UnixTime) :
    (StoreOp.statements st (.deleteVersion path selector mode now)).length ≤ 2 := by
  simp only [StoreOp.statements]
  split
  · simp
  · split
    · simp
    · simp [deleteStatements]

/-- A deletion of the current version finds its row. -/
theorem countP_selects_ne_zero
    {path : SecretPath} {s : SecretRow} {v : Version} {mode : DeleteMode}
    (h : st.Inv)
    (hs : st.secretByPath path = some s)
    (hcur : s.currentVersion = some v) :
    st.versions.rows.countP (mode.selects (s.id, v)) ≠ 0 := by
  have hok := h.current s (Store.secretByPath_eq_some_iff.mp hs).1
  rw [Store.CurrentOk, hcur] at hok
  obtain ⟨r, hr, hslot, hactive⟩ := hok
  have hsel : mode.selects (s.id, v) r = true := by
    cases mode with
    | soft => simp [DeleteMode.selects, hslot, hactive]
    | destroy => simp [DeleteMode.selects, hslot, hactive]
  rw [← Nat.pos_iff_ne_zero, List.countP_pos_iff]
  exact ⟨r, hr, hsel⟩

/-- What is found when a deletion stops after its first statement. -/
theorem cutStep_deleteVersion_one
    (h : st.Inv) (path : SecretPath) (selector : VersionSelector) (mode : DeleteMode)
    (now : UnixTime) :
    cutStep st (.deleteVersion path selector mode now, 1) = st ∧
        (∀ s v, st.secretByPath path = some s → selector.pick s = some v →
          s.currentVersion ≠ some v) ∨
      ∃ s v, st.secretByPath path = some s ∧ selector.pick s = some v ∧
        cutStep st (.deleteVersion path selector mode now, 1) =
          removeVersion st (s.id, v) mode := by
  simp only [cutStep, StoreOp.statements]
  cases hres : Storage.resolve st path selector with
  | error e =>
      refine .inl ⟨rfl, ?_⟩
      intro s v hs hpick
      rw [resolve_eq_ok.mpr ⟨s, hs, rfl, hpick⟩] at hres
      cases hres
  | ok slot =>
      obtain ⟨s, hs, hid, hpick⟩ := resolve_eq_ok.mp hres
      have hslot : slot = (s.id, slot.2) := by rw [hid]
      dsimp only
      split
      · rename_i hzero
        refine .inl ⟨rfl, ?_⟩
        intro s' v hs' hpick' hcur
        rw [hs] at hs'
        cases hs'
        rw [hpick] at hpick'
        cases hpick'
        rw [hslot] at hzero
        exact countP_selects_ne_zero h hs hcur hzero
      · refine .inr ⟨s, slot.2, hs, hpick, ?_⟩
        rw [← hslot]
        rfl

theorem intact_iff_of_inv
    {c : StoreOp × Nat}
    (h : (cutStep st c).Inv) :
    Intact st c ↔ c.1.ImportWhole st (cutStep st c) :=
  and_iff_right h.current

theorem inv_cut_deleteVersion
    {path : SecretPath} {selector : VersionSelector} {mode : DeleteMode} {now : UnixTime}
    {cut : Nat}
    (h : st.Inv)
    (hcut : cut ≠ 1) :
    (cutStep st (.deleteVersion path selector mode now, cut)).Inv := by
  rcases cut with - | - | cut
  · exact h
  · exact absurd rfl hcut
  · have hlength := length_deleteVersion_statements st path selector mode now
    rw [cutStep_whole (by omega)]
    exact inv_step h _

/-- Stopping a deletion leaves every pointer right unless it names what was deleted. -/
theorem intact_deleteVersion_iff
    {path : SecretPath} {selector : VersionSelector} {mode : DeleteMode} {now : UnixTime}
    {cut : Nat}
    (h : st.Inv) :
    Intact st (.deleteVersion path selector mode now, cut) ↔
      SafelyCut st (.deleteVersion path selector mode now, cut) := by
  by_cases hcut : cut = 1
  swap
  · rw [intact_iff_of_inv (inv_cut_deleteVersion h hcut)]
    exact iff_of_true trivial fun hone => absurd hone hcut
  subst hcut
  have hsafe : SafelyCut st (.deleteVersion path selector mode now, 1) ↔
      ∀ s v, st.secretByPath path = some s → selector.pick s = some v →
        s.currentVersion ≠ some v :=
    forall_prop_of_true rfl
  rw [hsafe]
  rcases cutStep_deleteVersion_one h path selector mode now with
    ⟨heq, hne⟩ | ⟨s, v, hs, hpick, heq⟩
  · refine iff_of_true ⟨?_, trivial⟩ hne
    rw [heq]
    exact h.current
  · have hiff := currentOk_removeVersion_iff h hs v mode
    unfold Intact
    rw [heq]
    constructor
    · rintro ⟨hall, -⟩ s' v' hs' hpick'
      rw [hs] at hs'
      cases hs'
      rw [hpick] at hpick'
      cases hpick'
      exact hiff.mp hall
    · intro hne
      exact ⟨hiff.mpr (hne s v hs hpick), trivial⟩

/-- An import is admitted where its path and its id are free. -/
theorem ExportedFromInv.importTransaction_isOk_iff
    (secret : ExportedFromInv) {id : Uuid} {now : UnixTime} :
    (∃ tx, importTransaction id secret.secret now st = .ok tx) ↔
      ∀ s ∈ st.secrets.rows, s.path ≠ secret.secret.path ∧ s.id ≠ id := by
  obtain ⟨es, hexport, hmem⟩ := secret.exported
  have hwf := exportSecrets_wellFormed secret.inv hexport hmem
  have haccepted : ∀ v ∈ secret.secret.versions, v.Accepted := by
    intro v hv
    by_cases hd : v.state = .destroyed
    · exact .inl hd
    · exact .inr fun hnone => hd ((hwf.sealed v hv).mp hnone)
  rw [Storage.importTransaction_isOk_iff, importSecretWithId_isOk_iff]
  constructor
  · rintro ⟨hpath, hid, -⟩ s hs
    exact ⟨hpath s hs, hid s hs⟩
  · intro hfree
    exact ⟨fun s hs => (hfree s hs).1, fun s hs => (hfree s hs).2, haccepted,
      exportSecrets_versions_nodup hexport hmem⟩

/-- What the tag statements after the transaction of an import add. -/
theorem exec_importTransaction
    {tx : Store} {id : Uuid} {e : ExportedSecret} {now : UnixTime}
    (htx : importTransaction id e now st = .ok tx)
    (hnone : st.secretByPath e.path = none) (cut : Nat) :
    ((exec tx ((addTagsStatements id e.path e.tags now).take cut)).secretByPath e.path).map
        SecretRow.id = some id ∧
      ∀ t, (exec tx ((addTagsStatements id e.path e.tags now).take cut)).Carries e.path t ↔
        t ∈ e.tags.take (cut / 2) := by
  obtain ⟨hs, -, hcarries⟩ := importTransaction_eq_ok htx
  have hold : (tx.secretByPath e.path).map SecretRow.id = some id := by
    rw [hs]
    rfl
  have hmem : ∃ s ∈ tx.secrets.rows, s.id = id :=
    ⟨_, (Store.secretByPath_eq_some_iff.mp hs).1, rfl⟩
  obtain ⟨hpath, htags⟩ := exec_take_addTagsStatements hmem e.path e.tags now cut
  have hid := (hpath e.path).trans hold
  refine ⟨hid, ?_⟩
  intro t
  have hnew : ¬ tx.Carries e.path t := by
    rw [hcarries]
    rintro ⟨s, hs, -⟩
    rw [hnone] at hs
    cases hs
  rw [Store.carries_iff_of_id hold] at hnew
  rw [Store.carries_iff_of_id hid, htags]
  exact or_iff_right hnew

/-- Every statement keeps the invariant, those of a deletion apart. -/
theorem inv_statements
    {op : StoreOp}
    (hop : ¬ op.isDeletion) :
    ∀ f ∈ op.statements st, ∀ s s', s.Inv → f s = .ok s' → s'.Inv := by
  have hwhole : ∀ f ∈ [fun st => op.outcome st], ∀ s s', s.Inv → f s = .ok s' → s'.Inv := by
    intro f hf s s' hs hstep
    obtain rfl := List.mem_singleton.mp hf
    exact inv_outcome hs hstep
  cases op with
  | write => exact hwhole
  | abandonWrite => exact hwhole
  | rollback => exact hwhole
  | rekeyWith => exact hwhole
  | deleteVersion => exact absurd rfl hop
  | addTags path tags now =>
      intro f hf
      simp only [StoreOp.statements] at hf
      split at hf
      · cases hf
      · exact inv_addTagsStatements _ path tags now f hf
  | removeTags path selectors now =>
      intro f hf
      simp only [StoreOp.statements] at hf
      split at hf
      · cases hf
      · exact inv_removeTagsStatements _ path selectors now f hf
  | importSecret id secret now =>
      obtain ⟨es, hexport, hmem⟩ := secret.exported
      have hwf := exportSecrets_wellFormed secret.inv hexport hmem
      intro f hf s s' hs hstep
      rcases List.mem_cons.mp hf with rfl | hf
      · exact inv_importTransaction hs hwf hstep
      · exact inv_addTagsStatements id _ _ now f hf s s' hs hstep

theorem inv_cut_other
    {op : StoreOp}
    (h : st.Inv)
    (hop : ¬ op.isDeletion) (cut : Nat) :
    (cutStep st (op, cut)).Inv :=
  exec_invariant (inv_statements hop) h cut

/-- Stopping an import leaves its secret whole unless a tag is still to be attached. -/
theorem intact_importSecret_iff
    {id : Uuid} {secret : ExportedFromInv} {now : UnixTime} {cut : Nat}
    (h : st.Inv) :
    Intact st (.importSecret id secret now, cut) ↔
      SafelyCut st (.importSecret id secret now, cut) := by
  rw [intact_iff_of_inv (inv_cut_other h (by rintro ⟨⟩) cut)]
  cases cut with
  | zero => exact iff_of_true (fun hnone => .inl hnone) fun _ => .inl rfl
  | succ cut =>
      have hprogram : cutStep st (.importSecret id secret now, cut + 1) =
          exec st (importTransaction id secret.secret now ::
            (addTagsStatements id secret.secret.path secret.secret.tags now).take cut) := rfl
      cases htx : importTransaction id secret.secret now st with
      | error e =>
          rw [hprogram, exec_cons_of_error htx]
          refine iff_of_true (fun hnone => .inl hnone) ?_
          intro hfree
          obtain ⟨tx, htx'⟩ := secret.importTransaction_isOk_iff.mpr hfree
          rw [htx] at htx'
          cases htx'
      | ok tx =>
          have hfree := secret.importTransaction_isOk_iff.mp ⟨tx, htx⟩
          have hnone : st.secretByPath secret.secret.path = none := by
            rw [Option.eq_none_iff_forall_ne_some]
            intro s hs
            obtain ⟨hmem, hpath⟩ := Store.secretByPath_eq_some_iff.mp hs
            exact (hfree s hmem).1 hpath
          obtain ⟨hid, hcarried⟩ := exec_importTransaction htx hnone cut
          rw [hprogram, exec_cons_of_ok htx]
          have hsafe : SafelyCut st (.importSecret id secret now, cut + 1) ↔
              ∀ t ∈ secret.secret.tags, t ∈ secret.secret.tags.take (cut / 2) :=
            (forall_prop_of_true hfree).trans (or_iff_right (Nat.succ_ne_zero cut))
          rw [hsafe]
          constructor
          · intro hwhole t ht
            rcases hwhole hnone with habsent | hall
            · rw [habsent] at hid
              cases hid
            · exact (hcarried t).mp (hall t ht)
          · intro hall _
            exact .inr fun t ht => (hcarried t).mpr (hall t ht)

/-- A stop leaves the invariant or is one that does harm. -/
theorem inv_cutStep
    {c : StoreOp × Nat}
    (h : st.Inv)
    (hc : Intact st c) :
    (cutStep st c).Inv := by
  obtain ⟨op, cut⟩ := c
  by_cases hop : op.isDeletion
  swap
  · exact inv_cut_other h hop cut
  cases op with
  | deleteVersion path selector mode now =>
      by_cases hcut : cut = 1
      swap
      · exact inv_cut_deleteVersion h hcut
      subst hcut
      rcases cutStep_deleteVersion_one h path selector mode now with
        ⟨heq, -⟩ | ⟨s, v, -, -, heq⟩
      · rw [heq]
        exact h
      · have hcurrent := hc.1
        rw [heq] at hcurrent ⊢
        exact inv_removeVersion h hcurrent
  | write | abandonWrite | rollback | rekeyWith | addTags | removeTags | importSecret =>
      cases hop

/-- Exactly which stops do harm. -/
theorem intact_iff_safelyCut
    (h : st.Inv) (c : StoreOp × Nat) :
    Intact st c ↔ SafelyCut st c := by
  obtain ⟨op, cut⟩ := c
  cases op with
  | deleteVersion => exact intact_deleteVersion_iff h
  | importSecret => exact intact_importSecret_iff h
  | write | abandonWrite | rollback | rekeyWith | addTags | removeTags =>
      rw [intact_iff_of_inv (inv_cut_other h (by rintro ⟨⟩) cut)]
      exact Iff.rfl

/--
Over every run of operations, each of which may have been stopped after any of
its statements: every store found has each `current_version` on an active
version, or on none where there is none, and each imported secret is absent or
carries all of its tags, if and only if no step stops between the two statements
of a deletion of the current version, or between the transaction of an import
and the last of its tags.
-/
theorem crash_runs_iff
    (steps : List (StoreOp × Nat)) :
    along cutStep Intact Store.empty steps ↔ along cutStep SafelyCut Store.empty steps := by
  refine along_iff_along ?_ ?_ Store.inv_empty steps
  · intro st c h
    exact intact_iff_safelyCut h c
  · intro st c h hc
    exact inv_cutStep h hc

/-- A write, and a deletion of what it wrote that stops after its first statement. -/
def stoppedDeletion : List (StoreOp × Nat) :=
  [(versionWrite 1, 1), (.deleteVersion samplePath .current .soft (sampleTime 200), 1)]

/-- Afterwards `current_version` names the version that can no longer be read. -/
theorem stopped_deletion_leaves_stale_current :
    (∃ s ∈ (run cutStep Store.empty stoppedDeletion).secrets.rows,
        s.currentVersion = some firstVersion ∧
          ∀ r ∈ (run cutStep Store.empty stoppedDeletion).versions.rows, r.state ≠ .active) ∧
      ¬ ∀ steps, along cutStep Intact Store.empty steps := by
  have hstale : ∃ s ∈ (run cutStep Store.empty stoppedDeletion).secrets.rows,
      s.currentVersion = some firstVersion ∧
        ∀ r ∈ (run cutStep Store.empty stoppedDeletion).versions.rows, r.state ≠ .active := by
    decide +kernel
  refine ⟨hstale, ?_⟩
  intro hall
  obtain ⟨-, ⟨hcurrent, -⟩, -⟩ := hall stoppedDeletion
  obtain ⟨s, hs, hcur, hinactive⟩ := hstale
  have hok := hcurrent s hs
  rw [Store.CurrentOk, hcur] at hok
  obtain ⟨r, hr, -, hactive⟩ := hok
  exact hinactive r hr hactive

end Crash

end Storage
end Secretbae
