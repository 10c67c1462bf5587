import Secretbae.Store.Invariant
import Secretbae.Lib.Runs

/-!
# Runs of the store

Every sequence of operations on an empty store, failed ones and abandoned
writes included, leaves a store that satisfies the invariant.  `store_run`
spells the invariant out and draws its consequence for `read_version`.
-/

namespace Secretbae
namespace Storage

open Lib Proto Core

/-- A secret exported from a store that satisfies the invariant. -/
structure ExportedFromInv where
  secret : ExportedSecret
  source : Store
  inv : source.Inv
  exported : ∃ es, exportSecrets source = .ok es ∧ secret ∈ es

/-- The operations on a store, each with the time and the random values it meets. -/
inductive StoreOp where
  | write (path : SecretPath) (freshId : Uuid) (began : UnixTime) (sealed : SealedVersion)
      (info : WriteMeta) (now : UnixTime)
  | abandonWrite (path : SecretPath) (freshId : Uuid) (began : UnixTime)
  | rollback (path : SecretPath) (target : Version) (now : UnixTime)
  | deleteVersion (path : SecretPath) (selector : VersionSelector) (mode : DeleteMode)
      (now : UnixTime)
  | addTags (path : SecretPath) (tags : List Tag) (now : UnixTime)
  | removeTags (path : SecretPath) (selectors : List TagSelector) (now : UnixTime)
  | rekeyWith (newSealedMaster : SealedMasterKey) (rewrap : Rewrap)
  | importSecret (id : Uuid) (secret : ExportedFromInv) (now : UnixTime)

/-- `begin_write`, then `commit`. -/
def writeVersion (st : Store) (path : SecretPath) (freshId : Uuid) (began : UnixTime)
    (sealed : SealedVersion) (info : WriteMeta) (now : UnixTime) :
    Except StoreError (Store × Version) := do
  let slot ← beginWrite st path freshId began
  slot.commit sealed info now

/-- The store after an operation, successful or not. -/
def StoreOp.step (st : Store) : StoreOp → Store
  | .write path freshId began sealed info now =>
      match writeVersion st path freshId began sealed info now with
      | .ok (st', _) => st'
      | .error _ => st
  | .abandonWrite _ _ _ =>
      -- dropping the slot drops its transaction
      st
  | .rollback path target now =>
      match Storage.rollback st path target now with
      | .ok st' => st'
      | .error _ => st
  | .deleteVersion path selector mode now =>
      match Storage.deleteVersion st path selector mode now with
      | .ok (st', _) => st'
      | .error _ => st
  | .addTags path tags now =>
      match Storage.addTags st path tags now with
      | .ok st' => st'
      | .error _ => st
  | .removeTags path selectors now =>
      match Storage.removeTags st path selectors now with
      | .ok st' => st'
      | .error _ => st
  | .rekeyWith newSealedMaster rewrap =>
      match Storage.rekeyWith st newSealedMaster rewrap with
      | .ok (st', _) => st'
      | .error _ => st
  | .importSecret id secret now =>
      match importSecretWithId st id secret.secret now with
      | .ok st' => st'
      | .error _ => st

/-- What an operation returns, as far as the store goes. -/
def StoreOp.outcome (st : Store) : StoreOp → Except StoreError Store
  | .write path freshId began sealed info now =>
      (writeVersion st path freshId began sealed info now).map Prod.fst
  | .abandonWrite _ _ _ => .ok st
  | .rollback path target now => Storage.rollback st path target now
  | .deleteVersion path selector mode now =>
      (Storage.deleteVersion st path selector mode now).map Prod.fst
  | .addTags path tags now => Storage.addTags st path tags now
  | .removeTags path selectors now => Storage.removeTags st path selectors now
  | .rekeyWith newSealedMaster rewrap =>
      (Storage.rekeyWith st newSealedMaster rewrap).map Prod.fst
  | .importSecret id secret now => importSecretWithId st id secret.secret now

theorem StoreOp.step_of_ok
    {st st' : Store} {op : StoreOp}
    (h : op.outcome st = .ok st') :
    op.step st = st' := by
  cases op with
  | abandonWrite =>
      cases h
      rfl
  | write | deleteVersion | rekeyWith =>
      obtain ⟨⟨st', x⟩, hx, rfl⟩ := map_eq_ok.mp h
      simp only [StoreOp.step, hx]
  | rollback | addTags | removeTags | importSecret =>
      simp only [StoreOp.outcome] at h
      simp only [StoreOp.step, h]

theorem StoreOp.step_of_error
    {st : Store} {op : StoreOp} {e : StoreError}
    (h : op.outcome st = .error e) :
    op.step st = st := by
  cases op with
  | abandonWrite =>
      cases h
  | write | deleteVersion | rekeyWith =>
      have hx := map_eq_error.mp h
      simp only [StoreOp.step, hx]
  | rollback | addTags | removeTags | importSecret =>
      simp only [StoreOp.outcome] at h
      simp only [StoreOp.step, h]

/-- What an operation keeps where it succeeds, it keeps. -/
theorem StoreOp.step_of_outcome
    {good : Store → Prop} {st : Store} {op : StoreOp}
    (h : good st)
    (hop : ∀ st', op.outcome st = .ok st' → good st') :
    good (op.step st) := by
  cases hres : op.outcome st with
  | ok st' =>
      rw [StoreOp.step_of_ok hres]
      exact hop st' hres
  | error e =>
      rw [StoreOp.step_of_error hres]
      exact h

/-- What every operation that succeeds keeps, every run keeps. -/
theorem reachable_of_outcome
    {good : Store → Prop}
    (hempty : good Store.empty)
    (hop : ∀ {st st' : Store} {op : StoreOp}, good st → op.outcome st = .ok st' → good st')
    (ops : List StoreOp) :
    good (run StoreOp.step Store.empty ops) := by
  refine run_invariant good (fun _ => True) ?_ (fun _ _ => trivial) hempty
  intro st op _ h
  exact StoreOp.step_of_outcome h fun st' hres => hop h hres

/-- Every operation that succeeds preserves the invariant. -/
theorem inv_outcome
    {st st' : Store} {op : StoreOp}
    (h : st.Inv)
    (hop : op.outcome st = .ok st') :
    st'.Inv := by
  cases op with
  | write path freshId began sealed info now =>
      obtain ⟨⟨st', v⟩, hwrite, rfl⟩ := map_eq_ok.mp hop
      obtain ⟨slot, hbegin, hcommit⟩ := bind_eq_ok.mp hwrite
      exact inv_commit h hbegin hcommit
  | abandonWrite path freshId began =>
      cases hop
      exact h
  | rollback path target now => exact inv_rollback h hop
  | deleteVersion path selector mode now =>
      obtain ⟨⟨st', v⟩, hdel, rfl⟩ := map_eq_ok.mp hop
      exact inv_deleteVersion h hdel
  | addTags path tags now => exact inv_touched h (addTags_frame hop)
  | removeTags path selectors now => exact inv_touched h (removeTags_frame hop)
  | rekeyWith newSealedMaster rewrap =>
      obtain ⟨⟨st', report⟩, hrekey, rfl⟩ := map_eq_ok.mp hop
      exact inv_rekeyWith h hrekey
  | importSecret id secret now =>
      obtain ⟨es, hexport, hmem⟩ := secret.exported
      exact inv_import h (exportSecrets_wellFormed secret.inv hexport hmem) hop

/-- Every operation preserves the invariant. -/
theorem inv_step
    {st : Store}
    (h : st.Inv) (op : StoreOp) :
    (op.step st).Inv :=
  StoreOp.step_of_outcome h fun _ hop => inv_outcome h hop

/-- Every run on an empty store ends in a state that satisfies the invariant. -/
theorem reachable_inv
    (ops : List StoreOp) :
    (run StoreOp.step Store.empty ops).Inv :=
  reachable_of_outcome Store.inv_empty inv_outcome ops

/-- Some version of the secret at `path` is active. -/
def Store.HasActive (st : Store) (path : SecretPath) : Prop :=
  ∃ s r, st.secretByPath path = some s ∧ r ∈ st.versionsOf s.id ∧ r.state = .active

/-- Reading the current version succeeds, or there is no active one. -/
theorem readVersion_current
    {st : Store}
    (h : st.Inv) (path : SecretPath) :
    (st.HasActive path ∧ ∃ stored, readVersion st path .current = .ok stored) ∨
      (¬ st.HasActive path ∧ readVersion st path .current = .error .notFound) := by
  cases hs : st.secretByPath path with
  | none =>
      refine .inr ⟨?_, ?_⟩
      · rintro ⟨s, r, hs', -⟩
        rw [hs] at hs'
        cases hs'
      · simp [readVersion, resolve, hs, okOr, bind, Except.bind]
  | some s =>
      obtain ⟨hmem, -⟩ := Store.secretByPath_eq_some_iff.mp hs
      have hcur := h.current s hmem
      unfold Store.CurrentOk at hcur
      cases hc : s.currentVersion with
      | none =>
          rw [hc] at hcur
          refine .inr ⟨?_, ?_⟩
          · rintro ⟨s', r, hs', hr, hactive⟩
            rw [hs] at hs'
            cases hs'
            obtain ⟨hr, hid⟩ := Store.mem_versionsOf.mp hr
            exact hcur r hr hid hactive
          · simp [readVersion, resolve, VersionSelector.pick, hs, hc, okOr, bind,
              Except.bind]
      | some v =>
          rw [hc] at hcur
          obtain ⟨r, hr, hslot, hactive⟩ := hcur
          obtain ⟨sealed, hholds⟩ :=
            (h.rows r hr).retained (by rw [hactive]; decide)
          refine .inl ⟨⟨s, r, hs, ?_, hactive⟩, ?_⟩
          · exact Store.mem_versionsOf.mpr ⟨hr, congrArg Prod.fst hslot⟩
          · have hfind : st.versions.find? (s.id, v) = some r :=
              Table.find?_eq_some_iff.mpr ⟨hr, hslot⟩
            have hbuild :=
              buildStoredVersion_of_holds s.id v hactive hholds (h.rows r hr).time
            simp [readVersion, resolve, VersionSelector.pick, hs, hc, okOr, hfind, hbuild,
              bind, Except.bind]

/-- The rows of a secret are numbered without gap or repetition. -/
theorem Store.NumberedTo.perm
    {st : Store} {id : Uuid} {n : Nat}
    (h : st.NumberedTo id n) :
    ((st.versionsOf id).map (fun r => r.version.toNat)).Perm (List.range' 1 n) := by
  have hnodup : ((st.versionsOf id).map (fun r => r.version.toNat)).Nodup := by
    have hslots : ((st.versionsOf id).map VersionRow.slot).Nodup :=
      st.versions.unique.sublist (List.filter_sublist.map _)
    refine List.Nodup.map_on ?_ (List.Nodup.of_map _ hslots)
    intro r hr r' hr' heq
    refine List.inj_on_of_nodup_map hslots hr hr' ?_
    have hid := (Store.mem_versionsOf.mp hr).2
    have hid' := (Store.mem_versionsOf.mp hr').2
    exact Prod.ext (hid.trans hid'.symm) (Version.toNat_inj.mp heq)
  refine (List.perm_ext_iff_of_nodup hnodup List.nodup_range').mpr ?_
  intro m
  rw [List.mem_range'_1, Nat.add_comm 1 n, Nat.lt_succ_iff, ← h m, List.mem_map]
  constructor
  · rintro ⟨r, hr, hm⟩
    obtain ⟨hr, hid⟩ := Store.mem_versionsOf.mp hr
    exact ⟨r, hr, hid, hm⟩
  · rintro ⟨r, hr, hid, hm⟩
    exact ⟨r, Store.mem_versionsOf.mpr ⟨hr, hid⟩, hm⟩

theorem Store.CurrentOk.iff_active
    {st : Store} {s : SecretRow}
    (h : st.CurrentOk s) :
    (∀ v, s.currentVersion = some v →
        ∃ r ∈ st.versionsOf s.id, r.version = v ∧ r.state = .active) ∧
      (s.currentVersion.isSome ↔ ∃ r ∈ st.versionsOf s.id, r.state = .active) := by
  unfold Store.CurrentOk at h
  cases hc : s.currentVersion with
  | none =>
      rw [hc] at h
      refine ⟨(by rintro v ⟨⟩), ?_⟩
      constructor
      · intro hsome
        cases hsome
      · rintro ⟨r, hr, hactive⟩
        obtain ⟨hr, hid⟩ := Store.mem_versionsOf.mp hr
        exact absurd hactive (h r hr hid)
  | some v =>
      rw [hc] at h
      obtain ⟨r, hr, hslot, hactive⟩ := h
      have hmem : r ∈ st.versionsOf s.id :=
        Store.mem_versionsOf.mpr ⟨hr, congrArg Prod.fst hslot⟩
      refine ⟨?_, fun _ => ⟨r, hmem, hactive⟩, fun _ => rfl⟩
      intro w hw
      cases hw
      exact ⟨r, hmem, congrArg Prod.snd hslot, hactive⟩

/--
The store invariant over whole runs, and what it says of reading the current
version of a path.
-/
theorem store_run
    (ops : List StoreOp) :
    let st := run StoreOp.step Store.empty ops
    (∀ s ∈ st.secrets.rows,
      (∃ n, 1 ≤ n ∧
        ((st.versionsOf s.id).map (fun r => r.version.toNat)).Perm (List.range' 1 n)) ∧
      (∀ v, s.currentVersion = some v →
        ∃ r ∈ st.versionsOf s.id, r.version = v ∧ r.state = .active) ∧
      (s.currentVersion.isSome ↔ ∃ r ∈ st.versionsOf s.id, r.state = .active)) ∧
    (∀ r ∈ st.versions.rows,
      (r.state = .destroyed →
        r.nonce = none ∧ r.ciphertext = none ∧ r.dekNonce = none ∧ r.wrappedDek = none) ∧
      (r.state ≠ .destroyed →
        r.nonce ≠ none ∧ r.ciphertext ≠ none ∧ r.dekNonce ≠ none ∧ r.wrappedDek ≠ none)) ∧
    ∀ path,
      (∀ what, readVersion st path .current ≠ .error (.corrupt what)) ∧
      (readVersion st path .current = .error .notFound ↔ ¬ st.HasActive path) := by
  intro st
  have hinv : st.Inv := reachable_inv ops
  refine ⟨?_, ?_, ?_⟩
  · intro s hs
    obtain ⟨n, hn, hnum⟩ := hinv.numbered s hs
    exact ⟨⟨n, hn, hnum.perm⟩, (hinv.current s hs).iff_active⟩
  · intro r hr
    refine ⟨(hinv.rows r hr).destroyed, ?_⟩
    intro hd
    obtain ⟨s, h1, h2, h3, h4, -⟩ := (hinv.rows r hr).retained hd
    simp [h1, h2, h3, h4]
  · intro path
    rcases readVersion_current hinv path with ⟨hactive, stored, hread⟩ | ⟨hactive, hread⟩
    · simp [hread, hactive]
    · simp [hread, hactive]

end Storage
end Secretbae
