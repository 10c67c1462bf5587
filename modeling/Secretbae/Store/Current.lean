import Secretbae.Store.Runs
import Secretbae.Store.Lifecycle

/-!
# What a secret resolves to after a deletion

`delete_version` points `current_version` at the highest version that is still
active, whichever version it deleted.  The version a secret resolves to
therefore survives the deletion of another one exactly when no active version
above it is left; after a rollback there usually is one, and the deletion undoes
the rollback (`deletion_undoes_rollback`).
-/

namespace Secretbae
namespace Storage

open Lib Proto Core

/-- The `current_version` column of the secret at `path`. -/
def Store.currentAt (st : Store) (path : SecretPath) : Option Version :=
  (st.secretByPath path).bind SecretRow.currentVersion

/-- `version` is an active version of the secret at `path`. -/
def Store.ActiveAt (st : Store) (path : SecretPath) (version : Version) : Prop :=
  ∃ s r, st.secretByPath path = some s ∧ r ∈ st.versions.rows ∧ r.slot = (s.id, version) ∧
    r.state = .active

section MaxActive

/-- The maximum over the active rows, as SQL computes it. -/
theorem Store.maxActive_eq_some_iff
    {st : Store} {id : Uuid} {v : Version} :
    st.maxActive id = some v ↔
      (∃ r ∈ st.versions.rows, r.slot = (id, v) ∧ r.state = .active) ∧
        ∀ r ∈ st.versions.rows, r.secretId = id → r.state = .active →
          r.version.toNat ≤ v.toNat := by
  have hle : ∀ {w : Version}, st.maxActive id = some w →
      ∀ r ∈ st.versions.rows, r.secretId = id → r.state = .active →
        r.version.toNat ≤ w.toNat := by
    intro w hw r hr hid hactive
    refine List.le_of_mem_argmax ?_ hw
    refine List.mem_map.mpr ⟨r, List.mem_filter.mpr ⟨?_, by simpa using hactive⟩, rfl⟩
    exact Store.mem_versionsOf.mpr ⟨hr, hid⟩
  constructor
  · intro h
    obtain ⟨r, hr, hid, hver, hactive⟩ := Store.maxActive_eq_some h
    exact ⟨⟨r, hr, Prod.ext hid hver, hactive⟩, hle h⟩
  · rintro ⟨⟨r, hr, hslot, hactive⟩, hall⟩
    have hid : r.secretId = id := congrArg Prod.fst hslot
    have hver : r.version = v := congrArg Prod.snd hslot
    cases hmax : st.maxActive id with
    | none =>
        exact absurd hactive (Store.maxActive_eq_none hmax r hr hid)
    | some w =>
        obtain ⟨q, hq, hqid, hqver, hqactive⟩ := Store.maxActive_eq_some hmax
        have hle₁ := hle hmax r hr hid hactive
        have hle₂ := hall q hq hqid hqactive
        rw [hver] at hle₁
        rw [hqver] at hle₂
        rw [Option.some.injEq]
        exact Version.toNat_inj.mp (le_antisymm hle₂ hle₁)

/-- A version that a deletion does not name keeps its row. -/
theorem mem_removeVersion_other
    {st : Store} {slot : Uuid × Version} {mode : DeleteMode} {r : VersionRow}
    (hne : r.slot ≠ slot) :
    r ∈ (removeVersion st slot mode).versions.rows ↔ r ∈ st.versions.rows := by
  rw [mem_removeVersion]
  constructor
  · rintro ⟨r₀, hr₀, rfl⟩
    split at hne
    · rename_i hsel
      exact absurd ((mode.apply_slot r₀).trans (DeleteMode.slot_of_selects hsel)) hne
    · rename_i hkeep
      rw [if_neg hkeep]
      exact hr₀
  · intro hr
    refine ⟨r, hr, if_neg ?_⟩
    intro hsel
    exact hne (DeleteMode.slot_of_selects hsel)

/-- The row a deletion names is no longer active. -/
theorem not_active_removeVersion
    {st : Store} {slot : Uuid × Version} {mode : DeleteMode} {r : VersionRow}
    (hr : r ∈ (removeVersion st slot mode).versions.rows)
    (hslot : r.slot = slot) :
    r.state ≠ .active := by
  obtain ⟨r₀, hr₀, rfl⟩ := mem_removeVersion.mp hr
  split at hslot
  · rename_i hsel
    rw [if_pos hsel]
    cases mode with
    | soft =>
        have hactive : r₀.state = .active := by
          simp only [DeleteMode.selects, decide_eq_true_eq] at hsel
          exact hsel.2
        simp [DeleteMode.apply, VersionRow.softDelete, hactive]
    | destroy =>
        simp [DeleteMode.apply, VersionRow.destroy]
  · rename_i hkeep
    rw [if_neg hkeep]
    cases mode with
    | soft =>
        simp only [DeleteMode.selects, decide_eq_true_eq, not_and] at hkeep
        exact hkeep hslot
    | destroy =>
        simp only [DeleteMode.selects, decide_eq_true_eq, not_and, not_not] at hkeep
        rw [hkeep hslot]
        decide

end MaxActive

section Deletion

variable {st st' : Store} {path : SecretPath} {selector : VersionSelector}
variable {mode : DeleteMode} {now : UnixTime} {v : Version}

/-- The secret a deletion acts on, afterwards. -/
theorem secretByPath_pointCurrent_self
    {s : SecretRow}
    (hs : st.secretByPath path = some s)
    (current : Option Version) (at_ : Int64) :
    (st.pointCurrent s.id current at_).secretByPath path =
      some { s with currentVersion := current, updatedAt := at_ } := by
  obtain ⟨hmem, hpath⟩ := Store.secretByPath_eq_some_iff.mp hs
  refine Store.secretByPath_eq_some_iff.mpr ⟨?_, hpath⟩
  exact Store.mem_pointCurrent.mpr ⟨s, hmem, if_pos rfl⟩

/-- After a deletion the highest active version is current. -/
theorem currentAt_deleteVersion
    {s : SecretRow}
    (hs : st.secretByPath path = some s)
    (hdel : deleteVersion st path selector mode now = .ok (st', v)) :
    st'.currentAt path = (removeVersion st (s.id, v) mode).maxActive s.id := by
  obtain ⟨s', hs', rfl⟩ := deleteVersion_eq_ok hdel
  rw [hs] at hs'
  cases hs'
  have hfind : (removeVersion st (s.id, v) mode).secretByPath path = some s := hs
  rw [Store.currentAt, secretByPath_pointCurrent_self hfind _ _]
  rfl

theorem deleteVersion_exact
    {w : Version}
    (hdel : deleteVersion st path (.exact v) mode now = .ok (st', w)) :
    w = v := by
  obtain ⟨⟨id, version⟩, hres, h⟩ := bind_eq_ok.mp hdel
  obtain ⟨s, -, -, hpick⟩ := resolve_eq_ok.mp hres
  dsimp only at h
  split at h
  · cases h
  · cases h
    exact (Option.some.inj hpick).symm

/-- The current version is read from the row it points at. -/
theorem readVersion_current_eq
    {s : SecretRow} {c : Version} {r : VersionRow}
    (hs : st.secretByPath path = some s)
    (hcur : s.currentVersion = some c)
    (hr : r ∈ st.versions.rows)
    (hslot : r.slot = (s.id, c)) :
    readVersion st path .current = buildStoredVersion s.id c r := by
  have hfind : st.versions.find? (s.id, c) = some r :=
    Table.find?_eq_some_iff.mpr ⟨hr, hslot⟩
  simp [readVersion, resolve, VersionSelector.pick, hs, hcur, okOr, hfind, bind, Except.bind]

/-- The highest active version among those a deletion leaves. -/
theorem maxActive_removeVersion_eq_some_iff
    {s : SecretRow} {c : Version} {r : VersionRow}
    (hs : st.secretByPath path = some s)
    (hr : r ∈ st.versions.rows)
    (hslot : r.slot = (s.id, c))
    (hactive : r.state = .active)
    (hne : v ≠ c) :
    (removeVersion st (s.id, v) mode).maxActive s.id = some c ↔
      ∀ w, st.ActiveAt path w → w ≠ v → w.toNat ≤ c.toNat := by
  rw [Store.maxActive_eq_some_iff]
  constructor
  · rintro ⟨-, hall⟩ w ⟨s', q, hs', hq, hqslot, hqactive⟩ hw
    rw [hs] at hs'
    cases hs'
    have hqver : q.version = w := congrArg Prod.snd hqslot
    have hother : q.slot ≠ (s.id, v) := by
      rw [hqslot]
      intro heq
      exact hw (congrArg Prod.snd heq)
    rw [← hqver]
    exact hall q ((mem_removeVersion_other hother).mpr hq) (congrArg Prod.fst hqslot) hqactive
  · intro hall
    have hother : r.slot ≠ (s.id, v) := by
      rw [hslot]
      intro heq
      exact hne (congrArg Prod.snd heq).symm
    refine ⟨⟨r, (mem_removeVersion_other hother).mpr hr, hslot, hactive⟩, ?_⟩
    intro q hq hqid hqactive
    have hqne : q.slot ≠ (s.id, v) := fun heq => not_active_removeVersion hq heq hqactive
    refine hall q.version ⟨s, q, hs, (mem_removeVersion_other hqne).mp hq, ?_, hqactive⟩ ?_
    · exact Prod.ext hqid rfl
    · intro heq
      exact hqne (Prod.ext hqid heq)

/-- A deletion that leaves the pointer alone leaves what it resolves to alone. -/
theorem readVersion_deleteVersion
    (hinv : st.Inv)
    {c : Version}
    (hcur : st.currentAt path = some c)
    (hne : v ≠ c)
    (hdel : deleteVersion st path (.exact v) mode now = .ok (st', v))
    (hcur' : st'.currentAt path = some c) :
    readVersion st' path .current = readVersion st path .current := by
  obtain ⟨s, hs, hc⟩ := Option.bind_eq_some_iff.mp hcur
  obtain ⟨s', hs', rfl⟩ := deleteVersion_eq_ok hdel
  rw [hs] at hs'
  cases hs'
  have hok := hinv.current s (Store.secretByPath_eq_some_iff.mp hs).1
  rw [Store.CurrentOk, hc] at hok
  obtain ⟨r, hr, hslot, -⟩ := hok
  have hother : r.slot ≠ (s.id, v) := by
    rw [hslot]
    intro heq
    exact hne (congrArg Prod.snd heq).symm
  have hfind : (removeVersion st (s.id, v) mode).secretByPath path = some s := hs
  have hrow : r ∈ (removeVersion st (s.id, v) mode).versions.rows :=
    (mem_removeVersion_other hother).mpr hr
  have hs'' := secretByPath_pointCurrent_self hfind
    ((removeVersion st (s.id, v) mode).maxActive s.id) now.seconds
  rw [Store.currentAt, hs''] at hcur'
  rw [readVersion_current_eq hs hc hr hslot, readVersion_current_eq hs'' hcur' hrow hslot]

end Deletion

/--
In every reachable store, deleting a version other than the current one leaves
the pointer and what it resolves to as they were if and only if no other active
version is numbered above the current one.
-/
theorem deletion_keeps_current_iff
    (ops : List StoreOp) {path : SecretPath} {c v w : Version} {mode : DeleteMode}
    {now : UnixTime} {st' : Store}
    (hcur : (run StoreOp.step Store.empty ops).currentAt path = some c)
    (hne : v ≠ c)
    (hdel :
      deleteVersion (run StoreOp.step Store.empty ops) path (.exact v) mode now =
        .ok (st', w)) :
    (st'.currentAt path = some c ∧
        readVersion st' path .current =
          readVersion (run StoreOp.step Store.empty ops) path .current) ↔
      ∀ u, (run StoreOp.step Store.empty ops).ActiveAt path u → u ≠ v →
        u.toNat ≤ c.toNat := by
  have hinv := reachable_inv ops
  obtain rfl := deleteVersion_exact hdel
  obtain ⟨s, hs, hc⟩ := Option.bind_eq_some_iff.mp hcur
  have hok := hinv.current s (Store.secretByPath_eq_some_iff.mp hs).1
  rw [Store.CurrentOk, hc] at hok
  obtain ⟨r, hr, hslot, hactive⟩ := hok
  rw [← maxActive_removeVersion_eq_some_iff hs hr hslot hactive hne,
    ← currentAt_deleteVersion hs hdel]
  constructor
  · exact And.left
  · intro hcur'
    exact ⟨hcur', readVersion_deleteVersion hinv hcur hne hdel hcur'⟩

/-- A sealed version for concrete runs. -/
def sampleSealedVersion (n : Nat) : SealedVersion where
  ciphertext := [UInt8.ofNat n]
  nonce := sampleNonce n
  key := ⟨[1], sampleNonce 1, 1⟩

def versionWrite (n : Nat) : StoreOp :=
  .write samplePath (sampleUuid 5) (sampleTime 100) (sampleSealedVersion n)
    ⟨none, none⟩ (sampleTime 100)

/-- With two versions, the first can be deleted. -/
theorem deletion_keeps_current_sample :
    ∃ st',
      deleteVersion (run StoreOp.step Store.empty [versionWrite 1, versionWrite 2]) samplePath
          (.exact ⟨1, by decide⟩) .soft (sampleTime 200) =
        .ok (st', ⟨1, by decide⟩) ∧
      st'.currentAt samplePath = some ⟨2, by decide⟩ ∧
      ∀ u, (run StoreOp.step Store.empty [versionWrite 1, versionWrite 2]).ActiveAt samplePath u →
        u ≠ ⟨1, by decide⟩ → u.toNat ≤ (⟨2, by decide⟩ : Version).toNat := by
  have hcur : (run StoreOp.step Store.empty [versionWrite 1, versionWrite 2]).currentAt samplePath =
      some ⟨2, by decide⟩ := by
    decide +kernel
  have hrun :
      (deleteVersion (run StoreOp.step Store.empty [versionWrite 1, versionWrite 2]) samplePath
          (.exact ⟨1, by decide⟩) .soft (sampleTime 200)).map
        (fun out => (out.2, out.1.currentAt samplePath, readVersion out.1 samplePath .current)) =
      .ok (⟨1, by decide⟩, some ⟨2, by decide⟩,
        readVersion (run StoreOp.step Store.empty [versionWrite 1, versionWrite 2]) samplePath
          .current) := by
    decide +kernel
  obtain ⟨⟨st', v⟩, hdel, hout⟩ := map_eq_ok.mp hrun
  obtain ⟨rfl, hout⟩ := Prod.mk.inj hout
  obtain ⟨hcur', hread⟩ := Prod.mk.inj hout
  exact ⟨st', hdel, hcur',
    (deletion_keeps_current_iff _ hcur (by decide) hdel).mp ⟨hcur', hread⟩⟩

/-- Three writes and a rollback to the first. -/
def rolledBack : Store :=
  run StoreOp.step Store.empty
    [versionWrite 1, versionWrite 2, versionWrite 3,
      .rollback samplePath firstVersion (sampleTime 200)]

/-- Deleting the second of three versions makes the third current again. -/
theorem deletion_undoes_rollback :
    rolledBack.currentAt samplePath = some ⟨1, by decide⟩ ∧
      ∃ st',
        deleteVersion rolledBack samplePath (.exact ⟨2, by decide⟩) .soft
            (sampleTime 300) =
          .ok (st', ⟨2, by decide⟩) ∧
        st'.currentAt samplePath = some ⟨3, by decide⟩ ∧
        readVersion st' samplePath .current ≠ readVersion rolledBack samplePath .current := by
  have hrun :
      rolledBack.currentAt samplePath = some ⟨1, by decide⟩ ∧
      (deleteVersion rolledBack samplePath (.exact ⟨2, by decide⟩) .soft
          (sampleTime 300)).map
        (fun out => (out.2, out.1.currentAt samplePath,
          decide (readVersion out.1 samplePath .current =
            readVersion rolledBack samplePath .current))) =
      .ok (⟨2, by decide⟩, some ⟨3, by decide⟩, false) := by
    decide +kernel
  obtain ⟨hcur, hrun⟩ := hrun
  obtain ⟨⟨st', v⟩, hdel, hout⟩ := map_eq_ok.mp hrun
  obtain ⟨rfl, hout⟩ := Prod.mk.inj hout
  obtain ⟨hcur', hread⟩ := Prod.mk.inj hout
  exact ⟨hcur, st', hdel, hcur', of_decide_eq_false hread⟩

end Storage
end Secretbae
