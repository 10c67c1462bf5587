import Secretbae.Store.Elsewhere
import Secretbae.Store.Current
import Secretbae.Store.Retention
import Secretbae.Lib.Register

/-!
# The store as a directory of plaintexts

`Store.plain` forgets ids, ciphertexts and keys: at every path there is a
register of what its versions open to.  A row whose parts are missing or do not
open stands for a value that nobody can read (`none`).

Every operation of the store is one operation of this directory, or none at all.
-/

namespace Secretbae
namespace Storage

open Lib Proto Core

section Plain

variable (P : Primitives) (master : MasterKey)

/-- What the row opens to. -/
def VersionRow.contents (r : VersionRow) : Option Bytes :=
  match r.exportSealed with
  | .ok (some sealed) => (sealed.openAt P master r.binding).toOption
  | _ => none

def VersionRow.cell (r : VersionRow) : Cell (Option Bytes) :=
  match r.state with
  | .active => .live (r.contents P master)
  | .deleted => .hidden (r.contents P master)
  | .destroyed => .gone

/-- The version number `n` of a secret. -/
def Store.cell (st : Store) (id : Uuid) (n : Nat) : Option (Cell (Option Bytes)) :=
  (st.versions.rows.find? fun r => decide ((r.secretId, r.version.toNat) = (id, n))).map
    (VersionRow.cell P master)

def Store.register (st : Store) (s : SecretRow) : Register (Option Bytes) where
  keep := s.maxVersions.toNat
  size := st.highestVersion s.id
  cell := st.cell P master s.id
  current := s.currentVersion.map Version.toNat

/-- The plaintexts of a store under a master key. -/
def Store.plain (st : Store) : Directory SecretPath (Option Bytes) :=
  fun path => (st.secretByPath path).map (st.register P master)

end Plain

section Cells

variable {P : Primitives} {master : MasterKey} {st st' : Store}

theorem Store.cell_eq_some_iff
    {id : Uuid} {n : Nat} {c : Cell (Option Bytes)} :
    st.cell P master id n = some c ↔
      ∃ r ∈ st.versions.rows, r.secretId = id ∧ r.version.toNat = n ∧
        r.cell P master = c := by
  have hunique : (st.versions.rows.map fun r => (r.secretId, r.version.toNat)).Nodup := by
    have hslots := st.versions.unique.map
      (f := fun slot : Uuid × Version => (slot.1, slot.2.toNat)) (by
        rintro ⟨id, v⟩ ⟨id', v'⟩ heq
        obtain ⟨rfl, hnat⟩ := Prod.mk.inj heq
        exact Prod.ext rfl (Version.toNat_inj.mp hnat))
    rw [List.map_map] at hslots
    exact hslots
  unfold Store.cell
  rw [Option.map_eq_some_iff]
  constructor
  · rintro ⟨r, hr, rfl⟩
    obtain ⟨hmem, hkey⟩ := (find?_key_eq_some_iff hunique).mp hr
    obtain ⟨hid, hnat⟩ := Prod.mk.inj hkey
    exact ⟨r, hmem, hid, hnat, rfl⟩
  · rintro ⟨r, hmem, rfl, rfl, rfl⟩
    exact ⟨r, (find?_key_eq_some_iff hunique).mpr ⟨hmem, rfl⟩, rfl⟩

/-- The versions of a secret depend on its rows only. -/
theorem Store.cell_congr
    {id : Uuid}
    (h : ∀ r, r.secretId = id → (r ∈ st'.versions.rows ↔ r ∈ st.versions.rows)) :
    st'.cell P master id = st.cell P master id := by
  funext n
  refine Option.ext fun c => ?_
  rw [Store.cell_eq_some_iff, Store.cell_eq_some_iff]
  constructor
  · rintro ⟨r, hr, hid, hrest⟩
    exact ⟨r, (h r hid).mp hr, hid, hrest⟩
  · rintro ⟨r, hr, hid, hrest⟩
    exact ⟨r, (h r hid).mpr hr, hid, hrest⟩

/-- An entry of one store whose row there is in another what `g` makes of it. -/
theorem Store.cell_map
    {master' : MasterKey} {id : Uuid} {n : Nat}
    {g : Cell (Option Bytes) → Cell (Option Bytes)}
    (hforth : ∀ r ∈ st.versions.rows, r.secretId = id → r.version.toNat = n →
      ∃ r' ∈ st'.versions.rows, r'.slot = r.slot ∧ r'.cell P master' = g (r.cell P master))
    (hback : n ∈ st'.numbers id → n ∈ st.numbers id) :
    st'.cell P master' id n = (st.cell P master id n).map g := by
  cases hcell : st.cell P master id n with
  | some c =>
      obtain ⟨r, hr, rfl, rfl, rfl⟩ := Store.cell_eq_some_iff.mp hcell
      obtain ⟨r', hr', hslot, hg⟩ := hforth r hr rfl rfl
      obtain ⟨hid, hversion⟩ := Prod.mk.inj hslot
      exact Store.cell_eq_some_iff.mpr
        ⟨r', hr', hid, congrArg Version.toNat hversion, hg⟩
  | none =>
      rw [Option.map_none, Option.eq_none_iff_forall_ne_some]
      intro c hc
      obtain ⟨r', hr', hid, hnum, -⟩ := Store.cell_eq_some_iff.mp hc
      obtain ⟨v, a, ⟨r, hr, hslot, -⟩, hv⟩ :=
        hback (hnum ▸ Store.mem_numbers (Store.mem_versionsOf.mpr ⟨hr', hid⟩))
      obtain ⟨hrid, hversion⟩ := Prod.mk.inj hslot
      have hsome : st.cell P master id n = some (r.cell P master) :=
        Store.cell_eq_some_iff.mpr
          ⟨r, hr, hrid, (congrArg Version.toNat hversion).trans hv, rfl⟩
      rw [hcell] at hsome
      cases hsome

/-- Where two stores agree they hold the same plaintexts. -/
theorem Store.AgreeAt.plain_eq
    {path : SecretPath}
    (h : st.AgreeAt st' path) :
    st'.plain P master path = st.plain P master path := by
  unfold Store.plain
  rw [h.secret]
  cases hs : st.secretByPath path with
  | none => rfl
  | some s =>
      have hcell : st'.cell P master s.id = st.cell P master s.id :=
        Store.cell_congr (h.versions s hs)
      simp only [Option.map_some, Store.register, h.highestVersion_eq hs, hcell]

/-- An operation on one path changes the register there. -/
theorem Store.plain_eq_update
    {path : SecretPath} {s' : SecretRow}
    (helse : ∀ q, q ≠ path → st.AgreeAt st' q)
    (hs' : st'.secretByPath path = some s') :
    st'.plain P master =
      Function.update (st.plain P master) path (some (st'.register P master s')) := by
  funext q
  by_cases hq : q = path
  · subst hq
    rw [Function.update_self, Store.plain, hs']
    rfl
  · rw [Function.update_of_ne hq, (helse q hq).plain_eq]

/-- No version is numbered above the highest. -/
theorem Store.bounded_plain
    (st : Store) :
    (st.plain P master).Bounded := by
  intro path r hr n hn
  obtain ⟨s, -, rfl⟩ := Option.map_eq_some_iff.mp hr
  obtain ⟨c, hc⟩ := Option.ne_none_iff_exists'.mp hn
  obtain ⟨row, hrow, hid, rfl, -⟩ := Store.cell_eq_some_iff.mp hc
  exact (foldl_max_ge (st.versionsOf s.id) 0).2 row (Store.mem_versionsOf.mpr ⟨hrow, hid⟩)

theorem VersionRow.cell_of_active
    {r : VersionRow}
    (h : r.state = .active) :
    r.cell P master = .live (r.contents P master) := by
  simp [VersionRow.cell, h]

/-- The live entries are the active versions. -/
theorem Store.live_iff
    {s : SecretRow} {n : Nat} :
    (st.register P master s).Live n ↔
      ∃ r ∈ st.versions.rows, r.secretId = s.id ∧ r.version.toNat = n ∧ r.state = .active := by
  constructor
  · rintro ⟨a, ha⟩
    obtain ⟨r, hr, hid, hn, hcell⟩ := Store.cell_eq_some_iff.mp ha
    refine ⟨r, hr, hid, hn, ?_⟩
    cases hstate : r.state with
    | active => rfl
    | deleted => simp [VersionRow.cell, hstate] at hcell
    | destroyed => simp [VersionRow.cell, hstate] at hcell
  · rintro ⟨r, hr, hid, hn, hactive⟩
    exact ⟨_, Store.cell_eq_some_iff.mpr ⟨r, hr, hid, hn, VersionRow.cell_of_active hactive⟩⟩

theorem Store.plain_of_secret
    {path : SecretPath} {s : SecretRow}
    (hs : st.secretByPath path = some s) :
    st.plain P master path = some (st.register P master s) := by
  rw [Store.plain, hs]
  rfl

end Cells

section Operations

variable {P : Primitives} {master : MasterKey} {st st' : Store} {path : SecretPath}

/-- The version number that a selector names. -/
def VersionSelector.asked : VersionSelector → Option Nat
  | .current => none
  | .exact version => some version.toNat

def DeleteMode.removal : DeleteMode → Removal
  | .soft => .hide
  | .destroy => .destroy

/-- What the operations of a store are in the directory of its plaintexts. -/
abbrev PlainEvent :=
  Event SecretPath (Option Bytes)

abbrev PlainDoes :=
  Directory.Does (K := SecretPath) (α := Option Bytes) defaultMaxVersions.toNat

theorem Store.names_of_pick
    {selector : VersionSelector} {s : SecretRow} {v : Version}
    (h : selector.pick s = some v) :
    (st.register P master s).Names selector.asked v.toNat := by
  cases selector with
  | current =>
      change s.currentVersion.map Version.toNat = some v.toNat
      rw [show s.currentVersion = some v from h]
      rfl
  | exact w =>
      cases h
      rfl

theorem Store.pick_of_names
    {selector : VersionSelector} {s : SecretRow} {v : Version}
    (h : (st.register P master s).Names selector.asked v.toNat) :
    selector.pick s = some v := by
  cases selector with
  | current =>
      obtain ⟨w, hw, hnum⟩ := Option.map_eq_some_iff.mp h
      exact hw.trans (congrArg some (Version.toNat_inj.mp hnum))
  | exact w =>
      exact congrArg some (Version.toNat_inj.mp h)

theorem does_rollback
    {target : Version} {now : UnixTime}
    (h : rollback st path target now = .ok st') :
    PlainDoes (st.plain P master) (.rolledBack path target.toNat) (st'.plain P master) := by
  have helse := fun q hq => agreeAt_rollback (q := q) h hq
  obtain ⟨s, r, hs, hr, hslot, hactive, rfl⟩ := rollback_eq_ok h
  obtain ⟨hid, hversion⟩ := Prod.mk.inj hslot
  rw [Store.plain_eq_update helse (secretByPath_pointCurrent_self hs _ _)]
  exact .rolledBack (Store.plain_of_secret hs)
    (Store.live_iff.mpr ⟨r, hr, hid, congrArg Version.toNat hversion, hactive⟩)

/-- Only an entry that is there is deleted. -/
theorem deleteVersion_finds
    {selector : VersionSelector} {mode : DeleteMode} {now : UnixTime} {v : Version}
    (h : deleteVersion st path selector mode now = .ok (st', v)) :
    ∃ s r, st.secretByPath path = some s ∧ selector.pick s = some v ∧
      r ∈ st.versions.rows ∧ mode.selects (s.id, v) r = true := by
  obtain ⟨⟨id, version⟩, hres, h⟩ := bind_eq_ok.mp h
  obtain ⟨s, hs, rfl, hpick⟩ := resolve_eq_ok.mp hres
  dsimp only at h
  split at h
  · cases h
  rename_i hchanged
  cases h
  obtain ⟨r, hr, hselects⟩ := List.countP_pos_iff.mp (Nat.pos_of_ne_zero hchanged)
  exact ⟨s, r, hs, hpick, hr, hselects⟩

/-- What a deletion makes of the row it selects. -/
theorem DeleteMode.cell_apply
    {mode : DeleteMode} {slot : Uuid × Version} {r : VersionRow}
    (h : mode.selects slot r = true) :
    mode.removal.apply? (r.cell P master) = some ((mode.apply r).cell P master) := by
  cases mode with
  | soft =>
      simp only [DeleteMode.selects, decide_eq_true_eq] at h
      have hcontents : r.softDelete.contents P master = r.contents P master := by
        unfold VersionRow.softDelete
        rw [dif_pos h.2]
        rfl
      have hstate : r.softDelete.state = .deleted := by
        unfold VersionRow.softDelete
        rw [dif_pos h.2]
      simp only [VersionRow.cell, DeleteMode.apply, hstate, h.2, hcontents]
      rfl
  | destroy =>
      simp only [DeleteMode.selects, decide_eq_true_eq] at h
      have hcell : (DeleteMode.destroy.apply r).cell P master = .gone := rfl
      rw [hcell]
      cases hstate : r.state with
      | active => simp only [VersionRow.cell, hstate]; rfl
      | deleted => simp only [VersionRow.cell, hstate]; rfl
      | destroyed => exact absurd hstate h.2

theorem cell_removeVersion
    {s : SecretRow} {v : Version} {mode : DeleteMode} {r : VersionRow}
    (hr : r ∈ st.versions.rows)
    (hselects : mode.selects (s.id, v) r = true) :
    (removeVersion st (s.id, v) mode).cell P master s.id =
      Function.update (st.cell P master s.id) v.toNat (some ((mode.apply r).cell P master)) := by
  have hslot := DeleteMode.slot_of_selects hselects
  funext n
  by_cases hn : n = v.toNat
  · subst hn
    rw [Function.update_self]
    refine Store.cell_eq_some_iff.mpr ⟨mode.apply r, ?_, ?_, ?_, rfl⟩
    · exact mem_removeVersion.mpr ⟨r, hr, if_pos hselects⟩
    · exact congrArg Prod.fst ((mode.apply_slot r).trans hslot)
    · exact congrArg (fun slot => slot.2.toNat) ((mode.apply_slot r).trans hslot)
  · rw [Function.update_of_ne hn]
    refine Option.ext fun c => ?_
    rw [Store.cell_eq_some_iff, Store.cell_eq_some_iff]
    have hother : ∀ q : VersionRow, q.version.toNat = n → q.slot ≠ (s.id, v) := by
      rintro q rfl heq
      exact hn (congrArg (fun slot => slot.2.toNat) heq)
    constructor
    · rintro ⟨q, hq, hid, hqn, hcell⟩
      exact ⟨q, (mem_removeVersion_other (hother q hqn)).mp hq, hid, hqn, hcell⟩
    · rintro ⟨q, hq, hid, hqn, hcell⟩
      exact ⟨q, (mem_removeVersion_other (hother q hqn)).mpr hq, hid, hqn, hcell⟩

/-- The maximum over the active rows is the newest live entry. -/
theorem Store.atNewest
    {s : SecretRow}
    (h : s.currentVersion = st.maxActive s.id) :
    (st.register P master s).AtNewest := by
  have hcurrent : (st.register P master s).current = (st.maxActive s.id).map Version.toNat :=
    congrArg (Option.map Version.toNat) h
  unfold Register.AtNewest
  rw [hcurrent]
  cases hmax : st.maxActive s.id with
  | none =>
      intro n hlive
      obtain ⟨r, hr, hid, -, hactive⟩ := Store.live_iff.mp hlive
      exact Store.maxActive_eq_none hmax r hr hid hactive
  | some v =>
      obtain ⟨⟨r, hr, hslot, hactive⟩, hall⟩ := Store.maxActive_eq_some_iff.mp hmax
      obtain ⟨hid, hversion⟩ := Prod.mk.inj hslot
      refine ⟨Store.live_iff.mpr ⟨r, hr, hid, congrArg Version.toNat hversion, hactive⟩, ?_⟩
      rintro n hlive
      obtain ⟨q, hq, hqid, rfl, hqactive⟩ := Store.live_iff.mp hlive
      exact hall q hq hqid hqactive

/-- The highest version depends on the version numbers only. -/
theorem Store.highestVersion_le
    {id : Uuid} {m : Nat}
    (h : ∀ n ∈ st.numbers id, n ≤ m) :
    st.highestVersion id ≤ m := by
  unfold Store.highestVersion
  rcases foldl_max_mem (st.versionsOf id) 0 with hzero | ⟨r, hr, heq⟩
  · rw [hzero]
    exact Nat.zero_le m
  · rw [heq]
    exact h _ (Store.mem_numbers hr)

theorem Store.highestVersion_eq_of_numbers
    {id : Uuid}
    (h : st'.numbers id = st.numbers id) :
    st'.highestVersion id = st.highestVersion id := by
  refine le_antisymm (Store.highestVersion_le ?_) (Store.highestVersion_le ?_)
  · intro n hn
    exact Store.numbers_le_highest (h ▸ hn)
  · intro n hn
    exact Store.numbers_le_highest (h.symm ▸ hn)

theorem does_deleteVersion
    {selector : VersionSelector} {mode : DeleteMode} {now : UnixTime} {v : Version}
    (h : deleteVersion st path selector mode now = .ok (st', v)) :
    PlainDoes (st.plain P master) (.removed path selector.asked mode.removal v.toNat)
      (st'.plain P master) := by
  have helse := fun q hq => agreeAt_deleteVersion (q := q) h hq
  obtain ⟨s, r, hs, hpick, hr, hselects⟩ := deleteVersion_finds h
  obtain ⟨s', hs', rfl⟩ := deleteVersion_eq_ok h
  cases hs.symm.trans hs'
  have hslot := DeleteMode.slot_of_selects hselects
  have hremoved : (removeVersion st (s.id, v) mode).secretByPath path = some s := hs
  rw [Store.plain_eq_update helse (secretByPath_pointCurrent_self hremoved _ _)]
  refine .removed (Store.plain_of_secret hs) (Store.names_of_pick hpick) ?_
  refine ⟨rfl, ?_, ?_, ?_⟩
  · exact Store.highestVersion_eq_of_numbers (numbers_removeVersion st _ mode s.id)
  · exact ⟨r.cell P master, (mode.apply r).cell P master,
      Store.cell_eq_some_iff.mpr ⟨r, hr, congrArg Prod.fst hslot,
        congrArg (fun slot => slot.2.toNat) hslot, rfl⟩,
      DeleteMode.cell_apply hselects, cell_removeVersion hr hselects⟩
  · exact Store.atNewest rfl

end Operations

section Writes

variable {P : Primitives} {st st' : Store} {path : SecretPath} {freshId : Uuid}
variable {began now : UnixTime} {slot : WriteSlot} {sealed : SealedVersion} {info : WriteMeta}
variable {v : Version} {master : MasterKey}

/-- What retention destroys when the window may be empty. -/
theorem retired_iff
    {id : Uuid} {keep : Version} {m : UInt32} {r : VersionRow} :
    (¬ keep.get.toNat < m.toNat ∧ outOfWindow id keep (keep.get - m) r) ↔
      r.secretId = id ∧ r.state ≠ .destroyed ∧ r.version ≠ keep ∧
        r.version.toNat + m.toNat ≤ keep.toNat := by
  simp only [outOfWindow, decide_eq_true_eq]
  have hsub : ¬ keep.get.toNat < m.toNat →
      (keep.get - m).toNat = keep.get.toNat - m.toNat := by
    intro hle
    exact UInt32.toNat_sub_of_le _ _ (UInt32.le_iff_toNat_le.mpr (by omega))
  unfold Version.toNat
  constructor
  · rintro ⟨hle, hid, hstate, hne, hold⟩
    rw [hsub hle] at hold
    exact ⟨hid, hstate, hne, by omega⟩
  · rintro ⟨hid, hstate, hne, hle⟩
    have hkeep : ¬ keep.get.toNat < m.toNat := by omega
    refine ⟨hkeep, hid, hstate, hne, ?_⟩
    rw [hsub hkeep]
    omega

theorem VersionRow.contents_of_holds
    {r : VersionRow} {s : SealedVersion}
    (h : r.Holds s) :
    r.contents P master = (s.openAt P master r.binding).toOption := by
  rw [VersionRow.contents, VersionRow.exportSealed_of_holds h]

/-- What retention leaves of the entry of a row. -/
theorem cell_retained
    {id : Uuid} {r : VersionRow} {keep : Version} {m : UInt32}
    (hid : r.secretId = id)
    (hne : r.version ≠ keep) :
    (if ¬ keep.get.toNat < m.toNat ∧ outOfWindow id keep (keep.get - m) r
      then r.destroy else r).cell P master =
      if r.version.toNat + m.toNat ≤ keep.toNat then .gone else r.cell P master := by
  by_cases hle : r.version.toNat + m.toNat ≤ keep.toNat
  · rw [if_pos hle]
    by_cases hstate : r.state = .destroyed
    · rw [if_neg fun h => (retired_iff.mp h).2.1 hstate]
      simp only [VersionRow.cell, hstate]
    · rw [if_pos (retired_iff.mpr ⟨hid, hstate, hne, hle⟩)]
      rfl
  · rw [if_neg hle, if_neg fun h => hle (retired_iff.mp h).2.2.2]

/-- The entries of a secret after a write. -/
theorem cell_commit
    (hbegin : beginWrite st path freshId began = .ok slot)
    (hcommit : slot.commit sealed info now = .ok (st', v)) (n : Nat) :
    st'.cell P master slot.secretId n =
      if n = slot.version.toNat then
        some (.live (sealed.openAt P master slot.binding).toOption)
      else if n + slot.maxVersions.toNat ≤ slot.version.toNat then
        (st.cell P master slot.secretId n).map fun _ => .gone
      else st.cell P master slot.secretId n := by
  by_cases hn : n = slot.version.toNat
  · rw [if_pos hn]
    refine Store.cell_eq_some_iff.mpr ⟨slot.row sealed info now, ?_, rfl, hn.symm, ?_⟩
    · refine (mem_commit hbegin hcommit).mpr ⟨_, .inr rfl, if_neg ?_⟩
      exact fun h => (retired_iff.mp h).2.2.1 rfl
    · rw [VersionRow.cell_of_active rfl,
        VersionRow.contents_of_holds (slot.row_holds sealed info now)]
      rfl
  · rw [if_neg hn]
    have hkept : st'.cell P master slot.secretId n = (st.cell P master slot.secretId n).map
        fun c => if n + slot.maxVersions.toNat ≤ slot.version.toNat then .gone else c := by
      refine Store.cell_map ?_ ?_
      · rintro r hr hid rfl
        refine ⟨_, (mem_commit hbegin hcommit).mpr ⟨r, .inl hr, rfl⟩, ?_, ?_⟩
        · split <;> rfl
        · exact cell_retained hid fun hversion => hn (congrArg Version.toNat hversion)
      · intro hmem
        rw [numbers_commit hbegin hcommit] at hmem
        exact hmem.resolve_left hn
    rw [hkept]
    split
    · rfl
    · exact Option.map_id'

theorem highestVersion_commit
    (hbegin : beginWrite st path freshId began = .ok slot)
    (hcommit : slot.commit sealed info now = .ok (st', v)) :
    st'.highestVersion slot.secretId = slot.version.toNat := by
  have hversion := beginWrite_version hbegin
  obtain ⟨-, htx, -⟩ := beginWrite_eq_ok hbegin
  have hnumbers : slot.tx.numbers slot.secretId = st.numbers slot.secretId :=
    (Store.numbers_eq_of_rows fun r _ => by rw [htx]).1
  have hall := numbers_commit hbegin hcommit
  refine le_antisymm (Store.highestVersion_le ?_) (Store.numbers_le_highest ?_)
  · intro n hn
    rw [hall] at hn
    rcases hn with rfl | hn
    · exact le_rfl
    · have hle := Store.numbers_le_highest (hnumbers ▸ hn)
      omega
  · rw [hall]
    exact .inl rfl

/-- The row of the secret that was written. -/
theorem commit_row
    (hbegin : beginWrite st path freshId began = .ok slot)
    (hcommit : slot.commit sealed info now = .ok (st', v)) :
    ∃ s, st'.secretByPath path = some s ∧ s.id = slot.secretId ∧
      s.maxVersions = slot.maxVersions ∧ s.currentVersion = some slot.version := by
  obtain ⟨q, hq, hpath, hid, hmax⟩ := beginWrite_window hbegin
  obtain ⟨-, mid, hmid, rfl⟩ := WriteSlot.commit_eq_ok hcommit
  obtain ⟨-, -, hsecrets, -⟩ := Store.insertVersion_eq_ok hmid
  have hfound : mid.secretByPath path = some q := by
    rw [Store.secretByPath_eq_some_iff, hsecrets]
    exact ⟨hq, hpath⟩
  refine ⟨{ q with currentVersion := some slot.version, updatedAt := now.seconds },
    ?_, hid, hmax, rfl⟩
  rw [Store.secretByPath, prune_secrets, ← hid]
  exact secretByPath_pointCurrent_self hfound _ now.seconds

/-- The register that a write finds, or makes. -/
theorem beginWrite_register
    (hbegin : beginWrite st path freshId began = .ok slot) :
    ∃ r, (st.plain P master path).getD (.fresh defaultMaxVersions.toNat) = r ∧
      r.keep = slot.maxVersions.toNat ∧ r.size + 1 = slot.version.toNat ∧
      r.cell = st.cell P master slot.secretId := by
  have hversion := beginWrite_version hbegin
  obtain ⟨q, hq, hqpath, -, hqmax⟩ := beginWrite_window hbegin
  obtain ⟨-, htx, ⟨s, hs, heq, hid, hmax⟩ | ⟨hnone, hid, hfree, hrows⟩⟩ := beginWrite_eq_ok hbegin
  · refine ⟨st.register P master s, ?_, congrArg UInt32.toNat hmax.symm, ?_, ?_⟩
    · rw [Store.plain_of_secret hs, Option.getD_some]
    · rw [hversion, heq, hid]
      rfl
    · rw [hid]
      rfl
  · -- No version can belong to an id that no secret has.
    have hempty : ∀ r ∈ st.versions.rows, r.secretId ≠ slot.secretId := by
      intro r hr hrid
      obtain ⟨s, hs, hsid⟩ := st.versionRefs r hr
      exact hfree s hs (hsid.trans (hrid.trans hid))
    have hmax : slot.maxVersions = defaultMaxVersions := by
      rw [hrows, List.mem_append, List.mem_singleton] at hq
      rcases hq with hq | rfl
      · have hsome := Store.secretByPath_eq_some_iff.mpr ⟨hq, hqpath⟩
        rw [hnone] at hsome
        cases hsome
      · exact hqmax.symm
    have hzero : slot.tx.highestVersion slot.secretId = 0 := by
      refine Nat.le_zero.mp (Store.highestVersion_le ?_)
      rintro n ⟨w, a, ⟨r, hr, hslot, -⟩, -⟩
      rw [htx] at hr
      exact absurd (congrArg Prod.fst hslot) (hempty r hr)
    refine ⟨.fresh defaultMaxVersions.toNat, ?_, congrArg UInt32.toNat hmax.symm, ?_, ?_⟩
    · rw [Store.plain, hnone]
      rfl
    · rw [hversion, hzero]
      rfl
    · funext n
      refine (Option.eq_none_iff_forall_ne_some.mpr ?_).symm
      intro c hc
      obtain ⟨r, hr, hrid, -⟩ := Store.cell_eq_some_iff.mp hc
      exact hempty r hr hrid

/-- A write appends to the register at its path, which it creates if it has to. -/
theorem does_write
    (hP : AeadCorrect P)
    {vault vault' : Vault} {draws : SealDraws} {plaintext : Bytes}
    (h : vault.write P path freshId began draws plaintext info now = .ok (vault', v)) :
    PlainDoes (vault.store.plain P vault.master) (.wrote path v.toNat (some plaintext))
      (vault'.store.plain P vault'.master) := by
  have helse := fun q hq => agreeAt_write (q := q) h hq
  obtain ⟨slot, sealed, hbegin, hseal, hcommit, hmaster, -⟩ := Vault.write_eq_ok h
  obtain ⟨s', hs', hid, hmax, hcurrent⟩ := commit_row hbegin hcommit
  obtain ⟨r, hr, hkeep, hsize, hcell⟩ :
      ∃ r, (vault.store.plain P vault.master path).getD (.fresh defaultMaxVersions.toNat) = r ∧ _ :=
    beginWrite_register hbegin
  obtain ⟨rfl, -⟩ := WriteSlot.commit_eq_ok hcommit
  have hopen := SealedVersion.open_seal hP hseal
  have hregister : vault'.store.register P vault.master s' = r.write (some plaintext) := by
    unfold Store.register Register.write
    rw [hid, hmax, hcurrent, highestVersion_commit hbegin hcommit, hkeep, hsize, hcell]
    congr 1
    funext n
    rw [cell_commit hbegin hcommit, hopen]
    rfl
  rw [hmaster, Store.plain_eq_update helse hs', hregister, ← hsize]
  exact .wrote hr _

end Writes

section Reads

variable {P : Primitives} {master : MasterKey} {st st' : Store} {path : SecretPath}

/-- What is read is an entry of the register. -/
theorem does_read
    {selector : VersionSelector} {stored : StoredVersion} {plaintext : Bytes}
    (hread : readVersion st path selector = .ok stored)
    (hopen : stored.sealed.openAt P master stored.binding = .ok plaintext) :
    PlainDoes (st.plain P master)
      (.read path selector.asked stored.info.version.toNat (some plaintext))
      (st.plain P master) := by
  obtain ⟨⟨id, v⟩, hres, hread⟩ := bind_eq_ok.mp hread
  obtain ⟨s, hs, rfl, hpick⟩ := resolve_eq_ok.mp hres
  obtain ⟨r, hfound, hbuild⟩ := bind_eq_ok.mp hread
  obtain ⟨hr, hslot⟩ := Table.find?_eq_some_iff.mp (okOr_eq_ok.mp hfound)
  obtain ⟨hid, hversion⟩ := Prod.mk.inj hslot
  obtain ⟨hactive, hholds, hbinding, hinfo, -⟩ := buildStoredVersion_eq_ok hbuild
  have hslotBinding : stored.binding = r.binding := by
    rw [hbinding, ← hid, ← hversion]
    rfl
  rw [hinfo]
  refine .read (Store.plain_of_secret hs) (Store.names_of_pick hpick) ?_
  refine Store.cell_eq_some_iff.mpr ⟨r, hr, hid, congrArg Version.toNat hversion, ?_⟩
  rw [VersionRow.cell_of_active hactive, VersionRow.contents_of_holds hholds, ← hslotBinding,
    hopen]
  rfl

/-- Nothing is seen of tags and of times. -/
theorem Store.Touched.plain_eq
    (h : st.Touched st') :
    st'.plain P master = st.plain P master := by
  obtain ⟨f, hf, hrows, hversions, -⟩ := h
  funext p
  have hregister : ∀ s, st'.register P master (f s) = st.register P master s := by
    intro s
    obtain ⟨hid, -, hcurrent, hmax⟩ := hf s
    unfold Store.register Store.highestVersion Store.versionsOf Store.cell
    rw [hid, hcurrent, hmax, hversions]
  have hsecret : st'.secretByPath p = (st.secretByPath p).map f := by
    refine Option.ext fun s => ?_
    rw [Store.secretByPath_eq_some_iff, Option.map_eq_some_iff, hrows, List.mem_map]
    constructor
    · rintro ⟨⟨s₀, hs₀, rfl⟩, hpath⟩
      exact ⟨s₀, Store.secretByPath_eq_some_iff.mpr ⟨hs₀, (hf s₀).2.1.symm.trans hpath⟩, rfl⟩
    · rintro ⟨s₀, hs₀, rfl⟩
      obtain ⟨hmem, hpath⟩ := Store.secretByPath_eq_some_iff.mp hs₀
      exact ⟨⟨s₀, hmem, rfl⟩, (hf s₀).2.1.trans hpath⟩
  rw [Store.plain, Store.plain, hsecret, Option.map_map]
  congr 1
  funext s
  exact hregister s

/-- Only a row with all of its parts is exported. -/
theorem VersionRow.holds_of_exportSealed
    {r : VersionRow} {s : SealedVersion}
    (h : r.exportSealed = .ok (some s)) :
    r.Holds s := by
  unfold VersionRow.exportSealed at h
  split at h
  · rename_i nonce ciphertext dekNonce wrappedDek h1 h2 h3 h4
    obtain ⟨n, hn, h⟩ := bind_eq_ok.mp h
    obtain ⟨dn, hdn, h⟩ := bind_eq_ok.mp h
    cases h
    rw [Nonce.fromSlice_eq_ok_iff.mp (liftCrypto_eq_ok.mp hn)] at h1
    rw [Nonce.fromSlice_eq_ok_iff.mp (liftCrypto_eq_ok.mp hdn)] at h3
    exact ⟨h1, h2, h3, h4, rfl⟩
  · cases h

theorem VersionRow.contents_eq_none
    {r : VersionRow}
    (h : ¬ ∃ s, r.Holds s) :
    r.contents P master = none := by
  unfold VersionRow.contents
  split
  · rename_i s hs
    exact absurd ⟨s, VersionRow.holds_of_exportSealed hs⟩ h
  · rfl

/-- The other parts of a row that has been given another key. -/
theorem VersionRow.holds_of_withKey
    {r : VersionRow} {key key' : WrappedKey} {s : SealedVersion}
    (hkey : r.wrappedKey = .ok key)
    (h : (r.withKey key').Holds s) :
    r.Holds { s with key := key } := by
  unfold VersionRow.wrappedKey at hkey
  split at hkey
  · rename_i dekNonce wrappedDek h3 h4
    obtain ⟨dn, hdn, hkey⟩ := bind_eq_ok.mp hkey
    cases hkey
    rw [Nonce.fromSlice_eq_ok_iff.mp (liftCrypto_eq_ok.mp hdn)] at h3
    exact ⟨h.1, h.2.1, h3, h4, rfl⟩
  · cases hkey

theorem Rewrapped.cell_eq
    (hP : AeadCorrect P)
    {draws : Nat → Option Nonce} {successor : MasterKey} {generation : UInt32}
    {r r' : VersionRow}
    (h : Rewrapped (rewrapWith P draws master successor generation) r r') :
    r'.cell P successor = r.cell P master := by
  have hstate := h.state
  rcases h with ⟨hd, rfl⟩ | ⟨-, i, h⟩
  · simp only [VersionRow.cell, hd]
  · obtain ⟨key, key', hkey, hkey', rfl⟩ := rewrapRow_eq_ok h
    have hcontents : (r.withKey key').contents P successor = r.contents P master := by
      by_cases hholds : ∃ s, r.Holds s
      · obtain ⟨s, hs⟩ := hholds
        have hread := VersionRow.wrappedKey_of_holds hs
        rw [hkey] at hread
        cases hread
        rw [VersionRow.contents_of_holds (hs.withKey key'), VersionRow.contents_of_holds hs]
        exact congrArg Except.toOption
          (SealedVersion.open_rewrap hP (liftCrypto_eq_ok.mp hkey'))
      · rw [VersionRow.contents_eq_none hholds, VersionRow.contents_eq_none]
        rintro ⟨s, hs⟩
        exact hholds ⟨_, VersionRow.holds_of_withKey hkey hs⟩
    simp only [VersionRow.cell, hstate, hcontents]

/-- A rotation reseals the data keys, so each row opens as it did. -/
theorem plain_rekeyWith
    (hP : AeadCorrect P)
    {sealed : SealedMasterKey} {draws : Nat → Option Nonce} {successor : MasterKey}
    {generation : UInt32} {report : RekeyReport}
    (h : rekeyWith st sealed (rewrapWith P draws master successor generation) =
      .ok (st', report)) :
    st'.plain P successor = st.plain P master := by
  have hnumbers := fun id => (numbers_rekeyWith h id).1
  obtain ⟨hrows, hsecrets, -⟩ := rekeyWith_eq_ok h
  have hall := rewrapRows_forall₂ hrows
  have hcell : ∀ id, st'.cell P successor id = st.cell P master id := by
    intro id
    funext n
    rw [Store.cell_map (g := fun c => c) ?_ fun hn => hnumbers id ▸ hn]
    · exact Option.map_id'
    · intro r hr _ _
      obtain ⟨r', hr', hrel⟩ := forall₂_mem_left hall hr
      exact ⟨r', hr', hrel.slot, hrel.cell_eq hP⟩
  have hregister : ∀ s, st'.register P successor s = st.register P master s := by
    intro s
    unfold Store.register
    rw [Store.highestVersion_eq_of_numbers (hnumbers s.id), hcell]
  funext p
  rw [Store.plain, Store.plain, Store.secretByPath, Store.secretByPath, hsecrets]
  congr 1
  funext s
  exact hregister s

end Reads

end Storage
end Secretbae
