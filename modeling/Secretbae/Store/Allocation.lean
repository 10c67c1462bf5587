import Secretbae.Store.Views
import Mathlib.Logic.Function.Basic

/-!
# Writers on separate connections

A database with any number of connections.  `begin_write` takes the write lock
before it reads the highest version (`TransactionBehavior::Immediate`), and the
lock is held until the slot is committed or dropped; a statement that meets the
lock is busy and fails its operation.  `rollback` and `delete_version` are not
transactions: each of their statements is a step of its own, and others may come
in between.

Rows of `secrets` and `secret_versions` never go away (`Store.Extends`), so the
number after the highest is one that was never handed out.
-/

namespace Secretbae
namespace Storage

open Lib Proto Core

/-- What one connection is in the middle of, outside a transaction. -/
inductive Pending where
  | idle
  | pointing (id : Uuid) (target : Version)
  | removing (id : Uuid) (version : Version) (mode : DeleteMode)
  | repointing (id : Uuid)

/-- The connection that holds the write lock, with the slot it reserved. -/
structure Writer (ι : Type) where
  conn : ι
  path : SecretPath
  slot : WriteSlot

/-- A write that was committed. -/
structure Committed where
  path : SecretPath
  secretId : Uuid
  version : Version

/-- The committed state, the write lock, the connections, and every commit so far. -/
structure Db (ι : Type) where
  store : Store
  writer : Option (Writer ι)
  pending : ι → Pending
  history : List Committed

inductive DbEvent (ι : Type) where
  | beginWrite (conn : ι) (path : SecretPath) (freshId : Uuid) (now : UnixTime)
  | commit (conn : ι) (sealed : SealedVersion) (info : WriteMeta) (now : UnixTime)
  | abandon (conn : ι)
  | rollbackSelect (conn : ι) (path : SecretPath) (target : Version)
  | rollbackUpdate (conn : ι) (now : UnixTime)
  | deleteResolve (conn : ι) (path : SecretPath) (selector : VersionSelector)
      (mode : DeleteMode)
  | deleteUpdate (conn : ι)
  | deleteRepoint (conn : ι) (now : UnixTime)
  | rekeyWith (newSealedMaster : SealedMasterKey) (rewrap : Rewrap)
  | importSecret (id : Uuid) (secret : ExportedSecret) (now : UnixTime)

/-- The queries that `rollback` starts with. -/
def rollbackTarget (st : Store) (path : SecretPath) (target : Version) :
    Except StoreError Uuid := do
  let id ← secretId st path
  let r ← okOr (st.versions.find? (id, target)) .notFound
  if r.state.isReadable then .ok id else .error .notFound

section Steps

variable {ι : Type}

def Db.start (st : Store) : Db ι where
  store := st
  writer := none
  pending := fun _ => .idle
  history := []

variable [DecidableEq ι]

/-- The connection goes on to `next`. -/
def Db.turn (db : Db ι) (conn : ι) (next : Pending) : Db ι :=
  { db with pending := Function.update db.pending conn next }

/-- One statement or transaction boundary of one connection. -/
def Db.step (db : Db ι) : DbEvent ι → Db ι
  | .beginWrite conn path freshId now =>
      if db.writer.isSome then db
      else
        match Storage.beginWrite db.store path freshId now with
        | .ok slot => { db with writer := some ⟨conn, path, slot⟩ }
        | .error _ => db
  | .commit conn sealed info now =>
      match db.writer with
      | none => db
      | some w =>
          if w.conn = conn then
            match w.slot.commit sealed info now with
            | .ok (st, v) =>
                { db with
                  store := st
                  writer := none
                  history := ⟨w.path, w.slot.secretId, v⟩ :: db.history }
            | .error _ => { db with writer := none }
          else db
  | .abandon conn =>
      match db.writer with
      | none => db
      | some w => if w.conn = conn then { db with writer := none } else db
  | .rollbackSelect conn path target =>
      match rollbackTarget db.store path target with
      | .ok id => db.turn conn (.pointing id target)
      | .error _ => db
  | .rollbackUpdate conn now =>
      match db.pending conn with
      | .pointing id target =>
          if db.writer.isSome then db.turn conn .idle
          else
            { db.turn conn .idle with
              store := db.store.pointCurrent id (some target) now.seconds }
      | _ => db
  | .deleteResolve conn path selector mode =>
      match resolve db.store path selector with
      | .ok (id, version) => db.turn conn (.removing id version mode)
      | .error _ => db
  | .deleteUpdate conn =>
      match db.pending conn with
      | .removing id version mode =>
          if db.writer.isSome then db.turn conn .idle
          else if db.store.versions.rows.countP (mode.selects (id, version)) = 0 then
            db.turn conn .idle
          else
            { db.turn conn (.repointing id) with
              store := removeVersion db.store (id, version) mode }
      | _ => db
  | .deleteRepoint conn now =>
      match db.pending conn with
      | .repointing id =>
          if db.writer.isSome then db.turn conn .idle
          else
            { db.turn conn .idle with
              store := db.store.pointCurrent id (db.store.maxActive id) now.seconds }
      | _ => db
  | .rekeyWith newSealedMaster rewrap =>
      if db.writer.isSome then db
      else
        match Storage.rekeyWith db.store newSealedMaster rewrap with
        | .ok (st, _) => { db with store := st }
        | .error _ => db
  | .importSecret id secret now =>
      if db.writer.isSome then db
      else
        match importSecretWithId db.store id secret now with
        | .ok st => { db with store := st }
        | .error _ => db

end Steps

/-- Secrets keep their ids and versions their slots. -/
structure Store.Extends (st st' : Store) : Prop where
  secrets : ∀ path s, st.secretByPath path = some s →
    ∃ s', st'.secretByPath path = some s' ∧ s'.id = s.id
  slots : ∀ r ∈ st.versions.rows, ∃ r' ∈ st'.versions.rows, r'.slot = r.slot

section Extends

variable {st st' : Store}

theorem Store.extends_refl
    (st : Store) :
    st.Extends st :=
  ⟨fun _ s hs => ⟨s, hs, rfl⟩, fun r hr => ⟨r, hr, rfl⟩⟩

theorem Store.Extends.trans
    {st'' : Store}
    (h : st.Extends st')
    (h' : st'.Extends st'') :
    st.Extends st'' where
  secrets := by
    intro path s hs
    obtain ⟨s', hs', hid⟩ := h.secrets path s hs
    obtain ⟨s'', hs'', hid'⟩ := h'.secrets path s' hs'
    exact ⟨s'', hs'', hid'.trans hid⟩
  slots := by
    intro r hr
    obtain ⟨r', hr', hslot⟩ := h.slots r hr
    obtain ⟨r'', hr'', hslot'⟩ := h'.slots r' hr'
    exact ⟨r'', hr'', hslot'.trans hslot⟩

theorem extends_pointCurrent
    (st : Store) (id : Uuid) (current : Option Version) (at_ : Int64) :
    st.Extends (st.pointCurrent id current at_) :=
  ⟨secretByPath_pointCurrent _ _ _ (fun _ hs => hs), fun r hr => ⟨r, hr, rfl⟩⟩

theorem extends_removeVersion
    (st : Store) (slot : Uuid × Version) (mode : DeleteMode) :
    st.Extends (removeVersion st slot mode) := by
  refine ⟨fun _ s hs => ⟨s, hs, rfl⟩, ?_⟩
  intro r hr
  have hmem : r.slot ∈ (removeVersion st slot mode).versions.rows.map VersionRow.slot := by
    rw [removeVersion_slots]
    exact List.mem_map.mpr ⟨r, hr, rfl⟩
  exact List.mem_map.mp hmem

theorem extends_rekeyWith
    {sealed : SealedMasterKey} {rewrap : Rewrap} {report : RekeyReport}
    (h : rekeyWith st sealed rewrap = .ok (st', report)) :
    st.Extends st' := by
  obtain ⟨hrows, hsecrets, -⟩ := rekeyWith_eq_ok h
  refine ⟨?_, ?_⟩
  · intro path s hs
    exact ⟨s, by rw [Store.secretByPath, hsecrets]; exact hs, rfl⟩
  · intro r hr
    obtain ⟨r', hr', hrel⟩ := forall₂_mem_left (rewrapRows_forall₂ hrows) hr
    exact ⟨r', hr', hrel.slot⟩

theorem extends_import
    {id : Uuid} {e : ExportedSecret} {now : UnixTime}
    (h : importSecretWithId st id e now = .ok st') :
    st.Extends st' := by
  obtain ⟨⟨rows, -, hrows⟩, hsecrets, -⟩ := importSecretWithId_eq_ok h
  refine ⟨?_, ?_⟩
  · intro path s hs
    obtain ⟨hmem, hpath⟩ := Store.secretByPath_eq_some_iff.mp hs
    exact ⟨s, Store.secretByPath_eq_some_iff.mpr ⟨(hsecrets s).mpr (.inl hmem), hpath⟩, rfl⟩
  · intro r hr
    refine ⟨r, ?_, rfl⟩
    rw [hrows]
    exact List.mem_append_left _ hr

theorem extends_commit
    {path : SecretPath} {freshId : Uuid} {began now : UnixTime} {slot : WriteSlot}
    {sealed : SealedVersion} {info : WriteMeta} {v : Version}
    (hbegin : beginWrite st path freshId began = .ok slot)
    (hcommit : slot.commit sealed info now = .ok (st', v)) :
    st.Extends st' := by
  refine ⟨commit_secrets hbegin hcommit, ?_⟩
  intro r hr
  rcases commit_rows hbegin hcommit hr with hr' | hr'
  · exact ⟨r, hr', rfl⟩
  · exact ⟨r.destroy, hr', rfl⟩

end Extends

section Runs

variable {ι : Type}

/-- The commit is still on record: its secret at its path, its version in its slot. -/
def Committed.Recorded (c : Committed) (st : Store) : Prop :=
  (∃ s, st.secretByPath c.path = some s ∧ s.id = c.secretId) ∧
    ∃ r ∈ st.versions.rows, r.slot = (c.secretId, c.version)

/-- What a commit has to do with one that went before it. -/
def Committed.Follows (later earlier : Committed) : Prop :=
  (later.path = earlier.path ↔ later.secretId = earlier.secretId) ∧
    (later.path = earlier.path → earlier.version.toNat < later.version.toNat)

/-- The invariant of a database. -/
structure Db.Ok (db : Db ι) : Prop where
  recorded : ∀ c ∈ db.history, c.Recorded db.store
  ordered : db.history.Pairwise Committed.Follows
  reserved : ∀ w, db.writer = some w →
    ∃ freshId began, beginWrite db.store w.path freshId began = .ok w.slot

theorem Committed.Recorded.extends
    {c : Committed} {st st' : Store}
    (h : c.Recorded st)
    (hext : st.Extends st') :
    c.Recorded st' := by
  obtain ⟨⟨s, hs, hid⟩, r, hr, hslot⟩ := h
  obtain ⟨s', hs', hid'⟩ := hext.secrets c.path s hs
  obtain ⟨r', hr', hslot'⟩ := hext.slots r hr
  exact ⟨⟨s', hs', hid'.trans hid⟩, r', hr', hslot'.trans hslot⟩

/-- Two secrets on record share a path exactly when they share an id. -/
theorem Committed.path_eq_iff
    {c d : Committed} {st : Store}
    (hc : c.Recorded st)
    (hd : d.Recorded st) :
    c.path = d.path ↔ c.secretId = d.secretId := by
  obtain ⟨⟨s, hs, hsid⟩, -⟩ := hc
  obtain ⟨⟨q, hq, hqid⟩, -⟩ := hd
  obtain ⟨hmem, hpath⟩ := Store.secretByPath_eq_some_iff.mp hs
  obtain ⟨hqmem, hqpath⟩ := Store.secretByPath_eq_some_iff.mp hq
  constructor
  · intro heq
    rw [heq, hq] at hs
    cases hs
    exact hsid.symm.trans hqid
  · intro heq
    have hsq : s = q := st.secrets.eq_of_key_eq hmem hqmem (by rw [hsid, hqid, heq])
    rw [← hpath, ← hqpath, hsq]

/-- A slot is numbered above every version its secret ever had. -/
theorem beginWrite_above
    {st : Store} {path : SecretPath} {freshId : Uuid} {began : UnixTime} {slot : WriteSlot}
    (hbegin : beginWrite st path freshId began = .ok slot)
    {r : VersionRow}
    (hr : r ∈ st.versionsOf slot.secretId) :
    r.version.toNat < slot.version.toNat := by
  obtain ⟨-, hversions, -⟩ := beginWrite_eq_ok hbegin
  have hnumber := beginWrite_version hbegin
  have hle := (foldl_max_ge (st.versionsOf slot.secretId) 0).2 r hr
  rw [Store.highestVersion, Store.versionsOf, hversions] at hnumber
  rw [Store.versionsOf] at hle
  omega

/-- What a commit records. -/
theorem recorded_commit
    {st st' : Store} {path : SecretPath} {freshId : Uuid} {began now : UnixTime}
    {slot : WriteSlot} {sealed : SealedVersion} {info : WriteMeta} {v : Version}
    (hbegin : beginWrite st path freshId began = .ok slot)
    (hcommit : slot.commit sealed info now = .ok (st', v)) :
    Committed.Recorded ⟨path, slot.secretId, v⟩ st' := by
  obtain ⟨s, hs, hid, -⟩ := commit_secret hbegin hcommit
  refine ⟨⟨s, hs, hid⟩, ?_⟩
  obtain ⟨rfl, mid, hmid, rfl⟩ := WriteSlot.commit_eq_ok hcommit
  obtain ⟨-, hrows, -, -⟩ := Store.insertVersion_eq_ok hmid
  refine ⟨slot.row sealed info now, mem_prune_keep ?_ rfl, rfl⟩
  rw [Store.pointCurrent_versions, hrows]
  simp

/-- A commit follows everything on record. -/
theorem follows_commit
    {st st' : Store} {path : SecretPath} {freshId : Uuid} {began now : UnixTime}
    {slot : WriteSlot} {sealed : SealedVersion} {info : WriteMeta} {v : Version}
    {c : Committed}
    (hbegin : beginWrite st path freshId began = .ok slot)
    (hcommit : slot.commit sealed info now = .ok (st', v))
    (hc : c.Recorded st) :
    Committed.Follows ⟨path, slot.secretId, v⟩ c := by
  have hext := extends_commit hbegin hcommit
  have hiff := Committed.path_eq_iff (recorded_commit hbegin hcommit) (hc.extends hext)
  refine ⟨hiff, ?_⟩
  intro heq
  obtain ⟨-, r, hr, hslot⟩ := hc
  have hid : r.secretId = slot.secretId :=
    (congrArg Prod.fst hslot).trans (hiff.mp heq).symm
  have hver : r.version = c.version := congrArg Prod.snd hslot
  have hlt := beginWrite_above hbegin (Store.mem_versionsOf.mpr ⟨hr, hid⟩)
  rw [← hver, (WriteSlot.commit_eq_ok hcommit).1]
  exact hlt

theorem Db.ok_start
    (st : Store) :
    (Db.start st : Db ι).Ok :=
  ⟨fun _ hc => absurd hc List.not_mem_nil, List.Pairwise.nil, fun _ hw => by cases hw⟩

/-- `later` came out of `db`: what it added to the store and to the history. -/
structure Db.Since (db later : Db ι) : Prop where
  ext : db.store.Extends later.store
  history : ∃ new, later.history = new ++ db.history ∧
    ∀ c ∈ new, ∀ r ∈ db.store.versionsOf c.secretId, r.version.toNat < c.version.toNat

theorem Db.since_refl
    (db : Db ι) :
    db.Since db :=
  ⟨db.store.extends_refl, [], rfl, fun _ hc => absurd hc List.not_mem_nil⟩

theorem Db.since_trans
    (db mid later : Db ι)
    (h : db.Since mid)
    (h' : mid.Since later) :
    db.Since later := by
  obtain ⟨hext, new, hnew, habove⟩ := h
  obtain ⟨hext', new', hnew', habove'⟩ := h'
  refine ⟨hext.trans hext', new' ++ new, by rw [hnew', hnew, List.append_assoc], ?_⟩
  intro c hc r hr
  rcases List.mem_append.mp hc with hc | hc
  · obtain ⟨hr, hid⟩ := Store.mem_versionsOf.mp hr
    obtain ⟨r', hr', hslot⟩ := hext.slots r hr
    have hver : r'.version = r.version := congrArg Prod.snd hslot
    rw [← hver]
    exact habove' c hc r'
      (Store.mem_versionsOf.mpr ⟨hr', (congrArg Prod.fst hslot).trans hid⟩)
  · exact habove c hc r hr

variable [DecidableEq ι]

/-- Everything one step can do to the store, the lock and the history. -/
theorem Db.step_cases
    (db : Db ι) (e : DbEvent ι) :
    ((db.step e).store = db.store ∧ (db.step e).history = db.history ∧
      ((db.step e).writer = db.writer ∨ (db.step e).writer = none ∨
        ∃ conn path freshId now slot, db.writer = none ∧
          Storage.beginWrite db.store path freshId now = .ok slot ∧
          (db.step e).writer = some ⟨conn, path, slot⟩)) ∨
    (db.writer = none ∧ (db.step e).writer = none ∧ (db.step e).history = db.history ∧
      db.store.Extends (db.step e).store) ∨
    (∃ w sealed info now v, e = .commit w.conn sealed info now ∧ db.writer = some w ∧
      w.slot.commit sealed info now = .ok ((db.step e).store, v) ∧
      (db.step e).writer = none ∧
      (db.step e).history = ⟨w.path, w.slot.secretId, v⟩ :: db.history) := by
  have hfree : ¬ db.writer.isSome = true → db.writer = none := by
    simp
  cases e with
  | beginWrite conn path freshId now =>
      simp only [Db.step]
      split
      · exact .inl ⟨rfl, rfl, .inl rfl⟩
      rename_i hwriter
      split
      · rename_i slot hbegin
        exact .inl ⟨rfl, rfl,
          .inr (.inr ⟨conn, path, freshId, now, slot, hfree hwriter, hbegin, rfl⟩)⟩
      · exact .inl ⟨rfl, rfl, .inl rfl⟩
  | commit conn sealed info now =>
      simp only [Db.step]
      split
      · exact .inl ⟨rfl, rfl, .inl rfl⟩
      rename_i w hw
      split
      · rename_i hconn
        split
        · rename_i st v hcommit
          refine .inr (.inr ⟨w, sealed, info, now, v, ?_, hw, hcommit, rfl, rfl⟩)
          rw [hconn]
        · exact .inl ⟨rfl, rfl, .inr (.inl rfl)⟩
      · exact .inl ⟨rfl, rfl, .inl rfl⟩
  | abandon conn =>
      simp only [Db.step]
      split
      · exact .inl ⟨rfl, rfl, .inl rfl⟩
      split
      · exact .inl ⟨rfl, rfl, .inr (.inl rfl)⟩
      · exact .inl ⟨rfl, rfl, .inl rfl⟩
  | rollbackSelect conn path target =>
      simp only [Db.step]
      split <;> exact .inl ⟨rfl, rfl, .inl rfl⟩
  | rollbackUpdate conn now =>
      simp only [Db.step]
      split
      · split
        · exact .inl ⟨rfl, rfl, .inl rfl⟩
        · rename_i hwriter
          exact .inr (.inl ⟨hfree hwriter, hfree hwriter, rfl, extends_pointCurrent ..⟩)
      · exact .inl ⟨rfl, rfl, .inl rfl⟩
  | deleteResolve conn path selector mode =>
      simp only [Db.step]
      split <;> exact .inl ⟨rfl, rfl, .inl rfl⟩
  | deleteUpdate conn =>
      simp only [Db.step]
      split
      · split
        · exact .inl ⟨rfl, rfl, .inl rfl⟩
        rename_i hwriter
        split
        · exact .inl ⟨rfl, rfl, .inl rfl⟩
        · exact .inr (.inl ⟨hfree hwriter, hfree hwriter, rfl, extends_removeVersion ..⟩)
      · exact .inl ⟨rfl, rfl, .inl rfl⟩
  | deleteRepoint conn now =>
      simp only [Db.step]
      split
      · split
        · exact .inl ⟨rfl, rfl, .inl rfl⟩
        · rename_i hwriter
          exact .inr (.inl ⟨hfree hwriter, hfree hwriter, rfl, extends_pointCurrent ..⟩)
      · exact .inl ⟨rfl, rfl, .inl rfl⟩
  | rekeyWith newSealedMaster rewrap =>
      simp only [Db.step]
      split
      · exact .inl ⟨rfl, rfl, .inl rfl⟩
      rename_i hwriter
      split
      · rename_i st report hrekey
        exact .inr (.inl ⟨hfree hwriter, hfree hwriter, rfl, extends_rekeyWith hrekey⟩)
      · exact .inl ⟨rfl, rfl, .inl rfl⟩
  | importSecret id secret now =>
      simp only [Db.step]
      split
      · exact .inl ⟨rfl, rfl, .inl rfl⟩
      rename_i hwriter
      split
      · rename_i st himport
        exact .inr (.inl ⟨hfree hwriter, hfree hwriter, rfl, extends_import himport⟩)
      · exact .inl ⟨rfl, rfl, .inl rfl⟩

theorem Db.Ok.step
    {db : Db ι}
    (h : db.Ok) (e : DbEvent ι) :
    (db.step e).Ok := by
  obtain ⟨hstore, hhistory, hwriter⟩ | ⟨-, hwriter, hhistory, hext⟩ |
    ⟨w, sealed, info, now, v, -, hw, hcommit, hwriter, hhistory⟩ := db.step_cases e
  · refine ⟨?_, hhistory ▸ h.ordered, ?_⟩
    · rw [hhistory, hstore]
      exact h.recorded
    · intro w hw
      rw [hstore]
      rcases hwriter with heq | hnone | ⟨conn, path, freshId, now, slot, -, hbegin, hsome⟩
      · exact h.reserved w (heq ▸ hw)
      · rw [hnone] at hw
        cases hw
      · rw [hsome] at hw
        cases hw
        exact ⟨freshId, now, hbegin⟩
  · refine ⟨?_, hhistory ▸ h.ordered, ?_⟩
    · rw [hhistory]
      exact fun c hc => (h.recorded c hc).extends hext
    · intro w hw
      rw [hwriter] at hw
      cases hw
  · obtain ⟨freshId, began, hbegin⟩ := h.reserved w hw
    refine ⟨?_, ?_, ?_⟩
    · intro c hc
      rw [hhistory] at hc
      rcases List.mem_cons.mp hc with rfl | hc
      · exact recorded_commit hbegin hcommit
      · exact (h.recorded c hc).extends (extends_commit hbegin hcommit)
    · rw [hhistory]
      refine List.Pairwise.cons ?_ h.ordered
      intro c hc
      exact follows_commit hbegin hcommit (h.recorded c hc)
    · intro w' hw'
      rw [hwriter] at hw'
      cases hw'

theorem Db.Ok.since_step
    {db : Db ι}
    (h : db.Ok) (e : DbEvent ι) :
    db.Since (db.step e) := by
  have hnone : ∀ c ∈ ([] : List Committed), ∀ r ∈ db.store.versionsOf c.secretId,
      r.version.toNat < c.version.toNat := by
    intro c hc
    cases hc
  obtain ⟨hstore, hhistory, -⟩ | ⟨-, -, hhistory, hext⟩ |
    ⟨w, sealed, info, now, v, -, hw, hcommit, -, hhistory⟩ := db.step_cases e
  · exact ⟨hstore ▸ db.store.extends_refl, [], hhistory, hnone⟩
  · exact ⟨hext, [], hhistory, hnone⟩
  · obtain ⟨freshId, began, hbegin⟩ := h.reserved w hw
    refine ⟨extends_commit hbegin hcommit, [⟨w.path, w.slot.secretId, v⟩], hhistory, ?_⟩
    intro c hc r hr
    obtain rfl := List.mem_singleton.mp hc
    rw [(WriteSlot.commit_eq_ok hcommit).1]
    exact beginWrite_above hbegin hr

/-- Past the last version number there is no slot. -/
theorem beginWrite_exhausted
    {st : Store} {path : SecretPath} {s : SecretRow}
    (hs : st.secretByPath path = some s)
    (hlast : st.highestVersion s.id = 2 ^ 32 - 1) (freshId : Uuid) (now : UnixTime) :
    beginWrite st path freshId now = .error (.proto .invalidVersion) := by
  simp [beginWrite, findOrCreate, hs, hlast, Version.new, liftProto, Except.mapError,
    bind, Except.bind]

/--
Allocation of version numbers, from any store and for any interleaving on any
number of connections: commits on one path have one secret id and rising
numbers; a commit's number is above every version its secret had in any earlier
state; no path changes its secret id; while a slot is open nothing but its own
commit changes the store, so one that is abandoned leaves it as it was; and when
the numbers are used up `begin_write` fails and changes nothing.
-/
theorem versions_allocated
    (st : Store) (events events' : List (DbEvent ι)) :
    let db := run Db.step (Db.start st) events
    let later := run Db.step db events'
    later.history.Pairwise Committed.Follows ∧
    (∃ new, later.history = new ++ db.history ∧
      ∀ c ∈ new, ∀ r ∈ db.store.versionsOf c.secretId,
        r.version.toNat < c.version.toNat) ∧
    (∀ path s, db.store.secretByPath path = some s →
      ∃ s', later.store.secretByPath path = some s' ∧ s'.id = s.id) ∧
    (∀ w, db.writer = some w →
      (db.step (.abandon w.conn)).store = db.store ∧
      (db.step (.abandon w.conn)).writer = none ∧
      ∀ e, (∀ sealed info now, e ≠ .commit w.conn sealed info now) →
        (db.step e).store = db.store) ∧
    ∀ path s, db.store.secretByPath path = some s →
      db.store.highestVersion s.id = 2 ^ 32 - 1 →
      ∀ conn freshId now,
        beginWrite db.store path freshId now = .error (.proto .invalidVersion) ∧
        db.step (.beginWrite conn path freshId now) = db := by
  intro db later
  have hok : db.Ok :=
    run_invariant Db.Ok (fun _ => True) (fun _ e _ h => h.step e) (fun _ _ => trivial)
      (Db.ok_start st)
  have hlater : later.Ok :=
    run_invariant Db.Ok (fun _ => True) (fun _ e _ h => h.step e) (fun _ _ => trivial) hok
  have hsince : db.Since later :=
    run_rel Db.Ok (fun _ => True) Db.since_refl Db.since_trans (fun _ e _ h => h.step e)
      (fun _ e _ h => h.since_step e) (fun _ _ => trivial) hok
  refine ⟨hlater.ordered, hsince.history, hsince.ext.secrets, ?_, ?_⟩
  · intro w hw
    refine ⟨by simp [Db.step, hw], by simp [Db.step, hw], ?_⟩
    intro e he
    obtain ⟨hstore, -⟩ | ⟨hnone, -⟩ | ⟨w', sealed, info, now, v, heq, hw', -⟩ := db.step_cases e
    · exact hstore
    · rw [hw] at hnone
      cases hnone
    · rw [hw] at hw'
      cases hw'
      exact absurd heq (he sealed info now)
  · intro path s hs hlast conn freshId now
    have hfail := beginWrite_exhausted hs hlast freshId now
    refine ⟨hfail, ?_⟩
    simp only [Db.step]
    split
    · rfl
    · rw [hfail]

end Runs

end Storage
end Secretbae
