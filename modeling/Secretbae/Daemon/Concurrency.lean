import Secretbae.Daemon.Handlers

/-!
# Handlers in any interleaving

`Agree` is kept by every critical section under the keys in use, and a rotation
hands the database over to its successor, so every handler is `Safe`.  The rule
`good_of_run` then gives `daemon_run`: after any clear run of any number of
handlers, keys and database agree again.

Clear means that no handler updates the database under the keys it has read
between a rotation's commit and the adoption of its successor.  Nothing in the
daemon prevents that: `rekey` releases both locks in between.
-/

namespace Secretbae
namespace Daemon

open Lib Proto Core Audit Storage

section Safe

variable {P : Primitives} {backend : KeyfileSeal}

/-- A task that can be run from its beginning. -/
structure Fresh (P : Primitives) (backend : KeyfileSeal) (task : Task P) : Prop where
  owes : task.owes = none
  safe : task.Safe (Agree P backend) none

theorem fresh_done :
    Fresh P backend .done :=
  ⟨rfl, trivial⟩

/-- A critical section under a guard that only reads. -/
theorem fresh_looking
    {next : KeyMaterial P → Database → Task P}
    (hnext : ∀ keys db, Fresh P backend (next keys db)) :
    Fresh P backend
      (.readLock fun keys => .lock <| .look fun db => .unlock <| .readUnlock <| next keys db) :=
  ⟨rfl, fun keys => ⟨rfl, fun db => ⟨(hnext keys db).owes, (hnext keys db).safe⟩⟩⟩

/-- A critical section under a guard that keeps the agreement. -/
theorem fresh_updating
    {f : KeyMaterial P → Database → Database} {next : KeyMaterial P → Database → Task P}
    (hkeep : ∀ keys db, Agree P backend keys db → Agree P backend keys (f keys db))
    (hnext : ∀ keys db, Fresh P backend (next keys db)) :
    Fresh P backend
      (.readLock fun keys =>
        .lock <| .update (f keys) fun db => .unlock <| .readUnlock <| next keys db) := by
  refine ⟨rfl, fun keys => ⟨rfl, fun db => ⟨?_, (hnext keys db).safe⟩⟩⟩
  intro hagree
  have howes : Prog.owes (.unlock <| .readUnlock <| next keys db) = none :=
    (hnext keys db).owes
  rw [howes]
  exact hkeep keys db hagree

theorem fresh_recordDenial
    (request : Request) (path : Option SecretPath) (denied : Denied) :
    Fresh P backend (recordDenial P request path denied) :=
  fresh_updating (fun _ _ h => h.append _) (fun _ _ => fresh_done)

theorem fresh_record
    (request : Request) (caller : Authenticated) (action : Action)
    (path : Option SecretPath) (version : Option Version) :
    Fresh P backend (record P request caller action path version) :=
  fresh_updating (fun _ _ h => h.append _) (fun _ _ => fresh_done)

theorem fresh_authorize
    {request : Request} {path : Option SecretPath} {gate : Gate}
    {next : Authenticated → Task P}
    (hnext : ∀ caller, Fresh P backend (next caller)) :
    Fresh P backend (authorize P request path gate next) := by
  unfold authorize
  cases gate with
  | refused denied =>
      exact fresh_recordDenial request path denied
  | decided outcome =>
      refine ⟨rfl, fun s => ?_⟩
      cases outcome with
      | error denied =>
          exact ⟨rfl, (fresh_recordDenial request path denied).safe⟩
      | ok caller =>
          exact ⟨rfl, fun _ => ⟨fun _ h => h, (hnext caller).owes, (hnext caller).safe⟩⟩

/-- Tags are kept apart from the versions and from the key. -/
theorem keep_of_touched
    {st st' : Store}
    (h : st.Touched st') :
    (∀ master, st.AllOpen P master → st'.AllOpen P master) ∧
      st'.sealedMasterKey = st.sealedMasterKey := by
  obtain ⟨_, -, -, -, hsealed⟩ := id h
  exact ⟨fun _ hopen => allOpen_touched hopen h, hsealed⟩

/-- What a write leaves is in agreement with the keys it was made under. -/
theorem agree_writeSection
    (hP : AeadCorrect P)
    {keys : KeyMaterial P} {db : Database}
    (h : Agree P backend keys db)
    (caller : Authenticated) (body : WriteRequest) (env : WriteEnv) (plaintext : Bytes) :
    Agree P backend keys (writeSection P keys caller body env plaintext db).1 := by
  unfold writeSection
  split
  · exact h
  rename_i vault version hwrite
  have hopens := allOpen_write hP h.opens hwrite
  have hsealed := sealedMasterKey_write hwrite
  have hwritten : Agree P backend keys { db with store := vault.store } :=
    h.withStore hopens hsealed
  split
  · exact hwritten
  split
  · exact hwritten
  · rename_i store htags
    have htouched := addTags_frame htags
    obtain ⟨hkeep, hkey⟩ := keep_of_touched (P := P) htouched
    exact h.withStore (hkeep _ hopens) (hkey.trans hsealed)

theorem fresh_writeTask
    (hP : AeadCorrect P)
    (request : Request) (body : WriteRequest) (env : WriteEnv) :
    Fresh P backend (writeTask P request body env) := by
  refine fresh_authorize fun caller => ?_
  cases body.value with
  | none =>
      exact fresh_done
  | some plaintext =>
      refine fresh_updating ?_ ?_
      · intro keys db h
        exact agree_writeSection hP h caller body env plaintext
      · intro keys db
        cases (writeSection P keys caller body env plaintext db).2 with
        | error e => exact fresh_done
        | ok version => exact fresh_record request caller _ _ _

theorem fresh_readTask
    (request : Request) (path : SecretPath) (version : Option Version) :
    Fresh P backend (readTask P request path version) := by
  refine fresh_authorize fun caller => fresh_looking fun keys db => ?_
  cases openVersion P keys path version db with
  | error e => exact fresh_done
  | ok found => exact fresh_record request caller _ _ _

theorem fresh_resolveTargets
    (request : Request) (caller : Authenticated) (targets : List ResolveTarget) :
    Fresh P backend (resolveTargets P request caller targets) := by
  induction targets with
  | nil =>
      exact fresh_record request caller _ _ _
  | cons target targets ih =>
      refine fresh_authorize fun _ => fresh_looking fun keys db => ?_
      cases openVersion P keys target.path target.version db with
      | error e => exact fresh_done
      | ok found => exact ih

theorem fresh_resolveTask
    (request : Request) (targets : List ResolveTarget) :
    Fresh P backend (resolveTask P request targets) :=
  fresh_authorize fun caller => fresh_resolveTargets request caller targets

/-- A change of the store without a guard has to keep the agreement under every key. -/
theorem fresh_changeTask
    {request : Request} {path : SecretPath} {action : Action}
    {change : Store → Except StoreError (Store × Option Version)}
    (hkeep : ∀ st st' v, change st = .ok (st', v) →
      (∀ master, st.AllOpen P master → st'.AllOpen P master) ∧
        st'.sealedMasterKey = st.sealedMasterKey) :
    Fresh P backend (changeTask P request path action change) := by
  refine fresh_authorize fun caller => ⟨rfl, fun db => ?_⟩
  dsimp only
  cases hchange : change db.store with
  | error e =>
      exact ⟨fun _ h => h, rfl, trivial⟩
  | ok out =>
      obtain ⟨store, version⟩ := out
      obtain ⟨hopens, hsealed⟩ := hkeep _ _ _ hchange
      have hrecord : Fresh P backend (record P request caller action (some path) version) :=
        fresh_record request caller _ _ _
      exact ⟨fun keys h => h.withStore (hopens _ h.opens) hsealed, hrecord.owes, hrecord.safe⟩

theorem fresh_rollbackTask
    (request : Request) (path : SecretPath) (target : Version) (now : UnixTime) :
    Fresh P backend (rollbackTask P request path target now) := by
  refine fresh_changeTask fun st st' v h => ?_
  obtain ⟨_, hroll, heq⟩ := map_eq_ok.mp h
  cases heq
  exact ⟨fun _ hopen => allOpen_rollback hopen hroll, sealedMasterKey_rollback hroll⟩

theorem fresh_deleteTask
    (request : Request) (path : SecretPath) (version : Option Version) (destroy : Bool)
    (now : UnixTime) :
    Fresh P backend (deleteTask P request path version destroy now) := by
  refine fresh_changeTask fun st st' v h => ?_
  obtain ⟨⟨_, removed⟩, hdelete, heq⟩ := map_eq_ok.mp h
  cases heq
  exact ⟨fun _ hopen => allOpen_deleteVersion hopen hdelete,
    sealedMasterKey_deleteVersion hdelete⟩

theorem fresh_tagAddTask
    (request : Request) (path : SecretPath) (tags : List Tag) (now : UnixTime) :
    Fresh P backend (tagAddTask P request path tags now) := by
  refine fresh_changeTask fun st st' v h => ?_
  obtain ⟨_, htags, heq⟩ := map_eq_ok.mp h
  cases heq
  exact keep_of_touched (addTags_frame htags)

theorem fresh_tagRemoveTask
    (request : Request) (path : SecretPath) (selectors : List TagSelector) (now : UnixTime) :
    Fresh P backend (tagRemoveTask P request path selectors now) := by
  refine fresh_changeTask fun st st' v h => ?_
  obtain ⟨_, htags, heq⟩ := map_eq_ok.mp h
  cases heq
  exact keep_of_touched (removeTags_frame htags)

/-- The rotation hands the database over and owes the successor until it is adopted. -/
theorem fresh_rekeyTask
    (hP : AeadCorrect P)
    (request : Request) (draws : RekeyDraws)
    (hnonces : ∀ i, draws.nonces i ≠ none) :
    Fresh P backend (rekeyTask P backend request draws) := by
  refine fresh_authorize fun caller => ?_
  split
  · exact fresh_done
  refine ⟨rfl, fun keys => ?_⟩
  dsimp only
  cases hprep : prepare P draws backend keys with
  | error e =>
      exact ⟨rfl, trivial⟩
  | ok next =>
      refine ⟨rfl, fun db => ⟨?_, ?_⟩⟩
      · intro hagree
        obtain ⟨es, hlog⟩ := hagree.log
        rcases rekeyTransactions_cases hP hagree hlog
            (prepare_eq_ok hP hprep).1 draws.nonces none with
          ⟨hchain, -⟩ | ⟨-, hstore | ⟨n, -, hnone⟩, -⟩ |
            ⟨-, -, -, log, store, report, htx, -, -, hagree'⟩
        · cases hchain
        · cases hstore
        · exact absurd hnone (hnonces n)
        · simp only [htx]
          exact hagree'
      · dsimp only
        cases (rekeyTransactions P keys next draws.nonces none db).2 with
        | error e => exact trivial
        | ok counts => exact ⟨rfl, (fresh_record request caller _ _ _).safe⟩

theorem fresh_task
    (hP : AeadCorrect P)
    (handler : Handler) :
    Fresh P backend (handler.task P backend) := by
  cases handler with
  | write request body env => exact fresh_writeTask hP request body env
  | read request path version => exact fresh_readTask request path version
  | resolve request targets => exact fresh_resolveTask request targets
  | rollback request path target now => exact fresh_rollbackTask request path target now
  | delete request path version destroy now =>
      exact fresh_deleteTask request path version destroy now
  | tagAdd request path tags now => exact fresh_tagAddTask request path tags now
  | tagRemove request path selectors now =>
      exact fresh_tagRemoveTask request path selectors now
  | rekey request successor sealNonce nonces =>
      exact fresh_rekeyTask hP request ⟨successor, sealNonce, _⟩ (fun i => by simp)

end Safe

section Runs

variable {ι : Type} [DecidableEq ι]

/-- A daemon that is about to run the calls of `handlers`, all at once. -/
def DaemonState.serving {P : Primitives} (d : DaemonState P) (handlers : ι → Handler) :
    Sys ι (KeyMaterial P) Database :=
  Sys.start d.keys d.db (fun i => (handlers i).task P d.backend)

/--
After a clear run of any number of handlers, and when no rotation is between its
commit and the adoption of its successor (in particular when all handlers have
finished), the master key in use opens every version, the sealed master key
unseals to it, and the audit log verifies under the derived key.
-/
theorem daemon_run
    {P : Primitives}
    (hP : AeadCorrect P)
    (d : DaemonState P) (handlers : ι → Handler) (schedule : List ι)
    (hagree : Agree P d.backend d.keys d.db)
    (hclear : along Sys.step Sys.Clear (d.serving handlers) schedule)
    (hadopted : ∀ i,
      ((run Sys.step (d.serving handlers) schedule).threads i).prog.owes = none) :
    let after := run Sys.step (d.serving handlers) schedule
    after.shared.store.AllOpen P after.key.master ∧
      loadKeys P d.backend after.shared = .ok after.key ∧
      after.shared.log.Verifies P after.key.auditKey := by
  intro after
  have hgood : Agree P d.backend after.key after.shared :=
    good_of_run hagree (fun i => (fresh_task hP (handlers i)).safe)
      (fun i => (fresh_task hP (handlers i)).owes) hclear hadopted
  exact ⟨hgood.opens, hgood.sealed, hgood.verifies⟩

/-- A request of an admitted caller. -/
def sampleRequest : Request :=
  ⟨sampleCaller.peer, .decided (.ok sampleCaller), 20⟩

/-- A rotation and a write. -/
def sampleHandlers : Fin 2 → Handler
  | 0 =>
      .rekey sampleRequest (some (sampleKey 4)) (some (sampleNonce 5))
        (fun i => sampleNonce (100 + i))
  | 1 =>
      .write sampleRequest ⟨samplePath, some [1, 2, 3], [], none⟩
        ⟨sampleUuid 5, sampleTime 100, sampleDraws, sampleTime 100⟩

/-- The write runs to its end before the rotation begins. -/
theorem daemon_run_sample :
    let after := run Sys.step (sampleDaemon.serving sampleHandlers)
      (List.replicate 16 1 ++ List.replicate 19 0)
    after.shared.store.AllOpen samplePrimitives after.key.master ∧
      loadKeys samplePrimitives sampleDaemon.backend after.shared = .ok after.key ∧
      after.shared.log.Verifies samplePrimitives after.key.auditKey :=
  daemon_run samplePrimitives_correct sampleDaemon sampleHandlers _ agree_sampleDaemon
    (by decide +kernel) (by decide +kernel)

/--
The write has its read guard when the rotation commits, and gets the store
before the rotation adopts its successor.
-/
def overtakenSchedule : List (Fin 2) :=
  -- both are admitted, and hold a read guard; the rotation also has the store
  List.replicate 6 1 ++ List.replicate 8 0 ++ [1] ++
  -- the rotation commits and releases both locks
  List.replicate 3 0 ++
  -- the write stores its version and releases both locks
  List.replicate 4 1 ++
  -- the rotation adopts its successor, and both record themselves
  List.replicate 8 0 ++ List.replicate 5 1

/-- The version that the write stored does not open under the key in use. -/
theorem write_overtaken_by_rekey :
    let after := run Sys.step (sampleDaemon.serving sampleHandlers) overtakenSchedule
    Agree samplePrimitives sampleDaemon.backend sampleDaemon.keys sampleDaemon.db ∧
      (∀ i, (after.threads i).prog = .done) ∧
      openVersion samplePrimitives after.key samplePath none after.shared =
        .error (.crypto .decrypt) ∧
      ¬ after.shared.store.AllOpen samplePrimitives after.key.master := by
  intro after
  have hdone : ∀ i, (after.threads i).prog.isDone = true := by
    decide +kernel
  have hstuck : ∃ r ∈ after.shared.store.versions.rows, r.state ≠ .destroyed ∧
      (r.wrappedKey >>= fun key =>
        liftCrypto (key.openKey samplePrimitives after.key.master r.binding)) =
          .error (.crypto .decrypt) := by
    decide +kernel
  refine ⟨agree_sampleDaemon, fun i => Prog.isDone_iff.mp (hdone i), by decide +kernel, ?_⟩
  intro hopen
  obtain ⟨r, hr, hlive, herror⟩ := hstuck
  obtain ⟨dek, hdek⟩ := hopen.openKey hr hlive
  rw [herror] at hdek
  cases hdek

end Runs

end Daemon
end Secretbae
