import Secretbae.Daemon.Rekey
import Secretbae.Lib.Locks

/-!
# The handlers as threads

Every handler of the daemon, cut at its lock acquisitions and releases: the key
material is behind a read-write lock, the database behind a mutex.  What the
gates decide about a caller is an argument of the handler, because tokens and
policies are not part of the model.

Responses are left out: a handler that fails just ends.
-/

namespace Secretbae
namespace Daemon

open Lib Proto Core Audit Storage

/-- The code of one handler. -/
abbrev Task (P : Primitives) := Prog (KeyMaterial P) Database

/-- What the gates answer. -/
inductive Gate where
  /-- Before the store is read: no token, or an unknown route. -/
  | refused (denied : Denied)
  | decided (outcome : Except Denied Authenticated)

/-- A request: who sent it, what the gates say, and the time of its audit entry. -/
structure Request where
  peer : PeerCredentials
  gate : Gate
  ts : Int64

structure WriteRequest where
  path : SecretPath
  /-- The base64 text of the request, decoded. -/
  value : Option Bytes
  tags : List Tag
  comment : Option String

/-- What a write takes from the clock and the entropy source. -/
structure WriteEnv where
  freshId : Uuid
  began : UnixTime
  draws : SealDraws
  now : UnixTime

/-- One secret to fetch, with what the gates say about its path. -/
structure ResolveTarget where
  path : SecretPath
  version : Option Version
  gate : Gate

section Tasks

variable (P : Primitives)

/-- `record_denial`. -/
def recordDenial (request : Request) (path : Option SecretPath) (denied : Denied) : Task P :=
  .readLock fun keys =>
    .lock <| .update (Database.append P keys (denialEntry request.ts request.peer path denied))
      fun _ => .unlock <| .readUnlock .done

/-- `record`, the last thing a handler does. -/
def record (request : Request) (caller : Authenticated) (action : Action)
    (path : Option SecretPath) (version : Option Version) : Task P :=
  .readLock fun keys =>
    .lock <| .update
      (Database.append P keys
        (recordEntry request.ts caller.tokenPrefix caller.peer action .success path version))
      fun _ => .unlock <| .readUnlock .done

/-- `authorize`, followed by the rest of the handler for a caller it admits. -/
def authorize (request : Request) (path : Option SecretPath) (gate : Gate)
    (next : Authenticated → Task P) : Task P :=
  match gate with
  | .refused denied => recordDenial P request path denied
  | .decided outcome =>
      .lock <| .look fun _ => .unlock <|
        match outcome with
        | .error denied => recordDenial P request path denied
        -- `touch_token` writes a table that is not part of the model
        | .ok caller => .lock <| .update (fun db => db) fun _ => .unlock (next caller)

/-- The critical section of `write`; tags are added in a transaction of their own. -/
def writeSection (keys : KeyMaterial P) (caller : Authenticated) (body : WriteRequest)
    (env : WriteEnv) (plaintext : Bytes) (db : Database) :
    Database × Except StoreError Version :=
  match Vault.write P ⟨db.store, keys.master, keys.generation⟩ body.path env.freshId
      env.began env.draws plaintext ⟨some caller.tokenPrefix.asStr, body.comment⟩ env.now with
  | .error e => (db, .error e)
  | .ok (vault, version) =>
      if body.tags = [] then ({ db with store := vault.store }, .ok version)
      else
        match addTags vault.store body.path body.tags env.now with
        | .error e => ({ db with store := vault.store }, .error e)
        | .ok store => ({ db with store := store }, .ok version)

def writeTask (request : Request) (body : WriteRequest) (env : WriteEnv) : Task P :=
  authorize P request (some body.path) request.gate fun caller =>
    match body.value with
    | none => .done
    | some plaintext =>
        .readLock fun keys =>
          .lock <| .update (fun db => (writeSection P keys caller body env plaintext db).1)
            fun db => .unlock <| .readUnlock <|
              match (writeSection P keys caller body env plaintext db).2 with
              | .error _ => .done
              | .ok version => record P request caller .write (some body.path) (some version)

/-- `version.map_or(Current, Exact)`. -/
def selectorOf : Option Version → VersionSelector
  | none => .current
  | some version => .exact version

/-- The critical section of `read` and of one round of `resolve_secrets`. -/
def openVersion (keys : KeyMaterial P) (path : SecretPath) (version : Option Version)
    (db : Database) : Except StoreError (Version × Bytes) := do
  let stored ← readVersion db.store path (selectorOf version)
  let plaintext ← liftCrypto (stored.sealed.openAt P keys.master stored.binding)
  .ok (stored.info.version, plaintext)

def readTask (request : Request) (path : SecretPath) (version : Option Version) : Task P :=
  authorize P request (some path) request.gate fun caller =>
    .readLock fun keys =>
      .lock <| .look fun db => .unlock <| .readUnlock <|
        match openVersion P keys path version db with
        | .error _ => .done
        | .ok (found, _) => record P request caller .read (some path) (some found)

/-- The loop of `resolve_secrets`. -/
def resolveTargets (request : Request) (caller : Authenticated) : List ResolveTarget → Task P
  | [] => record P request caller .resolve none none
  | target :: targets =>
      authorize P request (some target.path) target.gate fun _ =>
        .readLock fun keys =>
          .lock <| .look fun db => .unlock <| .readUnlock <|
            match openVersion P keys target.path target.version db with
            | .error _ => .done
            | .ok _ => resolveTargets request caller targets

/-- `resolve_secrets`. -/
def resolveTask (request : Request) (targets : List ResolveTarget) : Task P :=
  authorize P request none request.gate fun caller => resolveTargets P request caller targets

/-- `rekey`; `adopt_rotated_key` comes after both locks are released. -/
def rekeyTask (backend : KeyfileSeal) (request : Request) (draws : RekeyDraws) : Task P :=
  authorize P request none request.gate fun caller =>
    if draws.successor = none then .done
    else
      .readLock fun keys =>
        match prepare P draws backend keys with
        | .error _ => .readUnlock .done
        | .ok next =>
            .lock <| .update
              (fun db => (rekeyTransactions P keys next draws.nonces none db).1)
              fun db => .unlock <| .readUnlock <|
                match (rekeyTransactions P keys next draws.nonces none db).2 with
                | .error _ => .done
                | .ok _ =>
                    .writeLock <| .put next.keys <| .writeUnlock <|
                      record P request caller .rekey none none

/-- A handler that changes the store without the keys, and records it. -/
def changeTask (request : Request) (path : SecretPath) (action : Action)
    (change : Store → Except StoreError (Store × Option Version)) : Task P :=
  authorize P request (some path) request.gate fun caller =>
    .lock <| .update
      (fun db =>
        match change db.store with
        | .error _ => db
        | .ok (store, _) => { db with store := store })
      fun db => .unlock <|
        match change db.store with
        | .error _ => .done
        | .ok (_, version) => record P request caller action (some path) version

def rollbackTask (request : Request) (path : SecretPath) (target : Version)
    (now : UnixTime) : Task P :=
  changeTask P request path .rollback fun st =>
    (rollback st path target now).map fun st => (st, some target)

def deleteTask (request : Request) (path : SecretPath) (version : Option Version)
    (destroy : Bool) (now : UnixTime) : Task P :=
  changeTask P request path .delete fun st =>
    (deleteVersion st path (selectorOf version) (if destroy then .destroy else .soft) now).map
      fun (st, removed) => (st, some removed)

def tagAddTask (request : Request) (path : SecretPath) (tags : List Tag)
    (now : UnixTime) : Task P :=
  changeTask P request path .tag fun st =>
    (addTags st path tags now).map fun st => (st, none)

def tagRemoveTask (request : Request) (path : SecretPath) (selectors : List TagSelector)
    (now : UnixTime) : Task P :=
  changeTask P request path .tag fun st =>
    (removeTags st path selectors now).map fun st => (st, none)

end Tasks

/-- A call of one of the handlers. -/
inductive Handler where
  | write (request : Request) (body : WriteRequest) (env : WriteEnv)
  | read (request : Request) (path : SecretPath) (version : Option Version)
  | resolve (request : Request) (targets : List ResolveTarget)
  | rollback (request : Request) (path : SecretPath) (target : Version) (now : UnixTime)
  | delete (request : Request) (path : SecretPath) (version : Option Version)
      (destroy : Bool) (now : UnixTime)
  | tagAdd (request : Request) (path : SecretPath) (tags : List Tag) (now : UnixTime)
  | tagRemove (request : Request) (path : SecretPath) (selectors : List TagSelector)
      (now : UnixTime)
  /-- The nonces that rewrap the data keys are drawn without fail. -/
  | rekey (request : Request) (successor : Option Key32) (sealNonce : Option Nonce)
      (nonces : Nat → Nonce)

/-- The code that a call runs. -/
def Handler.task (P : Primitives) (backend : KeyfileSeal) : Handler → Task P
  | .write request body env => writeTask P request body env
  | .read request path version => readTask P request path version
  | .resolve request targets => resolveTask P request targets
  | .rollback request path target now => rollbackTask P request path target now
  | .delete request path version destroy now => deleteTask P request path version destroy now
  | .tagAdd request path tags now => tagAddTask P request path tags now
  | .tagRemove request path selectors now => tagRemoveTask P request path selectors now
  | .rekey request successor sealNonce nonces =>
      rekeyTask P backend request ⟨successor, sealNonce, fun i => some (nonces i)⟩

/-- The handler of a rotation, run without company, is the `rekey` of one run. -/
theorem rekeyTask_alone
    {P : Primitives} (d : DaemonState P) (request : Request) (draws : RekeyDraws)
    {outcome : Except Denied Authenticated}
    (hgate : request.gate = .decided outcome) :
    (rekeyTask P d.backend request draws).alone d.keys d.db =
      let after := (rekey P d request.peer request.ts outcome draws none).2
      (after.keys, after.db) := by
  simp only [rekeyTask, authorize, hgate, Prog.alone]
  cases outcome with
  | error denied =>
      rfl
  | ok caller =>
      simp only [rekey, Prog.alone]
      split
      · rename_i hnone
        have hprep : prepare P draws d.backend d.keys = .error .internal := by
          simp [prepare, hnone]
        rw [hprep]
        rfl
      simp only [Prog.alone]
      cases prepare P draws d.backend d.keys with
      | error e =>
          rfl
      | ok next =>
          simp only [Prog.alone]
          rcases rekeyTransactions P d.keys next draws.nonces none d.db with ⟨db, result⟩
          cases result with
          | error e =>
              rfl
          | ok counts =>
              simp only [record, Prog.alone, Database.append, rekeyEntry, reduceCtorEq, if_false]
              cases Audit.append P db.log next.keys.auditKey
                (recordEntry request.ts caller.tokenPrefix caller.peer .rekey .success none
                  none) <;> rfl

end Daemon
end Secretbae
