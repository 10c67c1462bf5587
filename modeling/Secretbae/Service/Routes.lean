import Secretbae.Service.State
import Secretbae.Cli.AuditVerify

/-!
# Request handlers

Every handler authorizes, acts, audits and answers.  The requests and responses
are those of the wire contract; a request has already been parsed, so a path is
a `SecretPath` and a tag a `Tag`, but base64 texts, token prefixes and policy
documents are still what the client sent.
-/

namespace Secretbae
namespace Service

open Lib Proto Core Audit Storage Policies
open Daemon (KeyMaterial Database LookupPrefix PeerCredentials Denied ApiError deniedMessage
  openVersion writeSection selectorOf)

structure StatusResponse where
  version : String
  schemaVersion : UInt32
  sealed : Bool
  sealKind : String
  mkGeneration : UInt32
  secretCount : Nat
deriving DecidableEq

structure ReadRequest where
  path : SecretPath
  version : Option Version

structure ReadResponse where
  path : SecretPath
  version : Version
  value : String
deriving DecidableEq

structure WriteRequest where
  path : SecretPath
  value : String
  tags : List Tag
  comment : Option String

structure WriteResponse where
  path : SecretPath
  version : Version
deriving DecidableEq

structure ListRequest where
  pathPrefix : Option String
  tags : List Tag

structure SecretSummaryDto where
  path : SecretPath
  currentVersion : Option Version
  versionCount : Nat
  tags : List Tag
  updatedAt : String
deriving DecidableEq

structure VersionInfoDto where
  version : Version
  state : VersionState
  createdAt : String
  createdBy : Option String
  comment : Option String
deriving DecidableEq

structure VersionsResponse where
  path : SecretPath
  versions : List VersionInfoDto
deriving DecidableEq

structure RollbackRequest where
  path : SecretPath
  target : Version

structure DeleteRequest where
  path : SecretPath
  version : Option Version
  destroy : Bool

structure TagRequest where
  path : SecretPath
  tags : List Tag

structure TagRemoveRequest where
  path : SecretPath
  tags : List TagSelector

/-- `api::Ack`. -/
structure Ack where
  ok : Bool
deriving DecidableEq

structure TokenCreateRequest where
  name : String
  policies : List String
  bindUid : Option UInt32
  ttlSeconds : Option UInt64

structure TokenCreateResponse where
  token : String
  lookupPrefix : String
  expiresAt : Option String
deriving DecidableEq

structure TokenSummaryDto where
  lookupPrefix : String
  name : String
  policies : List String
  boundUid : Option UInt32
  createdAt : String
  expiresAt : Option String
  revoked : Bool
  lastUsedAt : Option String
deriving DecidableEq

/-- `ApiError::bad_request`. -/
def badRequest (message : String) : ApiError :=
  ⟨400, message⟩

/-- How a handler ends without a response of its own. -/
inductive Abort where
  | reply (error : ApiError)
  | panic
deriving DecidableEq

/-- What a write takes from the clock and the entropy source. -/
structure WriteDraws where
  freshId : Uuid
  began : UnixTime
  draws : SealDraws
  now : UnixTime

/-- `OffsetDateTime + Duration::seconds`, which panics out of range. -/
def addSeconds (t : UnixTime) (n : Nat) : Option UnixTime :=
  if h : t.seconds.toInt + n ≤ 253402300799 then
    some
      { seconds := Int64.ofInt (t.seconds.toInt + n)
        inRange := by
          have hlow := t.inRange.1
          unfold inTimeRange
          rw [Int64.toInt_ofInt_of_le (by omega) (by omega)]
          omega }
  else none

section Handlers

variable (P : Primitives) (F : Foreign)

/-- `rfc3339`. -/
def rfc3339 (at_ : UnixTime) : String :=
  (F.rfc3339Format at_).getD ""

/-- One stretch of code under the store's lock that changes nothing. -/
def look {α : Type} (label : Label) (f : State P → Except ApiError α) : Code P ApiError α :=
  .atomically label fun s => (f s, s)

/-- A change of the store alone. -/
def changeStore {α : Type} (label : Label)
    (f : Store → Except StoreError (Store × α)) : Code P ApiError α :=
  .atomically label fun s =>
    match f s.db.store with
    | .ok (store, a) => (.ok a, { s with db := { s.db with store := store } })
    | .error e => (.error (.ofStore e), s)

/-- A change of the tables of tokens and policies alone. -/
def changeAccess (label : Label) (f : Access → Except StoreError Access) : Code P ApiError Unit :=
  .atomically label fun s =>
    match f s.access with
    | .ok access => (.ok (), { s with access := access })
    | .error e => (.error (.ofStore e), s)

def status (conn : Connection) (env : Env) : Code P ApiError StatusResponse := do
  let _ ← gate P F conn .status none env.gate
  look P .other fun s =>
    .ok
      { version := "0.2.0"
        schemaVersion := 1
        sealed := false
        sealKind := "keyfile"
        mkGeneration := s.keys.generation
        secretCount := secretCount s.db.store }

/-- Reading and opening one version under both locks. -/
def openSecret (caller : Authenticated) (path : SecretPath) (version : Option Version) :
    Code P StoreError (Version × Bytes) :=
  .atomically (.access ⟨caller.tokenId, caller.lookupPrefix, .read, path⟩) fun s =>
    (openVersion P s.keys path version s.db, s)

def read (conn : Connection) (request : ReadRequest) (env : Env) :
    Code P ApiError ReadResponse := do
  let caller ← gate P F conn .read (some request.path) env.gate
  let (version, plaintext) ←
    (openSecret P caller request.path request.version).mapError .ofStore
  recordOrInternal P caller .read (some request.path) (some version) env
  pure { path := request.path, version, value := F.base64Encode plaintext }

/-- The section of `write`: `begin_write`, `seal`, `commit` and, on its own, `add_tags`. -/
def commitWrite (caller : Authenticated) (request : WriteRequest) (draws : WriteDraws)
    (plaintext : Bytes) : Code P ApiError Version :=
  .atomically (.access ⟨caller.tokenId, caller.lookupPrefix, .write, request.path⟩) fun s =>
    let (db, result) :=
      writeSection P s.keys ⟨caller.lookupPrefix, caller.peer⟩
        ⟨request.path, some plaintext, request.tags, request.comment⟩
        ⟨draws.freshId, draws.began, draws.draws, draws.now⟩ plaintext s.db
    (result.mapError .ofStore, { s with db := db })

def write (conn : Connection) (request : WriteRequest) (draws : WriteDraws) (env : Env) :
    Code P ApiError WriteResponse := do
  let caller ← gate P F conn .write (some request.path) env.gate
  match F.base64Decode request.value with
  | none => .fail (badRequest "value must be base64")
  | some plaintext => do
      let version ← commitWrite P caller request draws plaintext
      recordOrInternal P caller .write (some request.path) (some version) env
      pure { path := request.path, version }

/-- Whether `filter_visible` keeps a secret. -/
def isVisible (policies : List Policy) (summary : SecretSummary) : Bool :=
  (evaluate policies ⟨summary.path, .list, summary.tags⟩).isAllowed

def summaryDto (summary : SecretSummary) : SecretSummaryDto where
  path := summary.path
  currentVersion := summary.currentVersion
  versionCount := summary.versionCount
  tags := summary.tags
  updatedAt := rfc3339 F summary.updatedAt

/-- `filter_visible`: without readable policies nothing is visible. -/
def filterVisible (caller : Authenticated) (summaries : List SecretSummary) :
    Code P ApiError (List SecretSummaryDto) :=
  look P .other fun s =>
    match policiesForToken F.policyJson s.access caller.tokenId with
    | .error _ => .ok []
    | .ok policies => .ok ((summaries.filter (isVisible policies)).map (summaryDto F))

def listSecrets (conn : Connection) (request : ListRequest) (env : Env) :
    Code P ApiError (List SecretSummaryDto) := do
  let caller ← gate P F conn .list none env.gate
  let summaries ← look P .other fun s =>
    (list s.db.store ⟨request.pathPrefix, request.tags, false⟩).mapError .ofStore
  let visible ← filterVisible P F caller summaries
  recordOrInternal P caller .list none none env
  pure visible

def versionInfoDto (info : VersionInfo) : VersionInfoDto where
  version := info.version
  state := info.state
  createdAt := rfc3339 F info.createdAt
  createdBy := info.createdBy
  comment := info.comment

def listVersions (conn : Connection) (path : SecretPath) (env : Env) :
    Code P ApiError VersionsResponse := do
  let caller ← gate P F conn .versions (some path) env.gate
  let listed ← look P (.access ⟨caller.tokenId, caller.lookupPrefix, .list, path⟩) fun s =>
    (versions s.db.store path).mapError .ofStore
  recordOrInternal P caller .list (some path) none env
  pure { path, versions := listed.map (versionInfoDto F) }

def rollback (conn : Connection) (request : RollbackRequest) (now : UnixTime) (env : Env) :
    Code P ApiError Ack := do
  let caller ← gate P F conn .rollback (some request.path) env.gate
  changeStore P (.access ⟨caller.tokenId, caller.lookupPrefix, .delete, request.path⟩) fun st =>
    (Storage.rollback st request.path request.target now).map fun st => (st, ())
  recordOrInternal P caller .rollback (some request.path) (some request.target) env
  pure ⟨true⟩

def delete (conn : Connection) (request : DeleteRequest) (now : UnixTime) (env : Env) :
    Code P ApiError Ack := do
  let caller ← gate P F conn .delete (some request.path) env.gate
  let removed ← changeStore P (.access ⟨caller.tokenId, caller.lookupPrefix, .delete, request.path⟩) fun st =>
    deleteVersion st request.path (selectorOf request.version)
      (if request.destroy then .destroy else .soft) now
  recordOrInternal P caller .delete (some request.path) (some removed) env
  pure ⟨true⟩

def tagAdd (conn : Connection) (request : TagRequest) (now : UnixTime) (env : Env) :
    Code P ApiError Ack := do
  let caller ← gate P F conn .tagAdd (some request.path) env.gate
  changeStore P (.access ⟨caller.tokenId, caller.lookupPrefix, .write, request.path⟩) fun st =>
    (addTags st request.path request.tags now).map fun st => (st, ())
  recordOrInternal P caller .tag (some request.path) none env
  pure ⟨true⟩

def tagRemove (conn : Connection) (request : TagRemoveRequest) (now : UnixTime) (env : Env) :
    Code P ApiError Ack := do
  let caller ← gate P F conn .tagRemove (some request.path) env.gate
  changeStore P (.untag ⟨caller.tokenId, caller.lookupPrefix, .write, request.path⟩ request.tags) fun st =>
    (removeTags st request.path request.tags now).map fun st => (st, ())
  recordOrInternal P caller .tag (some request.path) none env
  pure ⟨true⟩

/-- The expiry of a new token; a lifetime that is no `i64` is dropped. -/
def expiry (ttlSeconds : Option UInt64) (now : UnixTime) : Except Abort (Option UnixTime) :=
  match ttlSeconds with
  | none => .ok none
  | some ttl =>
      if ttl.toNat < 2 ^ 63 then
        match addSeconds now ttl.toNat with
        | some t => .ok (some t)
        | none => .error .panic
      else .ok none

/-- The handler from `issue` on. -/
def createFor (caller : Authenticated) (request : TokenCreateRequest) (issued : IssuedToken)
    (expiresAt : Option UnixTime) (now : UnixTime) (env : Env) :
    Code P ApiError TokenCreateResponse := do
  changeAccess P .other fun acc =>
    createToken acc
      { id := issued.id
        lookupPrefix := issued.lookupPrefix
        hash := issued.hash
        name := request.name
        boundUid := request.bindUid
        expiresAt
        policies := request.policies } now
  recordOrInternal P caller .tokenCreate none none env
  pure
    { token := issued.secret
      lookupPrefix := issued.lookupPrefix.asStr
      expiresAt := expiresAt.map (rfc3339 F) }

/-- `token_create`; `expires` and `now` are its two readings of the clock. -/
def tokenCreate (conn : Connection) (request : TokenCreateRequest) (draws : IssueDraws)
    (expires now : UnixTime) (env : Env) : Code P Abort TokenCreateResponse := do
  let caller ← (gate P F conn .tokenCreate none env.gate).mapError .reply
  match issue F.sha256 draws with
  | .error _ => .fail (.reply .internal)
  | .ok issued => do
      let expiresAt ← .ofExcept (expiry request.ttlSeconds expires)
      (createFor P F caller request issued expiresAt now env).mapError .reply

def tokenSummaryDto (summary : TokenSummary) : TokenSummaryDto where
  lookupPrefix := summary.record.lookupPrefix.asStr
  name := summary.record.name
  policies := summary.policies
  boundUid := summary.record.boundUid
  createdAt := rfc3339 F summary.createdAt
  expiresAt := summary.record.expiresAt.map (rfc3339 F)
  revoked := summary.record.revokedAt.isSome
  lastUsedAt := summary.lastUsedAt.map (rfc3339 F)

def tokenList (conn : Connection) (env : Env) : Code P ApiError (List TokenSummaryDto) := do
  let _ ← gate P F conn .tokenList none env.gate
  let tokens ← look P .other fun s => (listTokens s.access).mapError .ofStore
  pure (tokens.map (tokenSummaryDto F))

def tokenRevoke (conn : Connection) (lookup : String) (now : UnixTime) (env : Env) :
    Code P ApiError Ack := do
  let caller ← gate P F conn .tokenRevoke none env.gate
  match parseLookupPrefix lookup with
  | .error _ => .fail (badRequest "malformed token prefix")
  | .ok lookup => do
      changeAccess P (.revoke lookup) fun acc => revokeToken acc lookup now
      recordOrInternal P caller .tokenRevoke none none env
      pure ⟨true⟩

def policyPut (conn : Connection) (document : String) (now : UnixTime) (env : Env) :
    Code P ApiError Ack := do
  let caller ← gate P F conn .policyPut none env.gate
  match Policy.fromJson F.policyJson document with
  | .error e => .fail (badRequest e.message)
  | .ok policy => do
      changeAccess P (.putPolicies [policy.name]) fun acc =>
        putPolicy F.policyJson acc policy now
      recordOrInternal P caller .policyWrite none none env
      pure ⟨true⟩

def policyList (conn : Connection) (env : Env) : Code P ApiError (List String) := do
  let _ ← gate P F conn .policyList none env.gate
  look P .other fun s => .ok (listPolicyNames s.access)

def policyDelete (conn : Connection) (name : String) (env : Env) : Code P ApiError Ack := do
  let caller ← gate P F conn .policyDelete none env.gate
  changeAccess P (.deletePolicy name) fun acc => Storage.deletePolicy acc name
  recordOrInternal P caller .policyWrite none none env
  pure ⟨true⟩

def auditVerify (conn : Connection) (env : Env) :
    Code P ApiError Cli.AuditVerifyResponse := do
  let _ ← gate P F conn .auditVerify none env.gate
  look P .other fun s =>
    (Cli.auditVerify P s.db.log s.keys.auditKey).mapError fun _ => .internal

end Handlers

end Service
end Secretbae
