import Secretbae.Core.Bundle
import Secretbae.Daemon.Handlers
import Secretbae.Store.Tokens
import Secretbae.Store.Listing
import Secretbae.Lib.Script

/-!
# The daemon with its tokens and policies

The handlers of this directory are the daemon's in full: they decide for
themselves whom to admit, and they answer.  What the handlers of `Daemon` take
as given, the outcome of the gates, is computed here by `check` from the tables
of tokens, policies and tags.

A handler is a script over `State`.  Each of its sections is one stretch of
code under the store's lock; a section that also needs the key material holds
its read lock for at least as long, so that both are of one moment.  What a
request takes from the clock and the entropy source is an argument.
-/

namespace Secretbae
namespace Service

open Lib Proto Core Audit Storage Policies
open Daemon (KeyMaterial Database LookupPrefix PeerCredentials AuthFailure Denied ApiError
  recordEntry denialEntry deniedMessage)

/-- `api::BackupVersion`. -/
structure BackupVersion where
  version : Version
  state : VersionState
  createdAt : String
  createdBy : Option String
  comment : Option String
  value : Option String
deriving DecidableEq

/-- `api::BackupSecret`. -/
structure BackupSecret where
  path : SecretPath
  tags : List Tag
  maxVersions : UInt32
  currentVersion : Option Version
  versions : List BackupVersion
deriving DecidableEq

/-- `api::BackupBundle`. -/
structure BackupBundle where
  createdAt : String
  secrets : List BackupSecret
  policies : List String
deriving DecidableEq

/-- The functions of other crates that the handlers use, cryptographic primitives aside. -/
structure Foreign where
  sha256 : Bytes → Digest
  argon2 : Bytes → Salt → Option Key32
  base64Encode : Bytes → String
  base64Decode : String → Option Bytes
  policyJson : PolicyJson
  bundleToJson : BackupBundle → Bytes
  bundleFromJson : Bytes → Option BackupBundle
  rfc3339Format : UnixTime → Option String
  rfc3339Parse : String → Option UnixTime

/-- `DaemonState`, with the tables of tokens and policies. -/
structure State (P : Primitives) where
  keys : KeyMaterial P
  backend : KeyfileSeal
  db : Database
  access : Access

/-- The routes of the wire contract. -/
inductive Route where
  | status
  | read
  | write
  | list
  | versions
  | rollback
  | delete
  | tagAdd
  | tagRemove
  | resolve
  | tokenCreate
  | tokenList
  | tokenRevoke
  | policyPut
  | policyList
  | policyDelete
  | auditVerify
  | rekey
  | backup
  | restore
  | other (name : String)
deriving DecidableEq

/-- `api::required_capability`. -/
def Route.requiredCapability : Route → Option Capability
  | .read | .resolve => some .read
  | .write | .tagAdd | .tagRemove => some .write
  | .delete | .rollback => some .delete
  | .list | .versions | .status => some .list
  | .tokenCreate | .tokenList | .tokenRevoke | .policyPut | .policyList | .policyDelete
  | .auditVerify | .rekey | .backup | .restore => some .admin
  | .other _ => none

/-- A caller that cleared all three gates. -/
structure Authenticated where
  tokenId : Uuid
  lookupPrefix : LookupPrefix
  peer : PeerCredentials
deriving DecidableEq

/-- What the caller is asking to do. -/
structure Requested where
  route : Route
  path : Option SecretPath

def bearerPrefix : List Char := ['B', 'e', 'a', 'r', 'e', 'r', ' ']

/-- `PresentedToken::parse`, with the failure every transport reports. -/
def presentText (F : Foreign) (text : String) : Except Denied PresentedToken :=
  (PresentedToken.parse F.sha256 text).mapError fun _ => .malformedToken

/-- `extract_token`, from the value of the `authorization` header. -/
def extractToken (F : Foreign) (header : Option String) : Except Denied PresentedToken :=
  match header with
  | none => .error .missingToken
  | some raw =>
      match stripPrefix bearerPrefix raw.toList with
      | none => .error .malformedToken
      | some token => presentText F (String.ofList token)

/-- `store.tags(path).unwrap_or_default()`. -/
def storedTags (store : Store) (path : SecretPath) : List Tag :=
  match tags store path with
  | .ok tags => tags
  | .error _ => []

/-- `grants_without_path`: routes with no single target path. -/
def grantsWithoutPath (policies : List Policy) (capability : Capability) : Bool :=
  (policies.flatMap Policy.rules).any fun rule => decide (capability ∈ rule.capabilities)

/-- The decision at the end of `check`. -/
def granted (policies : List Policy) (capability : Capability) (store : Store) :
    Option SecretPath → Bool
  | none => grantsWithoutPath policies capability
  | some path => (evaluate policies ⟨path, capability, storedTags store path⟩).isAllowed

/-- `check`: the three gates. -/
def check (F : Foreign) (store : Store) (access : Access)
    (presented : Except Denied PresentedToken) (peer : PeerCredentials)
    (requested : Requested) (now : UnixTime) : Except Denied Authenticated :=
  match requested.route.requiredCapability with
  | none => .error .unknownRoute
  | some capability => do
      let presented ← presented
      match tokenByPrefix access presented.lookupPrefix with
      | none => .error (.authentication .unknownToken)
      | some record => do
          let tokenId ← (authenticate record presented peer now).mapError .authentication
          let policies ←
            (policiesForToken F.policyJson access tokenId).mapError fun _ => .noGrant
          if granted policies capability store requested.path then
            .ok { tokenId, lookupPrefix := record.lookupPrefix, peer }
          else .error .noGrant

/-- A right to act on a path, as a gate gives it to a token. -/
structure Grant where
  tokenId : Uuid
  lookupPrefix : LookupPrefix
  capability : Capability
  path : SecretPath
deriving DecidableEq

/-- What a section does, as far as the rights of callers are concerned. -/
inductive Label where
  /-- The gate. -/
  | check (presented : Except Denied PresentedToken) (peer : PeerCredentials)
      (requested : Requested) (now : UnixTime)
  /-- A plaintext is obtained or a secret is changed, on the strength of a grant. -/
  | access (grant : Grant)
  /-- The same, where tags are taken off the secret. -/
  | untag (grant : Grant) (selectors : List TagSelector)
  | revoke (lookup : LookupPrefix)
  | putPolicies (names : List String)
  | deletePolicy (name : String)
  /-- Neither of these. -/
  | other

/-- The code of one handler. -/
abbrev Code (P : Primitives) := Script Label (State P)

/-- What one call of `authorize` takes from the clock, and whether a denial can be written. -/
structure GateEnv where
  checked : UnixTime
  touched : UnixTime
  denied : UnixTime
  writable : Bool

/-- Who sent a request, and the header it came with. -/
structure Connection where
  header : Option String
  peer : PeerCredentials

/-- What a handler takes from the clock besides its own operation. -/
structure Env where
  gate : GateEnv
  recorded : UnixTime
  /-- Whether the write of the audit entry goes through. -/
  writable : Bool

section Gates

variable (P : Primitives) (F : Foreign)

/-- `sbae_audit::append`; a failing write is rolled back like any other failure. -/
def State.append (s : State P) (writable : Bool) (entry : AuditEntry) :
    Except AuditError Unit × State P :=
  if writable then
    match Audit.append P s.db.log s.keys.auditKey entry with
    | .ok (log, _) => (.ok (), { s with db := { s.db with log := log } })
    | .error e => (.error e, s)
  else (.error (.sqlite .failure), s)

/-- `touch_token`, whose result is ignored. -/
def State.touch (s : State P) (id : Uuid) (now : UnixTime) : State P :=
  { s with access := touchToken s.access id now }

/-- `authorize`. -/
def authorize (presented : Except Denied PresentedToken) (peer : PeerCredentials)
    (requested : Requested) (env : GateEnv) : Code P Denied Authenticated :=
  .sect (.check presented peer requested env.checked) id fun s =>
    match check F s.db.store s.access presented peer requested env.checked with
    | .ok caller =>
        .sect .other (fun s => s.touch P caller.tokenId env.touched) fun _ => .ret (.ok caller)
    | .error denied =>
        .sect .other
          (fun s => (s.append P env.writable
            (denialEntry env.denied.seconds peer requested.path denied)).2)
          fun _ => .ret (.error denied)

/-- `record`. -/
def record (caller : Authenticated) (action : Action) (path : Option SecretPath)
    (version : Option Version) (env : Env) : Code P AuditError Unit :=
  .atomically .other fun s =>
    s.append P env.writable
      (recordEntry env.recorded.seconds caller.lookupPrefix caller.peer action .success path
        version)

/-- `gate`: every denial is answered alike. -/
def gate (conn : Connection) (route : Route) (path : Option SecretPath) (env : GateEnv) :
    Code P ApiError Authenticated :=
  (authorize P F (extractToken F conn.header) conn.peer ⟨route, path⟩ env).mapError
    fun _ => .denied

/-- `record`, where its failure is answered as an internal one. -/
def recordOrInternal (caller : Authenticated) (action : Action) (path : Option SecretPath)
    (version : Option Version) (env : Env) : Code P ApiError Unit :=
  (record P caller action path version env).mapError fun _ => .internal

end Gates

end Service
end Secretbae
