import Secretbae.Service.Routes

/-!
# Batched resolution

`resolve_secrets` and the two transports that share it: the HTTP route, which
encodes values as base64, and the plain resolve socket, which writes them raw
behind a length.
-/

namespace Secretbae
namespace Service

open Lib Proto Core Audit Storage Policies
open Daemon (KeyMaterial PeerCredentials Denied Violation ApiError deniedMessage selectorOf)

/-- One secret to fetch: the current version, or one pinned by the caller. -/
structure ResolveTarget where
  path : SecretPath
  version : Option Version
deriving DecidableEq

structure ResolvedSecret where
  path : SecretPath
  version : Version
  plaintext : Bytes
deriving DecidableEq

inductive ResolveFailure where
  | denied (denied : Denied)
  | store (error : StoreError)
  | crypto
  | audit (error : AuditError)

/-- `From<ResolveFailure> for ApiError`. -/
def ResolveFailure.apiError : ResolveFailure → ApiError
  | .denied _ => .denied
  | .store e => .ofStore e
  | .crypto => .internal
  | .audit _ => .internal

/-- `ResolveFailure::message`. -/
def ResolveFailure.message : ResolveFailure → String
  | .denied _ => deniedMessage
  | .store e => if Daemon.StoreError.isClientError e then deniedMessage else "internal error"
  | .crypto => "internal error"
  | .audit _ => "internal error"

/-- What a batch takes from the clock: one gate for the batch, one for each target. -/
structure ResolveEnv where
  batch : Env
  targets : Nat → GateEnv

/-- A secret in the answer to `/v1/resolve`. -/
structure ResolvedDto where
  path : SecretPath
  version : Version
  value : String
deriving DecidableEq

section Handlers

variable (P : Primitives) (F : Foreign)

/-- `read_version` and `open`, for one target. -/
def readTarget (keys : KeyMaterial P) (store : Store) (target : ResolveTarget) :
    Except ResolveFailure ResolvedSecret :=
  match readVersion store target.path (selectorOf target.version) with
  | .error e => .error (.store e)
  | .ok stored =>
      match stored.sealed.openAt P keys.master stored.binding with
      | .error _ => .error .crypto
      | .ok plaintext => .ok ⟨target.path, stored.info.version, plaintext⟩

/-- The body of the loop, after the gate of the target's own path. -/
def fetch (caller : Authenticated) (target : ResolveTarget) :
    Code P ResolveFailure ResolvedSecret :=
  .atomically (.access ⟨caller.tokenId, caller.lookupPrefix, .read, target.path⟩) fun s =>
    (readTarget P s.keys s.db.store target, s)

/-- The loop of `resolve_secrets`, from target number `i` on. -/
def resolveTargets (presented : Except Denied PresentedToken) (peer : PeerCredentials)
    (gates : Nat → GateEnv) :
    Nat → List ResolveTarget → Code P ResolveFailure (List ResolvedSecret)
  | _, [] => pure []
  | i, target :: targets => do
      let caller ←
        (authorize P F presented peer ⟨.resolve, some target.path⟩ (gates i)).mapError .denied
      let resolved ← fetch P caller target
      let rest ← resolveTargets presented peer gates (i + 1) targets
      pure (resolved :: rest)

/-- `resolve_secrets`. -/
def resolveSecrets (presented : Except Denied PresentedToken) (peer : PeerCredentials)
    (targets : List ResolveTarget) (env : ResolveEnv) :
    Code P ResolveFailure (List ResolvedSecret) := do
  let caller ←
    (authorize P F presented peer ⟨.resolve, none⟩ env.batch.gate).mapError .denied
  let resolved ← resolveTargets P F presented peer env.targets 0 targets
  (record P caller .resolve none none env.batch).mapError .audit
  pure resolved

def resolvedDto (item : ResolvedSecret) : ResolvedDto where
  path := item.path
  version := item.version
  value := F.base64Encode item.plaintext

/-- The HTTP route `/v1/resolve`, which has no pinned versions. -/
def resolve (conn : Connection) (paths : List SecretPath) (env : ResolveEnv) :
    Code P ApiError (List ResolvedDto) := do
  let resolved ←
    (resolveSecrets P F (extractToken F conn.header) conn.peer
      (paths.map fun path => ⟨path, none⟩) env).mapError ResolveFailure.apiError
  pure (resolved.map (resolvedDto F))

/-- `VALUE <version> <length>\n`, followed by the plaintext. -/
def valueFrame (item : ResolvedSecret) : Bytes :=
  utf8 ("VALUE " ++ toString item.version.toNat ++ " " ++
    toString item.plaintext.length ++ "\n") ++ item.plaintext

/-- `respond_error`. -/
def errorFrame (message : String) : Bytes :=
  utf8 ("ERROR " ++ message ++ "\n")

/-- `respond`. -/
def respond : Except ResolveFailure (List ResolvedSecret) → Bytes
  | .ok resolved => resolved.flatMap valueFrame
  | .error failure => errorFrame failure.message

/-- What one connection to the resolve socket asked for. -/
inductive ParsedRequest where
  | disconnected
  | violation (violation : Violation)
  | ready (token : String) (targets : List ResolveTarget)

/-- `handle`: the bytes written to the socket. -/
def handle (peer : PeerCredentials) (env : ResolveEnv) :
    ParsedRequest → Code P ApiError Bytes
  | .disconnected => pure []
  | .violation violation => do
      let _ ←
        (authorize P F (.error (.protocolViolation violation)) peer ⟨.resolve, none⟩
          env.batch.gate).attempt
      pure (errorFrame deniedMessage)
  | .ready token targets => do
      let result ← (resolveSecrets P F (presentText F token) peer targets env).attempt
      pure (respond result)

end Handlers

end Service
end Secretbae
