import Secretbae.Service.Routes
import Secretbae.Store.Maintenance

/-!
# Rotation, backup and restore

The three handlers that touch the store as a whole.  `rekey` commits two
transactions, with a section each: the locks that it holds keep other handlers
out between them, but the daemon may be killed there.  `restore` imports one
secret after another, each in a transaction of its own, and the policies after
them; what it has imported when a step fails stays.
-/

namespace Secretbae
namespace Service

open Lib Proto Core Audit Storage Policies
open Daemon (KeyMaterial Database ApiError RekeyDraws RekeyResponse Succession prepare
  rekeyTransactions)

structure BackupResponse where
  bundle : String
  secrets : Nat
  versions : Nat
deriving DecidableEq

structure RestoreRequest where
  passphrase : String
  bundle : String

structure RestoreResponse where
  secrets : Nat
  versions : Nat
  policies : Nat
deriving DecidableEq

/-- What a restore takes from the clock and the entropy source, secret by secret. -/
structure RestoreDraws where
  /-- The id of the `i`-th secret. -/
  id : Nat → Uuid
  /-- For the `j`-th version of the `i`-th secret. -/
  draws : Nat → Nat → SealDraws
  /-- Read where the `j`-th timestamp of the `i`-th secret does not parse. -/
  fallback : Nat → Nat → UnixTime
  /-- Read by the `i`-th import. -/
  imported : Nat → UnixTime
  /-- Read by the `i`-th policy. -/
  stored : Nat → UnixTime

section Handlers

variable (P : Primitives) (F : Foreign)

/-- The transaction that re-keys the log, with the keys that `rekey` goes on with. -/
def rekeyLog (draws : RekeyDraws) : Code P ApiError (KeyMaterial P × Succession P × Nat) :=
  .atomically .other fun s =>
    match prepare P draws s.backend s.keys with
    | .error e => (.error e, s)
    | .ok next =>
        match rekeyChain P s.db.log s.keys.auditKey next.keys.auditKey with
        | .error _ => (.error .internal, s)
        | .ok (log, entries) =>
            (.ok (s.keys, next, entries), { s with db := { s.db with log := log } })

/-- The transaction that rewraps the data keys and replaces the sealed master key. -/
def rekeyStore (draws : RekeyDraws) (keys : KeyMaterial P) (next : Succession P) :
    Code P ApiError Nat :=
  .atomically .other fun s =>
    match rekeyWith s.db.store next.sealed
        (rewrapWith P draws.nonces keys.master next.keys.master next.keys.generation) with
    | .error e => (.error (.ofStore e), s)
    | .ok (store, report) =>
        (.ok report.versionsRewrapped, { s with db := { s.db with store := store } })

/-- What `rekey` does under both locks. -/
def rotate (draws : RekeyDraws) : Code P ApiError (Succession P × Nat × Nat) := do
  let (keys, next, entries) ← rekeyLog P draws
  let rewrapped ← rekeyStore P draws keys next
  pure (next, rewrapped, entries)

def rekey (conn : Connection) (draws : RekeyDraws) (env : Env) :
    Code P ApiError RekeyResponse := do
  let caller ← gate P F conn .rekey none env.gate
  let (next, rewrapped, entries) ← rotate P draws
  -- `adopt_rotated_key`
  .atomically .other fun s => (.ok (), { s with keys := next.keys })
  recordOrInternal P caller .rekey none none env
  pure ⟨rewrapped, entries, next.keys.generation⟩

/-- One version of a bundle, with its plaintext. -/
def backupVersion (keys : KeyMaterial P) (id : Uuid) (v : ExportedVersion) :
    Except ApiError BackupVersion := do
  let value ←
    match v.sealed with
    | none => .ok none
    | some sealed =>
        match sealed.openAt P keys.master ⟨id, v.version.get⟩ with
        | .error _ => .error ApiError.internal
        | .ok plaintext => .ok (some (F.base64Encode plaintext))
  .ok
    { version := v.version
      state := v.state
      createdAt := rfc3339 F v.createdAt
      createdBy := v.createdBy
      comment := v.comment
      value }

def backupSecret (keys : KeyMaterial P) (store : Store) (secret : ExportedSecret) :
    Except ApiError BackupSecret := do
  let id ← (secretId store secret.path).mapError .ofStore
  let versions ← secret.versions.mapM (backupVersion P F keys id)
  .ok
    { path := secret.path
      tags := secret.tags
      maxVersions := secret.maxVersions
      currentVersion := secret.currentVersion
      versions }

/-- The bundle that `backup` serialises. -/
def backupBundle (keys : KeyMaterial P) (store : Store) (access : Access) (now : UnixTime) :
    Except ApiError BackupBundle := do
  let exported ← (exportSecrets store).mapError .ofStore
  let secrets ← exported.mapM (backupSecret P F keys store)
  .ok { createdAt := rfc3339 F now, secrets, policies := allPolicyDocuments access }

/-- `version_count`. -/
def BackupBundle.versionCount (bundle : BackupBundle) : Nat :=
  (bundle.secrets.map fun secret => secret.versions.length).sum

/-- The section of `backup`. -/
def sealBackup (s : State P) (passphrase : String) (draws : BundleDraws) (now : UnixTime) :
    Except ApiError (Bytes × Nat × Nat) := do
  let bundle ← backupBundle P F s.keys s.db.store s.access now
  let sealed ←
    (sealBundle P F.argon2 draws (utf8 passphrase) (F.bundleToJson bundle)).mapError
      fun _ => .internal
  .ok (sealed, bundle.secrets.length, bundle.versionCount)

def backup (conn : Connection) (passphrase : String) (draws : BundleDraws) (now : UnixTime)
    (env : Env) : Code P ApiError BackupResponse := do
  let caller ← gate P F conn .backup none env.gate
  if passphrase = "" then .fail (badRequest "a backup passphrase is required")
  else do
    let (bundle, secrets, versions) ← look P .other fun s =>
      sealBackup P F s passphrase draws now
    recordOrInternal P caller .backup none none env
    pure { bundle := F.base64Encode bundle, secrets, versions }

/-- `parse_rfc3339`. -/
def parseRfc3339 (raw : String) (now : UnixTime) : UnixTime :=
  (F.rfc3339Parse raw).getD now

/-- One version of a bundle, sealed again for the slot it will have. -/
def restoreVersion (keys : KeyMaterial P) (id : Uuid) (draws : SealDraws) (now : UnixTime)
    (v : BackupVersion) : Except ApiError ExportedVersion := do
  let sealed ←
    match v.value with
    | none => .ok none
    | some value =>
        match F.base64Decode value with
        | none => .error (badRequest "version value is not base64")
        | some plaintext =>
            match SealedVersion.seal P draws keys.master keys.generation ⟨id, v.version.get⟩
                plaintext with
            | .error _ => .error ApiError.internal
            | .ok sealed => .ok (some sealed)
  .ok
    { version := v.version
      state := v.state
      createdAt := parseRfc3339 F v.createdAt now
      createdBy := v.createdBy
      comment := v.comment
      sealed }

/-- The loop over the versions of one secret, from the `j`-th on. -/
def restoreVersions (keys : KeyMaterial P) (draws : RestoreDraws) (i : Nat) :
    Nat → List BackupVersion → Except ApiError (List ExportedVersion)
  | _, [] => .ok []
  | j, v :: vs => do
      let v' ← restoreVersion P F keys (draws.id i) (draws.draws i j) (draws.fallback i j) v
      let rest ← restoreVersions keys draws i (j + 1) vs
      .ok (v' :: rest)

/-- The body of the loop over the secrets. -/
def restoreSecret (keys : KeyMaterial P) (draws : RestoreDraws) (i : Nat)
    (secret : BackupSecret) (store : Store) : Except ApiError Store := do
  let versions ← restoreVersions P F keys draws i 0 secret.versions
  (importSecretWithId store (draws.id i)
    { path := secret.path
      tags := secret.tags
      maxVersions := secret.maxVersions
      currentVersion := secret.currentVersion
      versions } (draws.imported i)).mapError .ofStore

/-- The loop over the secrets, from the `i`-th on, with the store it leaves. -/
def restoreSecrets (keys : KeyMaterial P) (draws : RestoreDraws) :
    Nat → List BackupSecret → Store → Except ApiError Unit × Store
  | _, [], store => (.ok (), store)
  | i, secret :: secrets, store =>
      match restoreSecret P F keys draws i secret store with
      | .error e => (.error e, store)
      | .ok store => restoreSecrets keys draws (i + 1) secrets store

/-- The body of the loop over the policies. -/
def restorePolicy (now : UnixTime) (document : String) (access : Access) :
    Except ApiError Access :=
  match Policy.fromJson F.policyJson document with
  | .error _ => .error (badRequest "bundle contains an unparseable policy")
  | .ok policy => (putPolicy F.policyJson access policy now).mapError .ofStore

/-- The loop over the policies, from the `i`-th on, with the tables it leaves. -/
def restorePolicies (draws : RestoreDraws) :
    Nat → List String → Access → Except ApiError Unit × Access
  | _, [], access => (.ok (), access)
  | i, document :: documents, access =>
      match restorePolicy F (draws.stored i) document access with
      | .error e => (.error e, access)
      | .ok access => restorePolicies draws (i + 1) documents access

/-- What `restore` makes of a request before it takes the lock. -/
def openRestore (request : RestoreRequest) : Except ApiError BackupBundle :=
  match F.base64Decode request.bundle with
  | none => .error (badRequest "bundle must be base64")
  | some raw =>
      match openBundle P F.argon2 (utf8 request.passphrase) raw with
      | .error _ => .error (badRequest "bundle could not be decrypted with that passphrase")
      | .ok opened =>
          match F.bundleFromJson opened with
          | none => .error (badRequest "bundle contents are not a recognised backup")
          | some bundle => .ok bundle

/-- The section of `restore`. -/
def importBundle (s : State P) (bundle : BackupBundle) (draws : RestoreDraws) :
    Except ApiError Unit × State P :=
  if secretCount s.db.store > 0 then
    (.error (badRequest "refusing to restore into a store that already holds secrets"), s)
  else
    match restoreSecrets P F s.keys draws 0 bundle.secrets s.db.store with
    | (.error e, store) => (.error e, { s with db := { s.db with store := store } })
    | (.ok (), store) =>
        let (result, access) := restorePolicies F draws 0 bundle.policies s.access
        (result, { s with db := { s.db with store := store }, access := access })

/-- The names of the policies that a list of documents puts. -/
def policyNames (documents : List String) : List String :=
  documents.filterMap fun document =>
    ((Policy.fromJson F.policyJson document).toOption).map Policy.name

def restore (conn : Connection) (request : RestoreRequest) (draws : RestoreDraws) (env : Env) :
    Code P ApiError RestoreResponse := do
  let caller ← gate P F conn .restore none env.gate
  let bundle ← .ofExcept (openRestore P F request)
  .atomically (.putPolicies (policyNames F bundle.policies)) fun s =>
    importBundle P F s bundle draws
  recordOrInternal P caller .restore none none env
  pure
    { secrets := bundle.secrets.length
      versions := bundle.versionCount
      policies := bundle.policies.length }

end Handlers

/-- An import writes no entry. -/
theorem log_importBundle
    {P : Primitives} (F : Foreign) (s : State P) (bundle : BackupBundle)
    (draws : RestoreDraws) :
    (importBundle P F s bundle draws).2.db.log = s.db.log := by
  unfold importBundle
  split
  · rfl
  split <;> rfl

/-- Without company the two sections are the two transactions. -/
theorem rotate_alone
    {P : Primitives} (draws : RekeyDraws) (s : State P) :
    (rotate P draws).alone s =
      match prepare P draws s.backend s.keys with
      | .error e => (.error e, s)
      | .ok next =>
          let (db, result) := rekeyTransactions P s.keys next draws.nonces none s.db
          (result.map fun counts => (next, counts), { s with db := db }) := by
  rw [rotate, Script.alone_bind, rekeyLog, Script.alone_atomically]
  cases prepare P draws s.backend s.keys with
  | error e => rfl
  | ok next =>
      simp only [rekeyTransactions, reduceCtorEq, if_false]
      cases rekeyChain P s.db.log s.keys.auditKey next.keys.auditKey with
      | error e => rfl
      | ok rekeyed =>
          dsimp only
          rw [Script.andThen_ok, Script.alone_bind, rekeyStore, Script.alone_atomically]
          dsimp only
          cases rekeyWith s.db.store next.sealed (rewrapWith P draws.nonces s.keys.master
              next.keys.master next.keys.generation) <;> rfl

end Service
end Secretbae
