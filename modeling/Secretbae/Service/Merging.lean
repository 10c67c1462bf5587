import Secretbae.Service.Restore

/-!
# Restoring into a store that is not empty

`restore` refuses a store that already holds secrets, and finds out by counting
those with a current version.  A secret all of whose versions are deleted or
destroyed has none and is not counted, so a bundle can be restored next to its
history.  `restore_replaces_iff` says exactly when this does not happen.
-/

namespace Secretbae
namespace Service

open Lib Proto Core Audit Storage Policies
open Daemon (KeyMaterial Database ApiError)

section Merging

variable {P : Primitives} {F : Foreign}

/-- The loop over the secrets adds their paths. -/
theorem restoreSecrets_paths
    {keys : KeyMaterial P} {draws : RestoreDraws} {i : Nat} {secrets : List BackupSecret}
    {store : Store}
    (h : (restoreSecrets P F keys draws i secrets store).1 = .ok ()) (path : SecretPath) :
    (∃ row ∈ (restoreSecrets P F keys draws i secrets store).2.secrets.rows, row.path = path) ↔
      (∃ row ∈ store.secrets.rows, row.path = path) ∨
        ∃ secret ∈ secrets, secret.path = path := by
  induction secrets generalizing i store with
  | nil =>
      simp [restoreSecrets]
  | cons secret secrets ih =>
      unfold restoreSecrets at h ⊢
      cases hsecret : restoreSecret P F keys draws i secret store with
      | error e =>
          simp [hsecret] at h
      | ok store' =>
          rw [hsecret] at h
          obtain ⟨⟨row, hpath, -, hrows⟩, -⟩ := restoreSecret_rows hsecret
          rw [ih h]
          constructor
          · rintro (⟨r, hr, rfl⟩ | ⟨q, hq, rfl⟩)
            · rcases (hrows r).mp hr with hr | rfl
              · exact .inl ⟨r, hr, rfl⟩
              · exact .inr ⟨secret, by simp, hpath.symm⟩
            · exact .inr ⟨q, by simp [hq], rfl⟩
          · rintro (⟨r, hr, rfl⟩ | ⟨q, hq, rfl⟩)
            · exact .inl ⟨r, (hrows r).mpr (.inl hr), rfl⟩
            · rcases List.mem_cons.mp hq with rfl | hq
              · exact .inl ⟨row, (hrows row).mpr (.inr rfl), hpath⟩
              · exact .inr ⟨q, hq, rfl⟩

/-- The paths after a restore that succeeds: those of the bundle next to those before. -/
theorem finishRestore_paths
    {caller : Authenticated} {bundle : BackupBundle} {draws : RestoreDraws} {env : Env}
    {s s' : State P} {response : RestoreResponse}
    (h : finishRestore P F caller bundle draws env s = (.ok response, s')) (path : SecretPath) :
    (∃ row ∈ s'.db.store.secrets.rows, row.path = path) ↔
      (∃ row ∈ s.db.store.secrets.rows, row.path = path) ∨
        ∃ secret ∈ bundle.secrets, secret.path = path := by
  unfold finishRestore at h
  rcases himport : importBundle P F (s.touch P caller.tokenId env.gate.touched) bundle draws with
    ⟨result, t⟩
  rw [himport] at h
  cases result with
  | error e =>
      simp at h
  | ok _ =>
      have hstore : s'.db.store = t.db.store := by
        simp only [Script.andThen_ok, Script.alone_bind, recordOrInternal, record,
          Script.alone_mapError, Script.alone_atomically] at h
        have hkept := t.append_store env.writable (Daemon.recordEntry env.recorded.seconds
          caller.lookupPrefix caller.peer .restore .success none none)
        rcases happend : t.append P env.writable (Daemon.recordEntry env.recorded.seconds
            caller.lookupPrefix caller.peer .restore .success none none) with ⟨out, u⟩
        rw [happend] at h hkept
        cases out with
        | error e =>
            simp [Except.mapError] at h
        | ok _ =>
            cases h
            exact hkept
      rw [hstore]
      unfold importBundle at himport
      split at himport
      · cases himport
      · split at himport
        · cases himport
        · rename_i store hsecrets
          obtain ⟨-, rfl⟩ := Prod.mk.inj himport
          have hpaths := restoreSecrets_paths (by rw [hsecrets]) path
          rw [hsecrets] at hpaths
          exact hpaths

/-- `restore` returns an error and leaves secrets, versions, tags and policies alone. -/
def Refused (P : Primitives) (F : Foreign) (conn : Connection) (request : RestoreRequest)
    (draws : RestoreDraws) (env : Env) (s : State P) : Prop :=
  ∃ e s', (restore P F conn request draws env).alone s = (.error e, s') ∧
    s'.db.store = s.db.store ∧ s'.access.policies = s.access.policies

/-- When a restore is refused, whatever is in the store. -/
theorem refused_iff
    (conn : Connection) (request : RestoreRequest) (draws : RestoreDraws) (env : Env)
    (s : State P) :
    Refused P F conn request draws env s ↔
      ∀ caller bundle,
        check F s.db.store s.access (extractToken F conn.header) conn.peer ⟨.restore, none⟩
          env.gate.checked = .ok caller →
        openRestore P F request = .ok bundle →
        secretCount s.db.store = 0 →
        ¬ StoredWhole F draws env bundle s ∧ NothingStored F draws bundle s := by
  by_cases hopened : ∃ caller bundle,
      check F s.db.store s.access (extractToken F conn.header) conn.peer ⟨.restore, none⟩
        env.gate.checked = .ok caller ∧ openRestore P F request = .ok bundle
  swap
  · refine iff_of_true (restore_unopened draws fun caller bundle hcheck hopen =>
      hopened ⟨caller, bundle, hcheck, hopen⟩) ?_
    exact fun caller bundle hcheck hopen => absurd ⟨caller, bundle, hcheck, hopen⟩ hopened
  obtain ⟨caller, bundle, hcheck, hopen⟩ := hopened
  obtain ⟨hok, hsame⟩ := restore_outcome (F := F) caller bundle draws env s
  unfold Refused
  rw [restore_alone hcheck hopen]
  rcases hfinish : finishRestore P F caller bundle draws env s with ⟨result, t⟩
  rw [hfinish] at hok hsame
  constructor
  · rintro ⟨e, s', heq, hunchanged⟩ caller' bundle' hcheck' hopen' hempty
    cases heq
    rw [hcheck] at hcheck'
    rw [hopen] at hopen'
    cases hcheck'
    cases hopen'
    refine ⟨?_, hsame.mp hunchanged hempty⟩
    intro hwhole
    obtain ⟨response, hresponse⟩ := hok.mpr ⟨hempty, hwhole⟩
    cases hresponse
  · intro h
    have hunchanged := hsame.mpr fun hempty => (h caller bundle hcheck hopen hempty).2
    cases result with
    | error e =>
        exact ⟨e, t, rfl, hunchanged⟩
    | ok response =>
        obtain ⟨hempty, hwhole⟩ := hok.mp ⟨response, rfl⟩
        exact absurd hwhole (h caller bundle hcheck hopen hempty).1

/-- A restore that succeeds has a bundle, and leaves the paths that were there. -/
theorem restore_paths
    {conn : Connection} {request : RestoreRequest} {draws : RestoreDraws} {env : Env}
    {s s' : State P} {response : RestoreResponse} {bundle : BackupBundle}
    (h : (restore P F conn request draws env).alone s = (.ok response, s'))
    (hopen : openRestore P F request = .ok bundle) (path : SecretPath) :
    (∃ row ∈ s'.db.store.secrets.rows, row.path = path) ↔
      (∃ row ∈ s.db.store.secrets.rows, row.path = path) ∨
        ∃ secret ∈ bundle.secrets, secret.path = path := by
  cases hcheck : check F s.db.store s.access (extractToken F conn.header) conn.peer
      ⟨.restore, none⟩ env.gate.checked with
  | error denied =>
      have hnever : ∀ caller bundle,
          check F s.db.store s.access (extractToken F conn.header) conn.peer ⟨.restore, none⟩
            env.gate.checked = .ok caller → openRestore P F request = .ok bundle → False := by
        intro caller bundle hc
        rw [hcheck] at hc
        cases hc
      obtain ⟨e, t, halone, -⟩ := restore_unopened draws hnever
      rw [halone] at h
      cases h
  | ok caller =>
      rw [restore_alone hcheck hopen] at h
      exact finishRestore_paths h path

/--
A restore into a store that has a secret row is refused and changes nothing, and
one that succeeds leaves exactly the paths of its bundle, if and only if: the
store has no secret row, or the caller is turned away, or the bundle does not
open, or a secret has a current version, or the bundle is one of which nothing
can be stored.
-/
theorem restore_replaces_iff
    (P : Primitives) (F : Foreign) (conn : Connection) (request : RestoreRequest)
    (draws : RestoreDraws) (env : Env) (s : State P) :
    ((s.db.store.secrets.rows ≠ [] → Refused P F conn request draws env s) ∧
      ∀ response s' bundle,
        (restore P F conn request draws env).alone s = (.ok response, s') →
        openRestore P F request = .ok bundle →
        ∀ path, (∃ row ∈ s'.db.store.secrets.rows, row.path = path) ↔
          ∃ secret ∈ bundle.secrets, secret.path = path) ↔
      (s.db.store.secrets.rows ≠ [] → ∀ caller bundle,
        check F s.db.store s.access (extractToken F conn.header) conn.peer ⟨.restore, none⟩
          env.gate.checked = .ok caller →
        openRestore P F request = .ok bundle →
        (∀ row ∈ s.db.store.secrets.rows, row.currentVersion = none) →
        ¬ StoredWhole F draws env bundle s ∧ NothingStored F draws bundle s) := by
  have hcount : (∀ row ∈ s.db.store.secrets.rows, row.currentVersion = none) ↔
      secretCount s.db.store = 0 := by
    simp [secretCount, List.countP_eq_zero]
  simp only [hcount]
  rw [← refused_iff]
  refine ⟨And.left, fun h => ⟨h, ?_⟩⟩
  intro response s' bundle halone hopen path
  rw [restore_paths halone hopen path]
  have hempty : s.db.store.secrets.rows = [] := by
    by_contra hne
    obtain ⟨e, t, herror, -⟩ := h hne
    rw [halone] at herror
    cases herror
  simp [hempty]

end Merging

section Samples

def apiPath : SecretPath :=
  ⟨"prod/api", by decide⟩

/-- A store with one secret, whose only version is deleted. -/
def deletedStore : Store :=
  (run (VaultOp.step samplePrimitives) sampleVault
    [.write samplePath (sampleUuid 5) (sampleTime 50) sampleDraws [1, 2, 3]
        ⟨none, none⟩ (sampleTime 50),
      .deleteVersion samplePath .current .soft (sampleTime 60)]).store

def deletedState : State samplePrimitives :=
  { sampleState opsPolicy opsDocument with
    db := { (sampleState opsPolicy opsDocument).db with store := deletedStore } }

/-- A bundle with a secret at another path. -/
def apiBundle : BackupBundle where
  createdAt := "1970-01-01T00:01:40Z"
  secrets :=
    [{ path := apiPath
       tags := []
       maxVersions := 10
       currentVersion := some firstVersion
       versions :=
         [⟨firstVersion, .active, "1970-01-01T00:01:30Z", none, none, some "AQID"⟩] }]
  policies := []

def apiBundleJson : String :=
  "\x7b\"created_at\":\"1970-01-01T00:01:40Z\",\"secrets\":[\x7b\"path\":\"prod/api\"," ++
    "\"tags\":[],\"max_versions\":10,\"current_version\":1,\"versions\":[\x7b\"version\":1," ++
    "\"state\":\"active\",\"created_at\":\"1970-01-01T00:01:30Z\",\"created_by\":null," ++
    "\"comment\":null,\"value\":\"AQID\"\x7d]\x7d],\"policies\":[]\x7d"

/-- The bundle is restored next to the deleted secret. -/
theorem restore_merges_histories :
    deletedState.db.store.secrets.rows.map SecretRow.path = [samplePath] ∧
      ∃ response s',
        (restore samplePrimitives (bundleForeign apiBundle apiBundleJson) sampleConnection
          ⟨"hunter2", Base64.encode (sampleSealed apiBundleJson)⟩ sampleRestoreDraws
          (sampleEnv true)).alone deletedState = (.ok response, s') ∧
        s'.db.store.secrets.rows.map SecretRow.path = [samplePath, apiPath] := by
  have hrun :
      deletedState.db.store.secrets.rows.map SecretRow.path = [samplePath] ∧
      (match check (bundleForeign apiBundle apiBundleJson) deletedState.db.store
          deletedState.access
          (extractToken (bundleForeign apiBundle apiBundleJson) sampleConnection.header)
          sampleConnection.peer ⟨.restore, none⟩ (sampleEnv true).gate.checked with
      | .error _ => false
      | .ok caller =>
          match finishRestore samplePrimitives (bundleForeign apiBundle apiBundleJson) caller
              apiBundle sampleRestoreDraws (sampleEnv true) deletedState with
          | (.error _, _) => false
          | (.ok _, s') =>
              decide (s'.db.store.secrets.rows.map SecretRow.path = [samplePath, apiPath])) =
        true := by
    decide +kernel
  obtain ⟨hrows, hrun⟩ := hrun
  refine ⟨hrows, ?_⟩
  split at hrun
  · cases hrun
  rename_i caller hcheck
  rw [restore_alone hcheck (openRestore_sample apiBundle apiBundleJson)]
  split at hrun
  · cases hrun
  rename_i response s' hfinish
  exact ⟨response, s', hfinish, of_decide_eq_true hrun⟩

end Samples

end Service
end Secretbae
