import Secretbae.Cli.Profile
import Secretbae.Service.Hidden
import Secretbae.Store.Current

/-!
# `secretbae exec`

`resolve_profile` lists the secrets under each prefix of a profile, asks the
daemon for all paths in one batch and hands out the answers.  The batch carries
paths only, so the daemon answers with current versions; a pinned version is
compared with the answer and never asked for.  `resolveProfile_meets_iff` says
which profiles this resolves to what they declare.

The requests and the daemon's handlers run one after another on one state;
nobody else changes it in between.
-/

namespace Secretbae
namespace Cli

open Lib Proto Core Audit Storage Policies Service
open Daemon (KeyMaterial Denied ApiError selectorOf)

/-- A variable that a profile asks for. -/
structure MappedVar where
  name : String
  path : SecretPath
  version : Option Version
deriving DecidableEq

def EnvEntry.mapped (entry : EnvEntry) : MappedVar :=
  ⟨entry.name, entry.path, entry.version⟩

/-- The variable of a secret that a prefix brings in. -/
def derivedVar (path : SecretPath) : MappedVar :=
  ⟨screamingSnake (leaf path), path, none⟩

/-- The clock readings that the requests of a resolution meet. -/
structure ExecEnv where
  lists : Nat → Env
  resolve : ResolveEnv

/-- The paths in the order of their first use, each once. -/
def uniquePaths (paths : List SecretPath) : List SecretPath :=
  paths.foldl (fun unique path => if path ∈ unique then unique else unique ++ [path]) []

/-- `resolved_map`: a later answer for a path replaces an earlier one. -/
def resolvedMap (secrets : List ResolvedDto) : SecretPath → Option (Version × String) :=
  secrets.foldl
    (fun m secret => Function.update m secret.path (some (secret.version, secret.value)))
    fun _ => none

section Client

variable (P : Primitives) (F : Foreign)

/-- The loop over `env_from`, from entry number `i` on. -/
def expandFrom (conn : Connection) (lists : Nat → Env) :
    Nat → List EnvFromEntry → Code P ExecError (List MappedVar)
  | _, [] => pure []
  | i, entry :: entries =>
      if entry.transform ≠ "screaming_snake" then
        .fail (.unsupportedTransform entry.transform)
      else do
        let secrets ←
          (listSecrets P F conn ⟨some entry.pathPrefix, []⟩ (lists i)).mapError
            fun e => .daemon e.message
        let rest ← expandFrom conn lists (i + 1) entries
        pure (secrets.map (fun secret => derivedVar secret.path) ++ rest)

/-- A pinned version is compared with the one that came. -/
def checkPin (var : MappedVar) (version : Version) : Except ExecError Unit :=
  match var.version with
  | none => .ok ()
  | some expected =>
      if version ≠ expected then .error (.otherVersion var.path version expected) else .ok ()

/-- The value of one variable, from the answers of the daemon. -/
def injected (resolved : SecretPath → Option (Version × String)) (var : MappedVar) :
    Except ExecError (String × String) :=
  match resolved var.path with
  | none => .error (.notReturned var.path)
  | some (version, value) => do
      checkPin var version
      match F.base64Decode value with
      | none => .error (.notBase64 var.path)
      | some bytes =>
          match ofUtf8 bytes with
          | none => .error (.notUtf8 var.path)
          | some text => .ok (var.name, text)

/-- The batched request, and the value of each variable from its answer. -/
def fetchVars (conn : Connection) (vars : List MappedVar) (env : ResolveEnv) :
    Code P ExecError (List (String × String)) :=
  if vars.isEmpty then pure []
  else do
    let secrets ←
      (resolve P F conn (uniquePaths (vars.map MappedVar.path)) env).mapError
        fun e => .daemon e.message
    Script.ofExcept (vars.mapM (injected F (resolvedMap secrets)))

/-- `resolve_profile`. -/
def resolveProfile (conn : Connection) (prof : Profile) (env : ExecEnv) :
    Code P ExecError (List (String × String)) := do
  let derived ← expandFrom P F conn env.lists 0 prof.envFrom
  let vars := prof.env.map EnvEntry.mapped ++ derived
  Script.ofExcept (checkNoDuplicateEnvNames (vars.map fun var => (var.name, var.path)))
  fetchVars P F conn vars env.resolve

end Client

section Pieces

variable {F : Foreign}

theorem checkPin_eq_ok_iff
    {var : MappedVar} {version : Version} :
    checkPin var version = .ok () ↔ ∀ v, var.version = some v → version = v := by
  unfold checkPin
  cases var.version with
  | none => simp
  | some expected =>
      by_cases h : version = expected
      · simp [h]
      · simp [h]

theorem injected_eq_ok_iff
    {resolved : SecretPath → Option (Version × String)} {var : MappedVar}
    {pair : String × String} :
    injected F resolved var = .ok pair ↔
      ∃ version value bytes, resolved var.path = some (version, value) ∧
        (∀ v, var.version = some v → version = v) ∧
        F.base64Decode value = some bytes ∧ bytes = utf8 pair.2 ∧ pair.1 = var.name := by
  unfold injected
  constructor
  · intro h
    split at h
    · cases h
    rename_i version value hresolved
    obtain ⟨_, hpin, h⟩ := bind_eq_ok.mp h
    split at h
    · cases h
    rename_i bytes hbytes
    split at h
    · cases h
    rename_i text htext
    cases h
    exact ⟨version, value, bytes, hresolved, checkPin_eq_ok_iff.mp hpin, hbytes,
      ofUtf8_eq_some_iff.mp htext, rfl⟩
  · rintro ⟨version, value, bytes, hresolved, hpin, hbytes, htext, hname⟩
    simp only [hresolved, checkPin_eq_ok_iff.mpr hpin, hbytes, ofUtf8_eq_some_iff.mpr htext,
      bind, Except.bind]
    rw [← hname]

theorem mem_uniquePaths
    {paths : List SecretPath} {path : SecretPath} :
    path ∈ uniquePaths paths ↔ path ∈ paths := by
  have hfold : ∀ unique : List SecretPath,
      path ∈ paths.foldl (fun unique path => if path ∈ unique then unique else unique ++ [path])
        unique ↔ path ∈ unique ∨ path ∈ paths := by
    intro unique
    induction paths generalizing unique with
    | nil =>
        simp
    | cons q paths ih =>
        rw [List.foldl_cons, ih, List.mem_cons]
        by_cases hq : q ∈ unique
        · rw [if_pos hq]
          constructor
          · rintro (h | h)
            · exact .inl h
            · exact .inr (.inr h)
          · rintro (h | rfl | h)
            · exact .inl h
            · exact .inl hq
            · exact .inr h
        · rw [if_neg hq, List.mem_append, List.mem_singleton, or_assoc]
  rw [uniquePaths, hfold]
  simp

/-- What is looked up is one of the answers, and every path that was answered is found. -/
theorem resolvedMap_cases
    (secrets : List ResolvedDto) (path : SecretPath) :
    (∃ secret ∈ secrets, secret.path = path ∧
        resolvedMap secrets path = some (secret.version, secret.value)) ∨
      ((∀ secret ∈ secrets, secret.path ≠ path) ∧ resolvedMap secrets path = none) := by
  induction secrets using List.reverseRecOn with
  | nil =>
      exact .inr ⟨by simp, rfl⟩
  | append_singleton secrets last ih =>
      have hstep : resolvedMap (secrets ++ [last]) =
          Function.update (resolvedMap secrets) last.path (some (last.version, last.value)) := by
        simp [resolvedMap]
      rw [hstep]
      by_cases hlast : last.path = path
      · exact .inl ⟨last, by simp, hlast, by rw [← hlast, Function.update_self]⟩
      · rw [Function.update_of_ne (Ne.symm hlast)]
        rcases ih with ⟨secret, hsecret, hpath, hfound⟩ | ⟨hnone, hfound⟩
        · exact .inl ⟨secret, List.mem_append_left _ hsecret, hpath, hfound⟩
        · refine .inr ⟨?_, hfound⟩
          intro secret hsecret
          rcases List.mem_append.mp hsecret with h | h
          · exact hnone secret h
          · rw [List.mem_singleton.mp h]
            exact hlast

end Pieces

section Values

variable {P : Primitives} {keys : KeyMaterial P} {store : Store} {path : SecretPath}

theorem yields_version
    {v : Version} {item : ResolvedSecret}
    (h : Yields P keys store ⟨path, some v⟩ item) :
    item.version = v := by
  obtain ⟨secret, row, sealed, -, -, hpick, -⟩ := h
  exact (Option.some.inj hpick).symm

/-- Asking for the current version is asking for the version that is current. -/
theorem yields_current_iff
    {item : ResolvedSecret} :
    Yields P keys store ⟨path, none⟩ item ↔
      store.currentAt path = some item.version ∧
        Yields P keys store ⟨path, some item.version⟩ item := by
  constructor
  · rintro ⟨secret, row, sealed, hsecret, hpath, hpick, hrest⟩
    have hfound : store.secretByPath path = some secret :=
      Store.secretByPath_eq_some_iff.mpr ⟨hsecret, hpath⟩
    refine ⟨?_, secret, row, sealed, hsecret, hpath, rfl, hrest⟩
    rw [Store.currentAt, hfound]
    exact hpick
  · rintro ⟨hcurrent, secret, row, sealed, hsecret, hpath, -, hrest⟩
    have hfound : store.secretByPath path = some secret :=
      Store.secretByPath_eq_some_iff.mpr ⟨hsecret, hpath⟩
    rw [Store.currentAt, hfound] at hcurrent
    exact ⟨secret, row, sealed, hsecret, hpath, hcurrent, hrest⟩

theorem yields_unique
    {target : ResolveTarget} {item item' : ResolvedSecret}
    (h : Yields P keys store target item)
    (h' : Yields P keys store target item') :
    item = item' :=
  Except.ok.inj ((readTarget_eq_ok_iff.mpr h).symm.trans (readTarget_eq_ok_iff.mpr h'))

/-- Every path of a batch is found among its answers. -/
theorem resolvedMap_of_yields
    {F : Foreign} {paths : List SecretPath} {resolved : List ResolvedSecret}
    (h : List.Forall₂ (fun path => Yields P keys store ⟨path, none⟩) paths resolved)
    (hpath : path ∈ paths) :
    ∃ item, Yields P keys store ⟨path, none⟩ item ∧
      resolvedMap (resolved.map (resolvedDto F)) path =
        some (item.version, F.base64Encode item.plaintext) := by
  have hitem : ∀ {q item}, Yields P keys store ⟨q, none⟩ item → item.path = q := by
    rintro q item ⟨secret, row, sealed, -, -, -, -, -, -, -, -, -, hq⟩
    exact hq
  rcases resolvedMap_cases (resolved.map (resolvedDto F)) path with
    ⟨secret, hsecret, hsame, hfound⟩ | ⟨hnone, -⟩
  · obtain ⟨item, hmem, rfl⟩ := List.mem_map.mp hsecret
    obtain ⟨q, -, hyields⟩ := forall₂_mem_right h hmem
    have hq : q = path := (hitem hyields).symm.trans hsame
    exact ⟨item, hq ▸ hyields, hfound⟩
  · obtain ⟨item, hmem, hyields⟩ := forall₂_mem_left h hpath
    exact absurd (hitem hyields) (hnone _ (List.mem_map.mpr ⟨item, hmem, rfl⟩))

end Values

section Requests

variable {P : Primitives} {F : Foreign} {conn : Connection} {s s' : State P}

/-- The states differ at most in the last use of tokens and in the audit log. -/
structure OnlyRead (s s' : State P) : Prop where
  keys : s'.keys = s.keys
  store : s'.db.store = s.db.store
  access : s.access.SameExceptUse s'.access

theorem OnlyRead.check_eq
    (h : OnlyRead s s') (presented : Except Denied PresentedToken)
    (peer : Daemon.PeerCredentials) (requested : Requested) (now : UnixTime) :
    check F s'.db.store s'.access presented peer requested now =
      check F s.db.store s.access presented peer requested now := by
  rw [h.store, check_congr h.access]

theorem OnlyRead.touch
    (h : OnlyRead s s') (id : Uuid) (now : UnixTime) :
    OnlyRead s (s'.touch P id now) :=
  ⟨h.keys, h.store, h.access.trans (touchToken_sameExceptUse _ _ _)⟩

/-- An entry that there is room for is written. -/
theorem append_of_room
    {writable : Bool} {n : Nat} (s : State P)
    (hwritable : writable = true)
    (hroom : s.db.log.Room (n + 1)) (entry : AuditEntry) :
    ∃ log, s.append P writable entry = (.ok (), { s with db := { s.db with log := log } }) ∧
      log.Room n := by
  rcases s.append_cases writable entry with ⟨log, record, -, happend, heq⟩ | ⟨e, heq⟩
  · exact ⟨log, heq, hroom.append happend⟩
  · have hok : (s.append P writable entry).1 = .ok () :=
      State.append_isOk_iff.mpr ⟨hwritable, hroom.appendable⟩
    rw [heq] at hok
    cases hok

/-- A listing that is permitted and recorded shows all that the caller may see. -/
theorem listSecrets_alone
    {pathPrefix : String} {env : Env} {listed : List SecretSummary} {n : Nat}
    (h : OnlyRead s s')
    (hgate : Accepts F s.db.store s.access (extractToken F conn.header) conn.peer
      ⟨.list, none⟩ env.gate.checked)
    (hlisted : list s.db.store ⟨some pathPrefix, [], false⟩ = .ok listed)
    (hsees : ∀ policies, PoliciesOf F s.access (extractToken F conn.header) policies →
      ∀ x ∈ listed, isVisible policies x = true)
    (hwritable : env.writable = true)
    (hroom : s'.db.log.Room (n + 1)) :
    ∃ s'', (listSecrets P F conn ⟨some pathPrefix, []⟩ env).alone s' =
        (.ok (listed.map (summaryDto F)), s'') ∧
      OnlyRead s s'' ∧ s''.db.log.Room n := by
  obtain ⟨caller, hcheck⟩ := hgate
  have hcheck' := hcheck
  obtain ⟨-, token, record, policies, -, htoken, hrecord, -, -, hpolicies, -, rfl⟩ :=
    check_eq_ok_iff.mp hcheck'
  rw [← h.check_eq] at hcheck
  rw [← h.store] at hlisted
  have htouch := h.touch record.id env.gate.touched
  have hvisible : listed.filter (isVisible policies) = listed :=
    List.filter_eq_self.mpr (hsees policies ⟨token, record, htoken, hrecord, hpolicies⟩)
  have hpolicies' : policiesForToken F.policyJson
      (s'.touch P record.id env.gate.touched).access record.id = .ok policies := by
    rw [htouch.access.policiesForToken_eq, hpolicies]
  obtain ⟨log, happend, hroom'⟩ := append_of_room
    (s'.touch P record.id env.gate.touched) hwritable hroom
    (Daemon.recordEntry env.recorded.seconds record.lookupPrefix conn.peer .list .success none
      none)
  refine ⟨{ s'.touch P record.id env.gate.touched with
    db := { (s'.touch P record.id env.gate.touched).db with log := log } }, ?_, ?_, hroom'⟩
  · simp only [listSecrets, Script.alone_bind, gate_alone, hcheck, Script.andThen_ok, look,
      Script.alone_atomically, State.touch_db, hlisted, Except.mapError, filterVisible,
      hpolicies', hvisible, recordOrInternal, Service.record, Script.alone_mapError, happend,
      Script.alone_pure]
  · exact ⟨htouch.keys, htouch.store, htouch.access⟩

/-- The answer to a batch that is permitted and recorded. -/
theorem resolve_alone_iff
    {paths : List SecretPath} {env : ResolveEnv} {secrets : List ResolvedDto}
    (h : OnlyRead s s')
    (hgate : Accepts F s.db.store s.access (extractToken F conn.header) conn.peer
      ⟨.resolve, none⟩ env.batch.gate.checked)
    (hpass : ∀ i path, paths[i]? = some path →
      Accepts F s.db.store s.access (extractToken F conn.header) conn.peer
        ⟨.resolve, some path⟩ (env.targets i).checked)
    (hwritable : env.batch.writable = true)
    (hroom : s'.db.log.Room 1) :
    ((resolve P F conn paths env).alone s').1 = .ok secrets ↔
      ∃ resolved,
        List.Forall₂ (fun path => Yields P s.keys s.db.store ⟨path, none⟩) paths resolved ∧
          secrets = resolved.map (resolvedDto F) := by
  obtain ⟨caller, hcheck⟩ := hgate
  rw [← h.check_eq] at hcheck
  have htargets : TargetsPass F s' (extractToken F conn.header) conn.peer env.targets 0
      (paths.map fun path => ⟨path, none⟩) := by
    intro i target ht
    rw [List.getElem?_map, Option.map_eq_some_iff] at ht
    obtain ⟨path, hpath, rfl⟩ := ht
    rw [Nat.zero_add]
    obtain ⟨caller', hcaller'⟩ := hpass i path hpath
    exact ⟨caller', by rw [h.check_eq, hcaller']⟩
  have hforall : ∀ resolved,
      List.Forall₂ (Yields P s'.keys s'.db.store) (paths.map fun path => ⟨path, none⟩) resolved ↔
        List.Forall₂ (fun path => Yields P s.keys s.db.store ⟨path, none⟩) paths resolved := by
    intro resolved
    rw [h.keys, h.store, List.forall₂_map_left_iff]
  have hrun : ((resolve P F conn paths env).alone s').1 =
      (((resolveSecrets P F (extractToken F conn.header) conn.peer
        (paths.map fun path => ⟨path, none⟩) env).alone s').1.mapError
          ResolveFailure.apiError).map fun resolved => resolved.map (resolvedDto F) := by
    rw [Service.resolve, Script.alone_bind, Script.alone_mapError]
    cases ((resolveSecrets P F (extractToken F conn.header) conn.peer
      (paths.map fun path => ⟨path, none⟩) env).alone s').1 <;> rfl
  rw [hrun, map_eq_ok]
  constructor
  · rintro ⟨resolved, hresolved, rfl⟩
    obtain ⟨caller', log, record, -, -, hyields, -⟩ :=
      resolveSecrets_ok (Prod.ext (mapError_eq_ok.mp hresolved) rfl)
    exact ⟨resolved, (hforall resolved).mp hyields, rfl⟩
  · rintro ⟨resolved, hyields, rfl⟩
    obtain ⟨s'', hok⟩ := exists_resolveSecrets hcheck htargets ((hforall resolved).mpr hyields)
      (State.append_isOk_iff.mpr ⟨hwritable, hroom.appendable⟩)
    refine ⟨resolved, ?_, rfl⟩
    rw [hok]
    rfl

end Requests

section Declared

variable (P : Primitives)

/-- The variables that an entry of `env_from` brings in: one for each secret listed under it. -/
def EnvFromEntry.vars (store : Store) (entry : EnvFromEntry) : List MappedVar :=
  match list store ⟨some entry.pathPrefix, [], false⟩ with
  | .ok listed => listed.map fun secret => derivedVar secret.path
  | .error _ => []

/-- The variables that a profile declares. -/
def Profile.vars (store : Store) (prof : Profile) : List MappedVar :=
  prof.env.map EnvEntry.mapped ++ prof.envFrom.flatMap (EnvFromEntry.vars store)

/-- The value of a variable: its pinned version, or else the current one, exists and is text. -/
def HasValue (keys : KeyMaterial P) (store : Store) (var : MappedVar) (value : String) : Prop :=
  ∃ item, Yields P keys store ⟨var.path, var.version⟩ item ∧ item.plaintext = utf8 value

/-- What a profile needs: known transforms, distinct names, and a value for each variable. -/
structure Resolvable (keys : KeyMaterial P) (store : Store) (prof : Profile) : Prop where
  transforms : ∀ entry ∈ prof.envFrom, entry.transform = "screaming_snake"
  names : ((prof.vars store).map MappedVar.name).Nodup
  values : ∀ var ∈ prof.vars store, ∃ value, HasValue P keys store var value

/-- Every pinned version is the one that is current at its path. -/
def PinsCurrent (store : Store) (prof : Profile) : Prop :=
  ∀ entry ∈ prof.env, ∀ v, entry.version = some v → store.currentAt entry.path = some v

variable {P}

/--
The token may list and read all paths involved, and the daemon can record the
requests.
-/
structure Permitted (F : Foreign) (s : State P) (conn : Connection) (prof : Profile)
    (env : ExecEnv) : Prop where
  lists : ∀ i, i < prof.envFrom.length →
    Accepts F s.db.store s.access (extractToken F conn.header) conn.peer ⟨.list, none⟩
      (env.lists i).gate.checked
  sees : ∀ policies, PoliciesOf F s.access (extractToken F conn.header) policies →
    ∀ entry ∈ prof.envFrom, ∀ listed,
      list s.db.store ⟨some entry.pathPrefix, [], false⟩ = .ok listed →
        ∀ x ∈ listed, isVisible policies x = true
  batch : Accepts F s.db.store s.access (extractToken F conn.header) conn.peer
    ⟨.resolve, none⟩ env.resolve.batch.gate.checked
  reads : ∀ i path, (uniquePaths ((prof.vars s.db.store).map MappedVar.path))[i]? = some path →
    Accepts F s.db.store s.access (extractToken F conn.header) conn.peer
      ⟨.resolve, some path⟩ (env.resolve.targets i).checked
  writable : (∀ i, (env.lists i).writable = true) ∧ env.resolve.batch.writable = true
  room : s.db.log.Room (prof.envFrom.length + 1)

end Declared

section Runs

variable {P : Primitives} {F : Foreign} {conn : Connection} {prof : Profile} {env : ExecEnv}
  {s s' : State P}

/-- The loop over `env_from` ends with the variables declared there. -/
theorem expandFrom_alone
    {i n : Nat} {entries : List EnvFromEntry}
    (hdated : s.db.store.Dated)
    (hsub : entries = prof.envFrom.drop i)
    (h : Permitted F s conn prof env)
    (hread : OnlyRead s s')
    (hroom : s'.db.log.Room (entries.length + n)) :
    (∃ s'', (expandFrom P F conn env.lists i entries).alone s' =
          (.ok (entries.flatMap (EnvFromEntry.vars s.db.store)), s'') ∧
        (∀ entry ∈ entries, entry.transform = "screaming_snake") ∧
        OnlyRead s s'' ∧ s''.db.log.Room n) ∨
      ((∃ e s'', (expandFrom P F conn env.lists i entries).alone s' = (.error e, s'')) ∧
        ∃ entry ∈ entries, entry.transform ≠ "screaming_snake") := by
  induction entries generalizing i s' with
  | nil =>
      rw [List.length_nil, Nat.zero_add] at hroom
      exact .inl ⟨s', rfl, by simp, hread, hroom⟩
  | cons entry entries ih =>
      rw [expandFrom]
      by_cases htransform : entry.transform = "screaming_snake"
      · rw [if_neg (not_not.mpr htransform)]
        have hlt : i < prof.envFrom.length := by
          by_contra hle
          rw [List.drop_eq_nil_of_le (by omega)] at hsub
          cases hsub
        have hentry : entry ∈ prof.envFrom :=
          List.mem_of_mem_drop (hsub ▸ List.mem_cons_self)
        obtain ⟨listed, hlisted, -⟩ :=
          list_spec hdated (ListFilter.length_le_of_untagged (some entry.pathPrefix) false)
        rw [List.length_cons, Nat.add_right_comm] at hroom
        obtain ⟨mid, hmid, hread', hroom'⟩ := listSecrets_alone hread (h.lists i hlt) hlisted
          (fun policies hpolicies => h.sees policies hpolicies entry hentry listed hlisted)
          (h.writable.1 i) hroom
        have hsub' : entries = prof.envFrom.drop (i + 1) := by
          rw [← List.tail_drop, ← hsub]
          rfl
        have hvars : EnvFromEntry.vars s.db.store entry =
            (listed.map (summaryDto F)).map fun secret => derivedVar secret.path := by
          simp only [EnvFromEntry.vars, hlisted, List.map_map]
          rfl
        rw [Script.alone_bind, Script.alone_mapError, hmid]
        simp only [Except.mapError, Script.andThen_ok, Script.alone_bind]
        rcases ih hsub' hread' hroom' with ⟨s'', hrun, hall, hread'', hroom''⟩ |
          ⟨⟨e, s'', herror⟩, other, hother, hne⟩
        · refine .inl ⟨s'', ?_, ?_, hread'', hroom''⟩
          · rw [hrun, List.flatMap_cons, hvars]
            rfl
          · exact List.forall_mem_cons.mpr ⟨htransform, hall⟩
        · refine .inr ⟨⟨e, s'', ?_⟩, other, List.mem_cons_of_mem _ hother, hne⟩
          rw [herror]
          rfl
      · rw [if_pos htransform]
        exact .inr ⟨⟨_, _, rfl⟩, entry, List.mem_cons_self, htransform⟩

/-- The batched request ends well when every path and then every variable has a value. -/
theorem fetchVars_eq_ok_iff
    {vars : List MappedVar} {pairs : List (String × String)}
    (hvars : prof.vars s.db.store = vars)
    (h : Permitted F s conn prof env)
    (hread : OnlyRead s s')
    (hroom : s'.db.log.Room 1) :
    ((fetchVars P F conn vars env.resolve).alone s').1 = .ok pairs ↔
      ∃ resolved,
        List.Forall₂ (fun path => Yields P s.keys s.db.store ⟨path, none⟩)
          (uniquePaths (vars.map MappedVar.path)) resolved ∧
        vars.mapM (injected F (resolvedMap (resolved.map (resolvedDto F)))) = .ok pairs := by
  have hreads := h.reads
  rw [hvars] at hreads
  have hresolve : ∀ secrets, ((resolve P F conn (uniquePaths (vars.map MappedVar.path))
      env.resolve).alone s').1 = .ok secrets ↔ _ :=
    fun secrets => resolve_alone_iff hread h.batch hreads h.writable.2 hroom
  unfold fetchVars
  cases vars with
  | nil =>
      simp only [List.isEmpty_nil, if_true, Script.alone_pure, Except.ok.injEq]
      constructor
      · rintro rfl
        exact ⟨[], .nil, rfl⟩
      · rintro ⟨resolved, -, hpairs⟩
        cases hpairs
        rfl
  | cons var vars =>
      simp only [List.isEmpty_cons, Bool.false_eq_true, if_false, Script.alone_bind,
        Script.alone_mapError]
      cases hanswer : ((resolve P F conn (uniquePaths ((var :: vars).map MappedVar.path))
          env.resolve).alone s').1 with
      | error e =>
          simp only [Except.mapError, Script.andThen_error]
          refine iff_of_false (by simp) ?_
          rintro ⟨resolved, hyields, -⟩
          have hok := (hresolve _).mpr ⟨resolved, hyields, rfl⟩
          rw [hanswer] at hok
          cases hok
      | ok secrets =>
          simp only [Except.mapError, Script.andThen_ok, Script.alone_ofExcept]
          obtain ⟨resolved, hyields, rfl⟩ := (hresolve secrets).mp hanswer
          constructor
          · intro hpairs
            exact ⟨resolved, hyields, hpairs⟩
          · rintro ⟨resolved', hyields', hpairs⟩
            have hok := (hresolve _).mpr ⟨resolved', hyields', rfl⟩
            rw [hanswer] at hok
            rw [Except.ok.inj hok]
            exact hpairs

/-- What a resolution that ends well has gone through. -/
theorem resolveProfile_eq_ok_iff
    {pairs : List (String × String)}
    (hdated : s.db.store.Dated)
    (h : Permitted F s conn prof env) :
    ((resolveProfile P F conn prof env).alone s).1 = .ok pairs ↔
      (∀ entry ∈ prof.envFrom, entry.transform = "screaming_snake") ∧
      ((prof.vars s.db.store).map MappedVar.name).Nodup ∧
      ∃ resolved,
        List.Forall₂ (fun path => Yields P s.keys s.db.store ⟨path, none⟩)
          (uniquePaths ((prof.vars s.db.store).map MappedVar.path)) resolved ∧
        (prof.vars s.db.store).mapM (injected F (resolvedMap (resolved.map (resolvedDto F)))) =
          .ok pairs := by
  rcases expandFrom_alone hdated (List.drop_zero).symm h ⟨rfl, rfl, .refl _⟩ h.room with
    ⟨mid, hrun, hall, hread, hroom⟩ | ⟨⟨e, mid, hrun⟩, entry, hentry, hne⟩
  · have hvars : prof.env.map EnvEntry.mapped ++
        prof.envFrom.flatMap (EnvFromEntry.vars s.db.store) = prof.vars s.db.store := rfl
    have hnames : ((prof.vars s.db.store).map fun var => (var.name, var.path)).map Prod.fst =
        (prof.vars s.db.store).map MappedVar.name := by
      rw [List.map_map]
      rfl
    rw [resolveProfile, Script.alone_bind, hrun, Script.andThen_ok, Script.alone_bind,
      Script.alone_ofExcept, hvars]
    cases hcheck : checkNoDuplicateEnvNames
        ((prof.vars s.db.store).map fun var => (var.name, var.path)) with
    | error e =>
        rw [Script.andThen_error]
        refine iff_of_false (by simp) ?_
        rintro ⟨-, hnodup, -⟩
        rw [← hnames, ← checkNoDuplicateEnvNames_eq_ok_iff, hcheck] at hnodup
        cases hnodup
    | ok u =>
        have hnodup := checkNoDuplicateEnvNames_eq_ok_iff.mp hcheck
        rw [hnames] at hnodup
        rw [Script.andThen_ok, fetchVars_eq_ok_iff rfl h hread hroom]
        exact ⟨fun hok => ⟨hall, hnodup, hok⟩, fun hok => hok.2.2⟩
  · rw [resolveProfile, Script.alone_bind, hrun, Script.andThen_error]
    refine iff_of_false (by simp) ?_
    rintro ⟨hall, -⟩
    exact hne (hall entry hentry)

/-- A variable gets its value, provided that a version it pins is current. -/
theorem injected_of_yields
    {vars : List MappedVar} {var : MappedVar} {resolved : List ResolvedSecret}
    {pair : String × String} {keys : KeyMaterial P} {store : Store}
    (hbase64 : ∀ bytes, F.base64Decode (F.base64Encode bytes) = some bytes)
    (hyields : List.Forall₂ (fun path => Yields P keys store ⟨path, none⟩)
      (uniquePaths (vars.map MappedVar.path)) resolved)
    (hvar : var ∈ vars) :
    injected F (resolvedMap (resolved.map (resolvedDto F))) var = .ok pair ↔
      pair.1 = var.name ∧ HasValue P keys store var pair.2 ∧
        ∀ v, var.version = some v → store.currentAt var.path = some v := by
  have hpath : var.path ∈ uniquePaths (vars.map MappedVar.path) :=
    mem_uniquePaths.mpr (List.mem_map.mpr ⟨var, hvar, rfl⟩)
  obtain ⟨item, hitem, hfound⟩ := resolvedMap_of_yields (F := F) hyields hpath
  obtain ⟨hcurrent, hexact⟩ := yields_current_iff.mp hitem
  rw [injected_eq_ok_iff]
  constructor
  · rintro ⟨version, value, bytes, hmap, hpin, hdecode, htext, hname⟩
    rw [hfound] at hmap
    cases hmap
    rw [hbase64] at hdecode
    cases hdecode
    refine ⟨hname, ⟨item, ?_, htext⟩, ?_⟩
    · cases hversion : var.version with
      | none => exact hitem
      | some v =>
          rw [← hpin v hversion]
          exact hexact
    · intro v hversion
      rw [hcurrent, hpin v hversion]
  · rintro ⟨hname, ⟨item', hitem', htext⟩, hpins⟩
    have hpin : ∀ v, var.version = some v → item.version = v := by
      intro v hversion
      exact Option.some.inj (hcurrent.symm.trans (hpins v hversion))
    have hsame : item' = item := by
      cases hversion : var.version with
      | none =>
          rw [hversion] at hitem'
          exact yields_unique hitem' hitem
      | some v =>
          rw [hversion, ← hpin v hversion] at hitem'
          exact yields_unique hitem' hexact
    rw [hsame] at htext
    exact ⟨item.version, _, item.plaintext, hfound, hpin, hbase64 _, htext, hname⟩

/-- A derived variable has no pin, so only the entries of `env` matter. -/
theorem pins_of_vars
    {store : Store} :
    (∀ var ∈ prof.vars store, ∀ v, var.version = some v → store.currentAt var.path = some v) ↔
      PinsCurrent store prof := by
  constructor
  · intro h entry hentry v hv
    exact h entry.mapped (List.mem_append_left _ (List.mem_map.mpr ⟨entry, hentry, rfl⟩)) v hv
  · intro h var hvar v hv
    rcases List.mem_append.mp hvar with henv | hfrom
    · obtain ⟨entry, hentry, rfl⟩ := List.mem_map.mp henv
      exact h entry hentry v hv
    · obtain ⟨entry, -, hderived⟩ := List.mem_flatMap.mp hfrom
      unfold EnvFromEntry.vars at hderived
      split at hderived
      · obtain ⟨x, -, rfl⟩ := List.mem_map.mp hderived
        cases hv
      · cases hderived

/-- A run that ends well gives every variable its value, and every pin is current. -/
theorem resolveProfile_sound
    {pairs : List (String × String)}
    (hbase64 : ∀ bytes, F.base64Decode (F.base64Encode bytes) = some bytes)
    (hdated : s.db.store.Dated)
    (h : Permitted F s conn prof env)
    (hpairs : ((resolveProfile P F conn prof env).alone s).1 = .ok pairs) :
    Resolvable P s.keys s.db.store prof ∧ PinsCurrent s.db.store prof ∧
      List.Forall₂ (fun var pair => pair.1 = var.name ∧
        HasValue P s.keys s.db.store var pair.2) (prof.vars s.db.store) pairs := by
  obtain ⟨htransforms, hnames, resolved, hyields, hmap⟩ :=
    (resolveProfile_eq_ok_iff hdated h).mp hpairs
  have hall : List.Forall₂ (fun var pair => pair.1 = var.name ∧
      HasValue P s.keys s.db.store var pair.2 ∧
        ∀ v, var.version = some v → s.db.store.currentAt var.path = some v)
      (prof.vars s.db.store) pairs :=
    forall₂_imp_of_mem (fun var hvar pair hpair =>
      (injected_of_yields hbase64 hyields hvar).mp hpair) (mapM_eq_ok hmap)
  refine ⟨⟨htransforms, hnames, ?_⟩, pins_of_vars.mp ?_,
    hall.imp fun _ _ hp => ⟨hp.1, hp.2.1⟩⟩
  · intro var hvar
    obtain ⟨pair, -, hpair⟩ := forall₂_mem_left hall hvar
    exact ⟨pair.2, hpair.2.1⟩
  · intro var hvar
    obtain ⟨pair, -, hpair⟩ := forall₂_mem_left hall hvar
    exact hpair.2.2

/-- A value whose pin is current is what the batch asks for. -/
theorem yields_of_hasValue
    {keys : KeyMaterial P} {store : Store} {var : MappedVar} {value : String}
    (h : HasValue P keys store var value)
    (hpin : ∀ v, var.version = some v → store.currentAt var.path = some v) :
    ∃ item, Yields P keys store ⟨var.path, none⟩ item := by
  obtain ⟨item, hitem, -⟩ := h
  refine ⟨item, ?_⟩
  cases hversion : var.version with
  | none =>
      rw [hversion] at hitem
      exact hitem
  | some v =>
      rw [hversion] at hitem
      have hsame := yields_version hitem
      refine yields_current_iff.mpr ⟨?_, ?_⟩
      · rw [hsame]
        exact hpin v hversion
      · rw [hsame]
        exact hitem

theorem exists_resolveProfile
    (hbase64 : ∀ bytes, F.base64Decode (F.base64Encode bytes) = some bytes)
    (hdated : s.db.store.Dated)
    (h : Permitted F s conn prof env)
    (hresolvable : Resolvable P s.keys s.db.store prof)
    (hpins : PinsCurrent s.db.store prof) :
    ∃ pairs, ((resolveProfile P F conn prof env).alone s).1 = .ok pairs := by
  obtain ⟨htransforms, hnames, hvalues⟩ := hresolvable
  have hpins' := pins_of_vars.mpr hpins
  obtain ⟨resolved, hyields⟩ : ∃ resolved,
      List.Forall₂ (fun path => Yields P s.keys s.db.store ⟨path, none⟩)
        (uniquePaths ((prof.vars s.db.store).map MappedVar.path)) resolved := by
    refine exists_forall₂ ?_
    intro path hpath
    obtain ⟨var, hvar, rfl⟩ := List.mem_map.mp (mem_uniquePaths.mp hpath)
    obtain ⟨value, hvalue⟩ := hvalues var hvar
    exact yields_of_hasValue hvalue (hpins' var hvar)
  have hinjected : ∀ var ∈ prof.vars s.db.store, ∃ pair,
      injected F (resolvedMap (resolved.map (resolvedDto F))) var = .ok pair := by
    intro var hvar
    obtain ⟨value, hvalue⟩ := hvalues var hvar
    exact ⟨(var.name, value), (injected_of_yields hbase64 hyields hvar).mpr
      ⟨rfl, hvalue, hpins' var hvar⟩⟩
  obtain ⟨pairs, hpairs⟩ := exists_mapM_eq_ok hinjected
  exact ⟨pairs, (resolveProfile_eq_ok_iff hdated h).mpr
    ⟨htransforms, hnames, resolved, hyields, hpairs⟩⟩

/--
A resolution does what its profile declares, unless the profile could be
resolved and pins a version that is not the current one of its path.
-/
theorem resolveProfile_meets_iff
    (prof : Profile) (env : ExecEnv)
    (hbase64 : ∀ bytes, F.base64Decode (F.base64Encode bytes) = some bytes)
    (hs : Reached P F (fun _ => True) s)
    (h : Permitted F s conn prof env) :
    (((∃ pairs, ((resolveProfile P F conn prof env).alone s).1 = .ok pairs) ↔
        Resolvable P s.keys s.db.store prof) ∧
      ∀ pairs, ((resolveProfile P F conn prof env).alone s).1 = .ok pairs →
        List.Forall₂ (fun var pair => pair.1 = var.name ∧
          HasValue P s.keys s.db.store var pair.2) (prof.vars s.db.store) pairs) ↔
    (Resolvable P s.keys s.db.store prof → PinsCurrent s.db.store prof) := by
  have hsound : ∀ pairs, ((resolveProfile P F conn prof env).alone s).1 = .ok pairs → _ :=
    fun pairs => resolveProfile_sound hbase64 hs.dated h
  constructor
  · rintro ⟨hiff, -⟩ hresolvable
    obtain ⟨pairs, hpairs⟩ := hiff.mpr hresolvable
    exact (hsound pairs hpairs).2.1
  · intro hpins
    refine ⟨⟨?_, ?_⟩, fun pairs hpairs => (hsound pairs hpairs).2.2⟩
    · rintro ⟨pairs, hpairs⟩
      exact (hsound pairs hpairs).1
    · intro hresolvable
      exact exists_resolveProfile hbase64 hs.dated h hresolvable (hpins hresolvable)

end Runs

section Samples

/-- A profile with one variable, pinned to the first version. -/
def pinnedProfile : Profile where
  env := [⟨"DATABASE_URL", samplePath, some firstVersion⟩]
  envFrom := []

def sampleExecEnv : ExecEnv where
  lists _ := sampleEnv true
  resolve := ⟨sampleEnv true, fun _ => (sampleEnv true).gate⟩

/-- The secret of `filledState`, with a second version. -/
def rewrittenState : State samplePrimitives :=
  filledState.withVault ((VaultOp.write samplePath (sampleUuid 7) (sampleTime 100) sampleDraws
    [4, 5, 6] ⟨none, none⟩ (sampleTime 100)).step samplePrimitives filledState.vault)

theorem room_filledState :
    filledState.db.log.Room 1 :=
  ⟨⟨_, rfl⟩, by decide, by decide⟩

/-- A daemon whose state differs from `filledState` in its store only. -/
theorem permitted_pinnedProfile
    {s : State samplePrimitives}
    (hlog : s.db.log = filledState.db.log)
    (hgates : ∀ path, path = none ∨ path = some samplePath →
      (check wholeForeign s.db.store s.access (extractToken wholeForeign sampleConnection.header)
        sampleConnection.peer ⟨.resolve, path⟩ (sampleTime 100)).isOk = true) :
    Permitted wholeForeign s sampleConnection pinnedProfile sampleExecEnv := by
  have hpaths : uniquePaths ((pinnedProfile.vars s.db.store).map MappedVar.path) = [samplePath] :=
    rfl
  refine ⟨?_, ?_, exists_of_isOk (hgates none (.inl rfl)), ?_, ⟨fun _ => rfl, rfl⟩, ?_⟩
  · intro i hi
    cases hi
  · rintro policies - entry ⟨⟩
  · intro i path hpath
    rw [hpaths] at hpath
    obtain rfl := List.mem_singleton.mp (List.mem_of_getElem? hpath)
    exact exists_of_isOk (hgates _ (.inr rfl))
  · rw [hlog]
    exact room_filledState

theorem permitted_filledState :
    Permitted wholeForeign filledState sampleConnection pinnedProfile sampleExecEnv := by
  refine permitted_pinnedProfile rfl ?_
  rintro path (rfl | rfl)
  · decide +kernel
  · decide +kernel

theorem permitted_rewrittenState :
    Permitted wholeForeign rewrittenState sampleConnection pinnedProfile sampleExecEnv := by
  refine permitted_pinnedProfile rfl ?_
  rintro path (rfl | rfl)
  · decide +kernel
  · decide +kernel

/-- The first version of the secret is there, whatever is current. -/
theorem resolvable_pinnedProfile
    {s : State samplePrimitives}
    (hread : readTarget samplePrimitives s.keys s.db.store ⟨samplePath, some firstVersion⟩ =
      .ok ⟨samplePath, firstVersion, [1, 2, 3]⟩) :
    Resolvable samplePrimitives s.keys s.db.store pinnedProfile := by
  refine ⟨by rintro entry ⟨⟩, List.nodup_singleton _, ?_⟩
  intro var hvar
  obtain rfl := List.mem_singleton.mp hvar
  exact ⟨String.ofList ['\x01', '\x02', '\x03'], _, readTarget_eq_ok_iff.mp hread,
    by decide +kernel⟩

/-- A pin on the version that is current is kept. -/
theorem resolveProfile_meets_filledState :
    (∃ pairs, ((resolveProfile samplePrimitives wholeForeign sampleConnection pinnedProfile
        sampleExecEnv).alone filledState).1 = .ok pairs) ∧
      PinsCurrent filledState.db.store pinnedProfile := by
  have hpins : PinsCurrent filledState.db.store pinnedProfile := by
    intro entry hentry v hv
    obtain rfl := List.mem_singleton.mp hentry
    cases hv
    decide +kernel
  refine ⟨?_, hpins⟩
  refine ((resolveProfile_meets_iff pinnedProfile sampleExecEnv Base64.decode_encode
    (reached_filledState _) permitted_filledState).mpr fun _ => hpins).1.mpr ?_
  exact resolvable_pinnedProfile (eq_ok_of_toOption (by decide +kernel))

/-- A pin on the first of two versions fails, though the version can be read. -/
theorem pinned_version_refused :
    Reached samplePrimitives wholeForeign (fun _ => True) rewrittenState ∧
      Permitted wholeForeign rewrittenState sampleConnection pinnedProfile sampleExecEnv ∧
      Resolvable samplePrimitives rewrittenState.keys rewrittenState.db.store pinnedProfile ∧
      ∃ version, ((resolveProfile samplePrimitives wholeForeign sampleConnection pinnedProfile
        sampleExecEnv).alone rewrittenState).1 =
          .error (.otherVersion samplePath version firstVersion) := by
  refine ⟨.operate _ (reached_filledState _), permitted_rewrittenState,
    resolvable_pinnedProfile (eq_ok_of_toOption (by decide +kernel)), ⟨2, by decide⟩, ?_⟩
  decide +kernel

end Samples

end Cli
end Secretbae
