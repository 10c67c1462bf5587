import Secretbae.Service.Batch
import Secretbae.Service.RoundTrip
import Secretbae.Store.Views

/-!
# What a caller cannot see

Two daemons differ in secrets that a caller is denied.  `Alike` says so, and
`hidden_secrets` that no answer to that caller tells them apart.  A path that is
hidden where it exists is refused where it does not, because taking tags away
never grants anything; and a listing drops what is hidden before it counts or
orders anything.
-/

namespace Secretbae
namespace Service

open Lib Proto Core Audit Storage Policies
open Daemon (KeyMaterial Database LookupPrefix PeerCredentials Denied ApiError deniedMessage
  openVersion writeSection selectorOf recordEntry)

/-- The capabilities that concern secrets. -/
def secretCapabilities : List Capability :=
  [.read, .write, .delete, .list]

/-- The policies of whoever presents this token. -/
def PoliciesOf (F : Foreign) (access : Access) (presented : Except Denied PresentedToken)
    (policies : List Policy) : Prop :=
  ∃ token record, presented = .ok token ∧
    tokenByPrefix access token.lookupPrefix = some record ∧
    policiesForToken F.policyJson access record.id = .ok policies

/-- A path that exists is denied to the caller in every way. -/
def HiddenAt (F : Foreign) (access : Access) (presented : Except Denied PresentedToken)
    (st : Store) (path : SecretPath) : Prop :=
  ∀ secret, st.secretByPath path = some secret →
    ∀ policies, PoliciesOf F access presented policies → ∀ capability ∈ secretCapabilities,
      (evaluate policies ⟨path, capability, st.tagsOf secret.id⟩).isAllowed = false

/-- Two daemons that differ in what is hidden from a caller. -/
structure Alike {P : Primitives} (F : Foreign) (presented : Except Denied PresentedToken)
    (H : Set SecretPath) (s s' : State P) : Prop where
  keys : s'.keys = s.keys
  access : s'.access = s.access
  log : s'.db.log.Appendable ↔ s.db.log.Appendable
  dated : s.db.store.Dated
  dated' : s'.db.store.Dated
  agree : ∀ path, path ∉ H → s.db.store.AgreeAt s'.db.store path
  hidden : ∀ path, path ∈ H → HiddenAt F s.access presented s.db.store path
  hidden' : ∀ path, path ∈ H → HiddenAt F s.access presented s'.db.store path

section Gates

variable {P : Primitives} {F : Foreign} {presented : Except Denied PresentedToken}
variable {H : Set SecretPath} {s s' : State P}

theorem storedTags_of_some
    {st : Store} {path : SecretPath} {secret : SecretRow}
    (h : st.secretByPath path = some secret) :
    storedTags st path = st.tagsOf secret.id := by
  unfold storedTags
  rw [tags_eq_ok h]

theorem not_carries_of_none
    {st : Store} {path : SecretPath} {tag : Tag}
    (h : st.secretByPath path = none) :
    ¬ st.Carries path tag := by
  rintro ⟨secret, hsecret, -⟩
  cases h.symm.trans hsecret

/-- A hidden path is refused by the caller's policies where it exists. -/
theorem HiddenAt.not_granted
    {st : Store} {access : Access} {path : SecretPath} {secret : SecretRow}
    {policies : List Policy} {capability : Capability}
    (h : HiddenAt F access presented st path)
    (hsecret : st.secretByPath path = some secret)
    (hpolicies : PoliciesOf F access presented policies)
    (hcap : capability ∈ secretCapabilities) :
    granted policies capability st (some path) = false := by
  have hdenied := h secret hsecret policies hpolicies capability hcap
  rwa [← storedTags_of_some hsecret] at hdenied

/-- What a gate makes of a path is the same in both. -/
theorem Alike.granted_eq
    {path : SecretPath} {policies : List Policy} {capability : Capability}
    (h : Alike F presented H s s')
    (hpolicies : PoliciesOf F s.access presented policies)
    (hcap : capability ∈ secretCapabilities) :
    granted policies capability s'.db.store (some path) =
      granted policies capability s.db.store (some path) := by
  -- a path that is refused with its tags is refused without any
  have hrefused : ∀ {st st' : Store}, granted policies capability st (some path) = false →
      st'.secretByPath path = none →
      granted policies capability st' (some path) = false := by
    intro st st' hfalse hnone
    rw [Bool.eq_false_iff] at hfalse ⊢
    intro htrue
    refine hfalse (granted_mono ?_ htrue)
    intro p hp t ht
    cases hp
    exact absurd ht (not_carries_of_none hnone)
  by_cases hpath : path ∈ H
  · cases hs : s.db.store.secretByPath path with
    | none =>
        cases hs' : s'.db.store.secretByPath path with
        | none =>
            have hnone : ∀ st : Store, st.secretByPath path = none → storedTags st path = [] := by
              intro st hst
              unfold storedTags
              rw [tags_eq_error hst]
            simp only [granted, hnone _ hs, hnone _ hs']
        | some secret =>
            have hfalse := (h.hidden' path hpath).not_granted hs' hpolicies hcap
            rw [hfalse, hrefused hfalse hs]
    | some secret =>
        have hfalse := (h.hidden path hpath).not_granted hs hpolicies hcap
        rw [hfalse]
        cases hs' : s'.db.store.secretByPath path with
        | none => exact hrefused hfalse hs'
        | some secret' => exact (h.hidden' path hpath).not_granted hs' hpolicies hcap
  · have htags := (h.agree path hpath).tags
    rw [Bool.eq_iff_iff]
    constructor
    · refine granted_mono ?_
      intro p hp t
      cases hp
      exact (htags t).mp
    · refine granted_mono ?_
      intro p hp t
      cases hp
      exact (htags t).mpr

/-- The gates look at the store for one answer only. -/
theorem check_store_congr
    {store store' : Store} {access : Access} {peer : PeerCredentials} {requested : Requested}
    {now : UnixTime}
    (h : ∀ capability policies, requested.route.requiredCapability = some capability →
      PoliciesOf F access presented policies →
      granted policies capability store' requested.path =
        granted policies capability store requested.path) :
    check F store' access presented peer requested now =
      check F store access presented peer requested now := by
  unfold check
  cases hroute : requested.route.requiredCapability with
  | none => rfl
  | some capability =>
      refine bind_congr_ok ?_
      intro token htoken
      cases hrecord : tokenByPrefix access token.lookupPrefix with
      | none => rfl
      | some record =>
          refine bind_congr_ok ?_
          intro id hid
          refine bind_congr_ok ?_
          intro policies hpolicies
          obtain ⟨rfl, -⟩ := authenticate_eq_ok_iff.mp (mapError_eq_ok.mp hid)
          rw [h capability policies hroute
            ⟨token, record, htoken, hrecord, mapError_eq_ok.mp hpolicies⟩]

/-- The gates decide alike, and for the same reason. -/
theorem Alike.check_eq
    {peer : PeerCredentials} {requested : Requested} {now : UnixTime}
    (h : Alike F presented H s s')
    (hroute : ∀ capability, requested.route.requiredCapability = some capability →
      capability ∈ secretCapabilities) :
    check F s'.db.store s'.access presented peer requested now =
      check F s.db.store s.access presented peer requested now := by
  rw [h.access]
  refine check_store_congr ?_
  intro capability policies hcapability hpolicies
  cases hpath : requested.path with
  | none => rfl
  | some path => exact h.granted_eq hpolicies (hroute capability hcapability)

/-- Where a caller gets through, there is nothing hidden. -/
theorem Alike.agree_of_check
    {peer : PeerCredentials} {route : Route} {path : SecretPath} {now : UnixTime}
    {caller : Authenticated}
    (h : Alike F presented H s s')
    (hroute : ∀ capability, route.requiredCapability = some capability →
      capability ∈ secretCapabilities)
    (hcheck : check F s.db.store s.access presented peer ⟨route, some path⟩ now = .ok caller) :
    s.db.store.AgreeAt s'.db.store path := by
  by_cases hpath : path ∉ H
  · exact h.agree path hpath
  rw [not_not] at hpath
  obtain ⟨capability, token, record, policies, hcapability, htoken, hrecord, -, -, hpolicies,
    hgranted, -⟩ := check_eq_ok_iff.mp hcheck
  have hcap := hroute capability hcapability
  have hof : PoliciesOf F s.access presented policies :=
    ⟨token, record, htoken, hrecord, hpolicies⟩
  have hgranted' : granted policies capability s'.db.store (some path) =
      granted policies capability s.db.store (some path) :=
    h.granted_eq hof hcap
  have hnone : s.db.store.secretByPath path = none := by
    cases hs : s.db.store.secretByPath path with
    | none => rfl
    | some secret =>
        cases hgranted.symm.trans ((h.hidden path hpath).not_granted hs hof hcap)
  have hnone' : s'.db.store.secretByPath path = none := by
    cases hs : s'.db.store.secretByPath path with
    | none => rfl
    | some secret =>
        rw [(h.hidden' path hpath).not_granted hs hof hcap] at hgranted'
        cases hgranted.symm.trans hgranted'.symm
  refine ⟨hnone'.trans hnone.symm, ?_, ?_⟩
  · intro secret hsecret
    cases hnone.symm.trans hsecret
  · intro t
    exact iff_of_false (not_carries_of_none hnone') (not_carries_of_none hnone)

theorem Alike.touch
    (h : Alike F presented H s s') (id : Uuid) (now : UnixTime) :
    Alike F presented H (s.touch P id now) (s'.touch P id now) := by
  have huse := touchToken_sameExceptUse s.access id now
  have hof : ∀ policies, PoliciesOf F (touchToken s.access id now) presented policies →
      PoliciesOf F s.access presented policies := by
    rintro policies ⟨token, record, htoken, hrecord, hpolicies⟩
    rw [huse.tokenByPrefix_eq] at hrecord
    rw [huse.policiesForToken_eq] at hpolicies
    exact ⟨token, record, htoken, hrecord, hpolicies⟩
  refine ⟨h.keys, ?_, h.log, h.dated, h.dated', h.agree, ?_, ?_⟩
  · exact congrArg (fun access => touchToken access id now) h.access
  · intro path hpath secret hsecret policies hpolicies
    exact h.hidden path hpath secret hsecret policies (hof policies hpolicies)
  · intro path hpath secret hsecret policies hpolicies
    exact h.hidden' path hpath secret hsecret policies (hof policies hpolicies)

end Gates

/-- A request on one of the routes about secrets. -/
inductive SecretRequest where
  | read (conn : Connection) (request : ReadRequest) (env : Env)
  | resolve (conn : Connection) (paths : List SecretPath) (env : ResolveEnv)
  | socket (peer : PeerCredentials) (request : ParsedRequest) (env : ResolveEnv)
  | list (conn : Connection) (request : ListRequest) (env : Env)
  | versions (conn : Connection) (path : SecretPath) (env : Env)
  | write (conn : Connection) (request : WriteRequest) (draws : WriteDraws) (env : Env)
  | rollback (conn : Connection) (request : RollbackRequest) (now : UnixTime) (env : Env)
  | delete (conn : Connection) (request : DeleteRequest) (now : UnixTime) (env : Env)
  | tagAdd (conn : Connection) (request : TagRequest) (now : UnixTime) (env : Env)
  | tagRemove (conn : Connection) (request : TagRemoveRequest) (now : UnixTime) (env : Env)

/-- What a client receives: the status and message of an error, or a body. -/
inductive Answer where
  | refused (error : ApiError)
  | read (response : ReadResponse)
  | resolved (secrets : List ResolvedDto)
  | bytes (bytes : Bytes)
  | listed (secrets : List SecretSummaryDto)
  | versions (response : VersionsResponse)
  | written (response : WriteResponse)
  | done (ack : Ack)
deriving DecidableEq

def Answer.ofResult {α : Type} (body : α → Answer) : Except ApiError α → Answer
  | .ok a => body a
  | .error e => .refused e

section Answers

variable (P : Primitives) (F : Foreign)

/-- The token that a request comes with. -/
def SecretRequest.presented : SecretRequest → Except Denied PresentedToken
  | .read conn .. | .resolve conn .. | .list conn .. | .versions conn .. | .write conn ..
  | .rollback conn .. | .delete conn .. | .tagAdd conn .. | .tagRemove conn .. =>
      extractToken F conn.header
  | .socket _ request _ =>
      match request with
      | .disconnected => .error .missingToken
      | .violation violation => .error (.protocolViolation violation)
      | .ready token _ => presentText F token

/-- What the daemon answers. -/
def SecretRequest.answer (s : State P) : SecretRequest → Answer
  | .read conn request env => .ofResult .read ((Service.read P F conn request env).alone s).1
  | .resolve conn paths env =>
      .ofResult .resolved ((Service.resolve P F conn paths env).alone s).1
  | .socket peer request env => .ofResult .bytes ((handle P F peer env request).alone s).1
  | .list conn request env => .ofResult .listed ((listSecrets P F conn request env).alone s).1
  | .versions conn path env => .ofResult .versions ((listVersions P F conn path env).alone s).1
  | .write conn request draws env =>
      .ofResult .written ((Service.write P F conn request draws env).alone s).1
  | .rollback conn request now env =>
      .ofResult .done ((Service.rollback P F conn request now env).alone s).1
  | .delete conn request now env =>
      .ofResult .done ((Service.delete P F conn request now env).alone s).1
  | .tagAdd conn request now env =>
      .ofResult .done ((Service.tagAdd P F conn request now env).alone s).1
  | .tagRemove conn request now env =>
      .ofResult .done ((Service.tagRemove P F conn request now env).alone s).1

variable {P F} {s s' : State P}

/-- A handler that begins with the gate answers alike if it decides and goes on alike. -/
theorem gated_answer_eq
    {α : Type} {conn : Connection} {route : Route} {path : Option SecretPath} {env : GateEnv}
    {k : Authenticated → Code P ApiError α}
    (hcheck : check F s'.db.store s'.access (extractToken F conn.header) conn.peer
        ⟨route, path⟩ env.checked =
      check F s.db.store s.access (extractToken F conn.header) conn.peer ⟨route, path⟩
        env.checked)
    (hk : ∀ caller, check F s.db.store s.access (extractToken F conn.header) conn.peer
        ⟨route, path⟩ env.checked = .ok caller →
      ((k caller).alone (s'.touch P caller.tokenId env.touched)).1 =
        ((k caller).alone (s.touch P caller.tokenId env.touched)).1) :
    ((gate P F conn route path env >>= k).alone s').1 =
      ((gate P F conn route path env >>= k).alone s).1 := by
  rw [Script.alone_bind, Script.alone_bind, gate_alone, gate_alone, hcheck]
  cases hdecision : check F s.db.store s.access (extractToken F conn.header) conn.peer
      ⟨route, path⟩ env.checked with
  | error denied => rfl
  | ok caller => exact hk caller hdecision

/-- Whether an entry can be recorded depends on the log only. -/
theorem recordOrInternal_eq
    (hlog : s'.db.log.Appendable ↔ s.db.log.Appendable) (caller : Authenticated)
    (action : Action) (path : Option SecretPath) (version : Option Version) (env : Env) :
    ((recordOrInternal P caller action path version env).alone s').1 =
      ((recordOrInternal P caller action path version env).alone s).1 := by
  have hresult : ∀ s : State P, ((recordOrInternal P caller action path version env).alone s).1 =
      if (s.append P env.writable (recordEntry env.recorded.seconds caller.lookupPrefix
        caller.peer action .success path version)).1 = .ok () then .ok ()
      else .error .internal := by
    intro s
    simp only [recordOrInternal, record, Script.alone_mapError, Script.alone_atomically]
    cases (s.append P env.writable (recordEntry env.recorded.seconds caller.lookupPrefix
      caller.peer action .success path version)).1 with
    | error e => simp [Except.mapError]
    | ok u => simp [Except.mapError]
  rw [hresult, hresult]
  refine if_congr ?_ rfl rfl
  rw [State.append_isOk_iff, State.append_isOk_iff, hlog]

/-- The end of a handler: the entry, and the answer if it could be written. -/
theorem record_then_eq
    {β : Type}
    (hlog : s'.db.log.Appendable ↔ s.db.log.Appendable) (caller : Authenticated)
    (action : Action) (path : Option SecretPath) (version : Option Version) (env : Env)
    (b : β) :
    ((do
        recordOrInternal P caller action path version env
        pure b : Code P ApiError β).alone s').1 =
      ((do
        recordOrInternal P caller action path version env
        pure b : Code P ApiError β).alone s).1 := by
  have hrecord := recordOrInternal_eq hlog caller action path version env
  rw [Script.alone_bind, Script.alone_bind]
  rcases hr' : (recordOrInternal P caller action path version env).alone s' with ⟨r', t'⟩
  rcases hr : (recordOrInternal P caller action path version env).alone s with ⟨r, t⟩
  rw [hr, hr'] at hrecord
  dsimp only at hrecord
  subst hrecord
  cases r' <;> rfl

/-- A part of a handler whose success is recorded. -/
theorem recorded_answer_eq
    {α β : Type} {x : Code P ApiError α} {caller : Authenticated} {action : Action}
    {path : Option SecretPath} {env : Env} (version : α → Option Version) (body : α → β)
    (hx : (x.alone s').1 = (x.alone s).1)
    (hlog : (x.alone s').2.db.log.Appendable ↔ (x.alone s).2.db.log.Appendable) :
    ((do
        let a ← x
        recordOrInternal P caller action path (version a) env
        pure (body a) : Code P ApiError β).alone s').1 =
      ((do
        let a ← x
        recordOrInternal P caller action path (version a) env
        pure (body a) : Code P ApiError β).alone s).1 := by
  rw [Script.alone_bind, Script.alone_bind]
  rcases hs' : x.alone s' with ⟨result', t'⟩
  rcases hs : x.alone s with ⟨result, t⟩
  rw [hs, hs'] at hx hlog
  dsimp only at hx hlog
  subst hx
  cases result' with
  | error e => rfl
  | ok a =>
      exact record_then_eq hlog caller action path (version a) env (body a)

variable {H : Set SecretPath} {conn : Connection}

/-- The route of a secret needs a capability that concerns secrets. -/
theorem secretCapabilities_of_route
    {route : Route} {capability : Capability}
    (hroute : route ∈ [Route.read, .write, .list, .versions, .rollback, .delete, .tagAdd,
      .tagRemove, .resolve])
    (h : route.requiredCapability = some capability) :
    capability ∈ secretCapabilities := by
  simp only [List.mem_cons, List.not_mem_nil, or_false] at hroute
  rcases hroute with rfl | rfl | rfl | rfl | rfl | rfl | rfl | rfl | rfl <;>
    (cases h; decide)

/-- A handler on one path, whose part after the gate sees no more than that path. -/
theorem Alike.path_answer_eq
    {α : Type} {route : Route} {path : SecretPath} {env : GateEnv}
    {k : Authenticated → Code P ApiError α}
    (h : Alike F (extractToken F conn.header) H s s')
    (hroute : route ∈ [Route.read, .write, .list, .versions, .rollback, .delete, .tagAdd,
      .tagRemove, .resolve])
    (hk : ∀ caller s s', Alike F (extractToken F conn.header) H s s' →
      s.db.store.AgreeAt s'.db.store path →
      ((k caller).alone s').1 = ((k caller).alone s).1) :
    ((gate P F conn route (some path) env >>= k).alone s').1 =
      ((gate P F conn route (some path) env >>= k).alone s).1 := by
  have hcap : ∀ capability, route.requiredCapability = some capability →
      capability ∈ secretCapabilities :=
    fun _ => secretCapabilities_of_route hroute
  refine gated_answer_eq (h.check_eq hcap) ?_
  intro caller hcheck
  exact hk caller _ _ (h.touch caller.tokenId env.touched) (h.agree_of_check hcap hcheck)

/-- A change of the store that the caller learns only the success of. -/
theorem changeStore_answer_eq
    {α : Type} {label : Label} {f : Store → Except StoreError (Store × α)}
    (hf : (f s'.db.store).map Prod.snd = (f s.db.store).map Prod.snd) :
    ((changeStore P label f).alone s').1 = ((changeStore P label f).alone s).1 := by
  have hresult : ∀ s : State P, ((changeStore P label f).alone s).1 =
      ((f s.db.store).map Prod.snd).mapError .ofStore := by
    intro s
    simp only [changeStore, Script.alone_atomically]
    cases f s.db.store <;> rfl
  rw [hresult, hresult, hf]

theorem changeStore_log
    {α : Type} (label : Label) (f : Store → Except StoreError (Store × α)) (s : State P) :
    ((changeStore P label f).alone s).2.db.log = s.db.log := by
  simp only [changeStore, Script.alone_atomically]
  cases f s.db.store <;> rfl

theorem Alike.read_eq
    (h : Alike F (extractToken F conn.header) H s s') (request : ReadRequest) (env : Env) :
    ((read P F conn request env).alone s').1 = ((read P F conn request env).alone s).1 := by
  refine h.path_answer_eq (by decide) ?_
  intro caller s s' h hagree
  refine recorded_answer_eq (fun opened : Version × Bytes => some opened.1)
    (fun opened => ReadResponse.mk request.path opened.1 (F.base64Encode opened.2)) ?_ ?_
  · simp only [openSecret, Script.alone_mapError, Script.alone_atomically, openVersion, h.keys,
      hagree.readVersion_eq]
  · simp only [openSecret, Script.alone_mapError, Script.alone_atomically]
    exact h.log

theorem Alike.versions_eq
    (h : Alike F (extractToken F conn.header) H s s') (path : SecretPath) (env : Env) :
    ((listVersions P F conn path env).alone s').1 =
      ((listVersions P F conn path env).alone s).1 := by
  refine h.path_answer_eq (by decide) ?_
  intro caller s s' h hagree
  refine recorded_answer_eq (fun _ => none) _ ?_ ?_
  · simp only [look, Script.alone_atomically, hagree.versions_eq]
  · simp only [look, Script.alone_atomically]
    exact h.log

theorem Alike.rollback_eq
    (h : Alike F (extractToken F conn.header) H s s') (request : RollbackRequest)
    (now : UnixTime) (env : Env) :
    ((rollback P F conn request now env).alone s').1 =
      ((rollback P F conn request now env).alone s).1 := by
  refine h.path_answer_eq (by decide) ?_
  intro caller s s' h hagree
  refine recorded_answer_eq (fun _ => some request.target) _ (changeStore_answer_eq ?_) ?_
  · rw [map_map, map_map]
    exact hagree.rollback_eq request.target now
  · rw [changeStore_log, changeStore_log]
    exact h.log

theorem Alike.delete_eq
    (h : Alike F (extractToken F conn.header) H s s') (request : DeleteRequest)
    (now : UnixTime) (env : Env) :
    ((delete P F conn request now env).alone s').1 =
      ((delete P F conn request now env).alone s).1 := by
  refine h.path_answer_eq (by decide) ?_
  intro caller s s' h hagree
  refine recorded_answer_eq some _ (changeStore_answer_eq ?_) ?_
  · exact hagree.deleteVersion_eq (selectorOf request.version) _ now
  · rw [changeStore_log, changeStore_log]
    exact h.log

theorem Alike.tagAdd_eq
    (h : Alike F (extractToken F conn.header) H s s') (request : TagRequest)
    (now : UnixTime) (env : Env) :
    ((tagAdd P F conn request now env).alone s').1 =
      ((tagAdd P F conn request now env).alone s).1 := by
  refine h.path_answer_eq (by decide) ?_
  intro caller s s' h hagree
  refine recorded_answer_eq (fun _ => none) _ (changeStore_answer_eq ?_) ?_
  · rw [map_map, map_map]
    refine (addTags_map ..).trans (Eq.trans ?_ (addTags_map ..).symm)
    rw [hagree.secretId_eq]
  · rw [changeStore_log, changeStore_log]
    exact h.log

theorem Alike.tagRemove_eq
    (h : Alike F (extractToken F conn.header) H s s') (request : TagRemoveRequest)
    (now : UnixTime) (env : Env) :
    ((tagRemove P F conn request now env).alone s').1 =
      ((tagRemove P F conn request now env).alone s).1 := by
  refine h.path_answer_eq (by decide) ?_
  intro caller s s' h hagree
  refine recorded_answer_eq (fun _ => none) _ (changeStore_answer_eq ?_) ?_
  · rw [map_map, map_map]
    refine (removeTags_map ..).trans (Eq.trans ?_ (removeTags_map ..).symm)
    rw [hagree.secretId_eq]
  · rw [changeStore_log, changeStore_log]
    exact h.log

/-- A listing shows what both have. -/
theorem Alike.visible_eq
    {policies : List Policy} {presented : Except Denied PresentedToken}
    (h : Alike F presented H s s')
    (hpolicies : PoliciesOf F s.access presented policies) {filter : ListFilter}
    (hfew : filter.tags.length ≤ filter.mostTags) :
    ∃ listed listed', list s.db.store filter = .ok listed ∧
      list s'.db.store filter = .ok listed' ∧
      listed.filter (isVisible policies) = listed'.filter (isVisible policies) := by
  have hshown : ∀ {st : Store}, (∀ path, path ∈ H → HiddenAt F s.access presented st path) →
      ∀ secret ∈ st.secrets.rows, ∀ x, summary st secret = .ok x →
        isVisible policies x = true → secret.path ∉ H := by
    intro st hhidden secret hsecret x hx hvisible hpath
    have hfound := Store.secretByPath_of_mem hsecret
    have hdenied := hhidden secret.path hpath secret hfound policies hpolicies .list (by decide)
    unfold isVisible at hvisible
    rw [summary_path hx, summary_tags hx, hdenied] at hvisible
    cases hvisible
  refine list_eq_of_agree h.dated h.dated' hfew ?_ ?_
  · intro secret hsecret x hx hvisible
    exact h.agree _ (hshown h.hidden secret hsecret x hx hvisible)
  · intro secret hsecret x hx hvisible
    exact (h.agree _ (hshown h.hidden' secret hsecret x hx hvisible)).symm

theorem Alike.list_eq
    (h : Alike F (extractToken F conn.header) H s s') (request : ListRequest) (env : Env) :
    ((listSecrets P F conn request env).alone s').1 =
      ((listSecrets P F conn request env).alone s).1 := by
  have hcap : ∀ capability, Route.list.requiredCapability = some capability →
      capability ∈ secretCapabilities :=
    fun _ => secretCapabilities_of_route (by decide)
  refine gated_answer_eq (h.check_eq hcap) ?_
  intro caller hcheck
  obtain ⟨-, token, record, policies, -, htoken, hrecord, -, -, hpolicies, -, rfl⟩ :=
    check_eq_ok_iff.mp hcheck
  rw [Script.alone_bind, Script.alone_bind]
  generalize (⟨request.pathPrefix, request.tags, false⟩ : ListFilter) = filter
  rcases Nat.lt_or_ge filter.mostTags filter.tags.length with hmany | hfew
  · -- SQLite refuses the query, whatever is stored
    have hfails : ∀ st, list st filter = .error (.sqlite .failure) :=
      fun st => list_of_not_prepares st hmany
    simp only [look, Script.alone_atomically, hfails, Except.mapError, Script.andThen_error]
  obtain ⟨listed, listed', hlisted, hlisted', hvisible⟩ :=
    h.visible_eq ⟨token, record, htoken, hrecord, hpolicies⟩ hfew
  have huse := touchToken_sameExceptUse s.access record.id env.gate.touched
  have hpolicies' : policiesForToken F.policyJson (touchToken s.access record.id
      env.gate.touched) record.id = .ok policies := by
    rw [huse.policiesForToken_eq, hpolicies]
  simp only [look, Script.alone_atomically, State.touch_db, hlisted, hlisted', Except.mapError,
    Script.andThen_ok]
  -- from here on the two runs have different listings in hand
  rw [Script.alone_bind, Script.alone_bind]
  simp only [filterVisible, look, Script.alone_atomically]
  have haccess : (s'.touch P record.id env.gate.touched).access =
      touchToken s.access record.id env.gate.touched :=
    congrArg (fun access => touchToken access record.id env.gate.touched) h.access
  have haccess' : (s.touch P record.id env.gate.touched).access =
      touchToken s.access record.id env.gate.touched := rfl
  simp only [haccess, haccess', hpolicies', hvisible, Script.andThen_ok]
  exact record_then_eq (h.touch record.id env.gate.touched).log _ .list none none env _

/-- The numbers that writes are given, where neither store uses the new id. -/
theorem Alike.writeSection_eq
    {presented : Except Denied PresentedToken}
    (h : Alike F presented H s s') (body : Daemon.WriteRequest)
    (hagree : s.db.store.AgreeAt s'.db.store body.path) (caller : Daemon.Authenticated)
    (env : Daemon.WriteEnv) (plaintext : Bytes)
    (hfresh : ∀ path ∈ H, ∀ secret, s.db.store.secretByPath path = some secret →
      secret.id ≠ env.freshId)
    (hfresh' : ∀ path ∈ H, ∀ secret, s'.db.store.secretByPath path = some secret →
      secret.id ≠ env.freshId) :
    (writeSection P s'.keys caller body env plaintext s'.db).2 =
      (writeSection P s.keys caller body env plaintext s.db).2 := by
  -- an id in use is in use by a secret that both have
  have hused : (∃ secret ∈ s'.db.store.secrets.rows, secret.id = env.freshId) ↔
      ∃ secret ∈ s.db.store.secrets.rows, secret.id = env.freshId := by
    constructor
    · rintro ⟨secret, hmem, hid⟩
      have hfound := Store.secretByPath_of_mem hmem
      have hpath : secret.path ∉ H := fun hpath => hfresh' _ hpath secret hfound hid
      rw [(h.agree _ hpath).secret] at hfound
      exact ⟨secret, (Store.secretByPath_eq_some_iff.mp hfound).1, hid⟩
    · rintro ⟨secret, hmem, hid⟩
      have hfound := Store.secretByPath_of_mem hmem
      have hpath : secret.path ∉ H := fun hpath => hfresh _ hpath secret hfound hid
      rw [← (h.agree _ hpath).secret] at hfound
      exact ⟨secret, (Store.secretByPath_eq_some_iff.mp hfound).1, hid⟩
  rw [writeSection_result, writeSection_result, Vault.write_map, Vault.write_map, h.keys,
    hagree.beginWrite_eq hused]

theorem Alike.write_eq
    (h : Alike F (extractToken F conn.header) H s s') (request : WriteRequest)
    (draws : WriteDraws) (env : Env)
    (hfresh : ∀ path ∈ H, ∀ secret, s.db.store.secretByPath path = some secret →
      secret.id ≠ draws.freshId)
    (hfresh' : ∀ path ∈ H, ∀ secret, s'.db.store.secretByPath path = some secret →
      secret.id ≠ draws.freshId) :
    ((write P F conn request draws env).alone s').1 =
      ((write P F conn request draws env).alone s).1 := by
  have hcap : ∀ capability, Route.write.requiredCapability = some capability →
      capability ∈ secretCapabilities :=
    fun _ => secretCapabilities_of_route (by decide)
  refine gated_answer_eq (h.check_eq hcap) ?_
  intro caller hcheck
  have hagree := h.agree_of_check hcap hcheck
  cases F.base64Decode request.value with
  | none => rfl
  | some plaintext =>
      refine recorded_answer_eq some (WriteResponse.mk request.path) ?_ ?_
      · simp only [commitWrite, Script.alone_atomically]
        have hresult := (h.touch caller.tokenId env.gate.touched).writeSection_eq
          ⟨request.path, some plaintext, request.tags, request.comment⟩ hagree
          ⟨caller.lookupPrefix, caller.peer⟩ ⟨draws.freshId, draws.began, draws.draws, draws.now⟩
          plaintext hfresh hfresh'
        exact congrArg (Except.mapError ApiError.ofStore) hresult
      · simp only [commitWrite, Script.alone_atomically, writeSection_log]
        exact h.log

end Answers

section Resolution

variable {P : Primitives} {F : Foreign} {s s' : State P} {H : Set SecretPath}
variable {presented : Except Denied PresentedToken} {peer : PeerCredentials}

/-- Resolving needs a capability that concerns secrets. -/
theorem resolveCapability
    (capability : Capability)
    (h : Route.resolve.requiredCapability = some capability) :
    capability ∈ secretCapabilities :=
  secretCapabilities_of_route (by decide) h

/-- One target opens alike. -/
theorem readTarget_eq
    {target : ResolveTarget} {st st' : Store} (keys : KeyMaterial P)
    (h : st.AgreeAt st' target.path) :
    readTarget P keys st' target = readTarget P keys st target := by
  unfold readTarget
  rw [h.readVersion_eq]

/-- The loop goes on and ends alike. -/
theorem Alike.resolveTargets_eq
    (h : Alike F presented H s s') (peer : PeerCredentials) (gates : Nat → GateEnv) (i : Nat)
    (targets : List ResolveTarget) :
    ((resolveTargets P F presented peer gates i targets).alone s').1 =
      ((resolveTargets P F presented peer gates i targets).alone s).1 := by
  induction targets generalizing i s s' with
  | nil =>
      rfl
  | cons target targets ih =>
      simp only [resolveTargets]
      rw [Script.alone_bind, Script.alone_bind, Script.alone_mapError, Script.alone_mapError,
        authorize_alone, authorize_alone, h.check_eq resolveCapability]
      cases hcheck : check F s.db.store s.access presented peer ⟨.resolve, some target.path⟩
          (gates i).checked with
      | error denied => rfl
      | ok caller =>
          have hnext := h.touch caller.tokenId (gates i).touched
          simp only [Except.mapError, Script.andThen_ok, Script.alone_bind, fetch,
            Script.alone_atomically, State.touch_keys, State.touch_db, h.keys,
            readTarget_eq s.keys (h.agree_of_check resolveCapability hcheck)]
          cases readTarget P s.keys s.db.store target with
          | error failure => rfl
          | ok item =>
              have hrest := ih hnext (i + 1)
              simp only [Script.andThen_ok, Script.alone_bind]
              rcases hr' : (resolveTargets P F presented peer gates (i + 1) targets).alone
                (s'.touch P caller.tokenId (gates i).touched) with ⟨r', t'⟩
              rcases hr : (resolveTargets P F presented peer gates (i + 1) targets).alone
                (s.touch P caller.tokenId (gates i).touched) with ⟨r, t⟩
              rw [hr, hr'] at hrest
              dsimp only at hrest
              subst hrest
              cases r' <;> rfl

/-- A batch ends alike, as far as it is told which entry could not be written. -/
theorem Alike.resolveSecrets_eq
    {E : Type} {t : ResolveFailure → E}
    (h : Alike F presented H s s') (peer : PeerCredentials) (targets : List ResolveTarget)
    (env : ResolveEnv)
    (ht : ∀ e e', t (.audit e) = t (.audit e')) :
    ((resolveSecrets P F presented peer targets env).alone s').1.mapError t =
      ((resolveSecrets P F presented peer targets env).alone s).1.mapError t := by
  simp only [resolveSecrets]
  rw [Script.alone_bind, Script.alone_bind, Script.alone_mapError, Script.alone_mapError,
    authorize_alone, authorize_alone, h.check_eq resolveCapability]
  cases hcheck : check F s.db.store s.access presented peer ⟨.resolve, none⟩
      env.batch.gate.checked with
  | error denied => rfl
  | ok caller =>
      have hnext := h.touch caller.tokenId env.batch.gate.touched
      have hloop := hnext.resolveTargets_eq peer env.targets 0 targets
      simp only [Except.mapError, Script.andThen_ok, Script.alone_bind]
      rcases hr' : (resolveTargets P F presented peer env.targets 0 targets).alone
        (s'.touch P caller.tokenId env.batch.gate.touched) with ⟨r', u'⟩
      rcases hr : (resolveTargets P F presented peer env.targets 0 targets).alone
        (s.touch P caller.tokenId env.batch.gate.touched) with ⟨r, u⟩
      rw [hr, hr'] at hloop
      dsimp only at hloop
      subst hloop
      cases r' with
      | error failure => rfl
      | ok resolved =>
          have hused := (resolveTargets_ok (.refl _) hr).1
          have hused' := (resolveTargets_ok (.refl _) hr').1
          have hlog : u'.db.log.Appendable ↔ u.db.log.Appendable := by
            rw [hused.db, hused'.db]
            exact hnext.log
          have hrecord := recordOrInternal_eq hlog caller .resolve none none env.batch
          simp only [recordOrInternal, Script.alone_mapError] at hrecord
          simp only [Script.andThen_ok, Script.alone_bind, Script.alone_mapError]
          rcases hw' : (record P caller .resolve none none env.batch).alone u' with ⟨w', v'⟩
          rcases hw : (record P caller .resolve none none env.batch).alone u with ⟨w, v⟩
          rw [hw, hw'] at hrecord
          cases w' with
          | error e' =>
              cases w with
              | error e => exact congrArg Except.error (ht e' e)
              | ok _ => cases hrecord
          | ok _ =>
              cases w with
              | error e => cases hrecord
              | ok _ => rfl

theorem Alike.resolve_eq
    {conn : Connection}
    (h : Alike F (extractToken F conn.header) H s s') (paths : List SecretPath)
    (env : ResolveEnv) :
    ((resolve P F conn paths env).alone s').1 = ((resolve P F conn paths env).alone s).1 := by
  have hresult : ∀ s : State P, ((resolve P F conn paths env).alone s).1 =
      (((resolveSecrets P F (extractToken F conn.header) conn.peer
        (paths.map fun path => ⟨path, none⟩) env).alone s).1.mapError
          ResolveFailure.apiError).map (List.map (resolvedDto F)) := by
    intro s
    simp only [resolve, Script.alone_bind, Script.alone_mapError]
    rcases (resolveSecrets P F (extractToken F conn.header) conn.peer
      (paths.map fun path => ⟨path, none⟩) env).alone s with ⟨r, t⟩
    cases r <;> rfl
  rw [hresult, hresult, h.resolveSecrets_eq conn.peer _ env fun _ _ => rfl]

/-- The frames of an answer depend on the message of a failure only. -/
theorem respond_mapError
    (result : Except ResolveFailure (List ResolvedSecret)) :
    respond result =
      match result.mapError ResolveFailure.message with
      | .ok resolved => resolved.flatMap valueFrame
      | .error message => errorFrame message := by
  cases result <;> rfl

theorem handle_ready
    (token : String) (targets : List ResolveTarget) (env : ResolveEnv) (s : State P) :
    ((handle P F peer env (.ready token targets)).alone s).1 =
      .ok (respond ((resolveSecrets P F (presentText F token) peer targets env).alone s).1) := by
  simp only [handle, Script.alone_bind, Script.alone_attempt, Script.andThen_ok,
    Script.alone_pure]

theorem Alike.handle_eq
    {token : String}
    (h : Alike F (presentText F token) H s s') (peer : PeerCredentials)
    (targets : List ResolveTarget) (env : ResolveEnv) :
    ((handle P F peer env (.ready token targets)).alone s').1 =
      ((handle P F peer env (.ready token targets)).alone s).1 := by
  have hresult := h.resolveSecrets_eq (t := ResolveFailure.message) peer targets env
    fun _ _ => rfl
  rw [handle_ready, handle_ready, respond_mapError, respond_mapError, hresult]

theorem handle_violation
    (violation : Daemon.Violation) (env : ResolveEnv) (s : State P) :
    ((handle P F peer env (.violation violation)).alone s).1 =
      .ok (errorFrame deniedMessage) := by
  simp only [handle, Script.alone_bind, Script.alone_attempt, Script.andThen_ok,
    Script.alone_pure]

end Resolution

/-- The id that a write would give to a new secret is none of a hidden one. -/
def SecretRequest.FreshFor (H : Set SecretPath) (st : Store) : SecretRequest → Prop
  | .write _ _ draws _ =>
      ∀ path ∈ H, ∀ secret, st.secretByPath path = some secret → secret.id ≠ draws.freshId
  | _ => True

section Hidden

variable {P : Primitives} {F : Foreign} {s s' : State P} {H : Set SecretPath}

theorem Alike.answer_eq
    {request : SecretRequest}
    (h : Alike F (request.presented F) H s s')
    (hfresh : request.FreshFor H s.db.store)
    (hfresh' : request.FreshFor H s'.db.store) :
    request.answer P F s' = request.answer P F s := by
  cases request with
  | read conn request env => exact congrArg (Answer.ofResult .read) (h.read_eq request env)
  | resolve conn paths env =>
      exact congrArg (Answer.ofResult .resolved) (h.resolve_eq paths env)
  | socket peer request env =>
      cases request with
      | disconnected => rfl
      | violation violation =>
          simp only [SecretRequest.answer, handle_violation]
      | ready token targets =>
          exact congrArg (Answer.ofResult .bytes) (h.handle_eq peer targets env)
  | list conn request env => exact congrArg (Answer.ofResult .listed) (h.list_eq request env)
  | versions conn path env => exact congrArg (Answer.ofResult .versions) (h.versions_eq path env)
  | write conn request draws env =>
      exact congrArg (Answer.ofResult .written) (h.write_eq request draws env hfresh hfresh')
  | rollback conn request now env =>
      exact congrArg (Answer.ofResult .done) (h.rollback_eq request now env)
  | delete conn request now env =>
      exact congrArg (Answer.ofResult .done) (h.delete_eq request now env)
  | tagAdd conn request now env =>
      exact congrArg (Answer.ofResult .done) (h.tagAdd_eq request now env)
  | tagRemove conn request now env =>
      exact congrArg (Answer.ofResult .done) (h.tagRemove_eq request now env)

end Hidden

/-- There is no version to be had at a path: no secret, no such version, or a deleted one. -/
def NoVersion (st : Store) (path : SecretPath) (selector : VersionSelector) : Prop :=
  ∀ secret version row, st.secretByPath path = some secret →
    selector.pick secret = some version → row ∈ st.versions.rows →
    row.slot = (secret.id, version) → row.state ≠ .active

/-- The one path that a request is about, and what it takes to ask for it. -/
def SecretRequest.target : SecretRequest → Option (SecretPath × Capability)
  | .read _ request _ => some (request.path, .read)
  | .resolve _ [path] _ => some (path, .read)
  | .socket _ (.ready _ [target]) _ => some (target.path, .read)
  | .versions _ path _ => some (path, .list)
  | .write _ request .. => some (request.path, .write)
  | .rollback _ request .. => some (request.path, .delete)
  | .delete _ request .. => some (request.path, .delete)
  | .tagAdd _ request .. => some (request.path, .write)
  | .tagRemove _ request .. => some (request.path, .write)
  | _ => none

/-- The store has nothing that the request could be about. -/
def SecretRequest.Missing (st : Store) : SecretRequest → Prop
  | .read _ request _ => NoVersion st request.path (selectorOf request.version)
  | .resolve _ [path] _ => NoVersion st path .current
  | .socket _ (.ready _ [target]) _ => NoVersion st target.path (selectorOf target.version)
  | .rollback _ request .. => NoVersion st request.path (.exact request.target)
  | .versions _ path _ => st.secretByPath path = none
  | .delete _ request .. => st.secretByPath request.path = none
  | .tagAdd _ request .. => st.secretByPath request.path = none
  | .tagRemove _ request .. => st.secretByPath request.path = none
  | _ => False

/-- The policies of the caller do not allow the request. -/
def SecretRequest.Forbidden {P : Primitives} (F : Foreign) (s : State P)
    (request : SecretRequest) : Prop :=
  ∃ path capability, request.target = some (path, capability) ∧
    ∀ policies, PoliciesOf F s.access (request.presented F) policies →
      (evaluate policies ⟨path, capability, storedTags s.db.store path⟩).isAllowed = false

/-- The one answer to all of these. -/
def SecretRequest.refusal : SecretRequest → Answer
  | .socket .. => .bytes (errorFrame deniedMessage)
  | _ => .refused .denied

section Refusals

variable {P : Primitives} {F : Foreign} {s : State P}

theorem NoVersion.not_readable
    {st : Store} {path : SecretPath} {selector : VersionSelector} {secret : SecretRow}
    {version : Version} {row : VersionRow}
    (h : NoVersion st path selector)
    (hsecret : st.secretByPath path = some secret)
    (hpick : selector.pick secret = some version)
    (hrow : st.versions.find? (secret.id, version) = some row) :
    ¬ row.state.isReadable = true := by
  obtain ⟨hmem, hslot⟩ := Table.find?_eq_some_iff.mp hrow
  rw [VersionState.isReadable_iff]
  exact h secret version row hsecret hpick hmem hslot

theorem NoVersion.readVersion_eq
    {st : Store} {path : SecretPath} {selector : VersionSelector}
    (h : NoVersion st path selector) :
    readVersion st path selector = .error .notFound := by
  unfold readVersion Storage.resolve
  cases hsecret : st.secretByPath path with
  | none => rfl
  | some secret =>
      cases hpick : selector.pick secret with
      | none => simp [okOr, hpick, bind, Except.bind]
      | some version =>
          cases hrow : st.versions.find? (secret.id, version) with
          | none => simp [okOr, hpick, hrow, bind, Except.bind]
          | some row =>
              simp [okOr, hpick, hrow, bind, Except.bind, buildStoredVersion,
                h.not_readable hsecret hpick hrow]

theorem NoVersion.rollback_eq
    {st : Store} {path : SecretPath} {target : Version} {now : UnixTime}
    (h : NoVersion st path (.exact target)) :
    Storage.rollback st path target now = .error .notFound := by
  unfold Storage.rollback secretId
  cases hsecret : st.secretByPath path with
  | none => rfl
  | some secret =>
      cases hrow : st.versions.find? (secret.id, target) with
      | none => simp [okOr, hrow, bind, Except.bind]
      | some row =>
          simp [okOr, hrow, bind, Except.bind, h.not_readable hsecret rfl hrow]

/-- Whatever the gate decides, a handler that would refuse refuses. -/
theorem gated_refused
    {α : Type} {conn : Connection} {route : Route} {path : Option SecretPath} {env : GateEnv}
    {k : Authenticated → Code P ApiError α}
    (hk : ∀ caller, check F s.db.store s.access (extractToken F conn.header) conn.peer
        ⟨route, path⟩ env.checked = .ok caller →
      ((k caller).alone (s.touch P caller.tokenId env.touched)).1 = .error .denied) :
    ((gate P F conn route path env >>= k).alone s).1 = .error .denied := by
  rw [Script.alone_bind, gate_alone]
  cases hcheck : check F s.db.store s.access (extractToken F conn.header) conn.peer
      ⟨route, path⟩ env.checked with
  | error denied => rfl
  | ok caller => exact hk caller hcheck

theorem bind_refused
    {α β : Type} {x : Code P ApiError α} {k : α → Code P ApiError β}
    (h : (x.alone s).1 = .error .denied) :
    ((x >>= k).alone s).1 = .error .denied := by
  rw [Script.alone_bind]
  rcases hx : x.alone s with ⟨r, t⟩
  rw [hx] at h
  dsimp only at h
  subst h
  rfl

/-- A caller whose policies do not allow a path does not get through. -/
theorem not_check_of_forbidden
    {presented : Except Denied PresentedToken} {peer : PeerCredentials} {route : Route}
    {path : SecretPath} {capability : Capability} {now : UnixTime} {caller : Authenticated}
    (h : ∀ policies, PoliciesOf F s.access presented policies →
      (evaluate policies ⟨path, capability, storedTags s.db.store path⟩).isAllowed = false)
    (hroute : route.requiredCapability = some capability) :
    ¬ check F s.db.store s.access presented peer ⟨route, some path⟩ now = .ok caller := by
  intro hcheck
  obtain ⟨capability', token, record, policies, hroute', htoken, hrecord, -, -, hpolicies,
    hgranted, -⟩ := check_eq_ok_iff.mp hcheck
  cases hroute.symm.trans hroute'
  have hdenied := h policies ⟨token, record, htoken, hrecord, hpolicies⟩
  cases hgranted.symm.trans hdenied

/-- A handler on one path refuses who is forbidden to use it, and refuses what is not there. -/
theorem path_refused
    {α : Type} {conn : Connection} {route : Route} {path : SecretPath} {capability : Capability}
    {env : GateEnv} {k : Authenticated → Code P ApiError α} {missing : Prop}
    (hroute : route.requiredCapability = some capability)
    (h : missing ∨ ∀ policies, PoliciesOf F s.access (extractToken F conn.header) policies →
      (evaluate policies ⟨path, capability, storedTags s.db.store path⟩).isAllowed = false)
    (hk : missing → ∀ caller (t : State P), t.keys = s.keys → t.db = s.db →
      ((k caller).alone t).1 = .error .denied) :
    ((gate P F conn route (some path) env >>= k).alone s).1 = .error .denied := by
  refine gated_refused ?_
  intro caller hcheck
  rcases h with hmissing | hforbidden
  · exact hk hmissing caller _ rfl rfl
  · exact absurd hcheck (not_check_of_forbidden hforbidden hroute)

/-- So does a batch of one. -/
theorem resolveSecrets_refused
    {presented : Except Denied PresentedToken} (peer : PeerCredentials)
    (target : ResolveTarget) (env : ResolveEnv)
    (h : NoVersion s.db.store target.path (selectorOf target.version) ∨
      ∀ policies, PoliciesOf F s.access presented policies →
        (evaluate policies ⟨target.path, .read, storedTags s.db.store target.path⟩).isAllowed =
          false) :
    ∃ failure, ((resolveSecrets P F presented peer [target] env).alone s).1 = .error failure ∧
      failure.apiError = .denied ∧ failure.message = deniedMessage := by
  simp only [resolveSecrets]
  rw [Script.alone_bind, Script.alone_mapError, authorize_alone]
  cases hbatch : check F s.db.store s.access presented peer ⟨.resolve, none⟩
      env.batch.gate.checked with
  | error denied => exact ⟨.denied denied, rfl, rfl, rfl⟩
  | ok caller =>
      have hused := s.used_touch caller.tokenId env.batch.gate.touched
      simp only [Except.mapError, Script.andThen_ok, resolveTargets]
      rw [Script.alone_bind, Script.alone_bind, Script.alone_mapError, authorize_alone,
        hused.check_eq]
      cases hcheck : check F s.db.store s.access presented peer ⟨.resolve, some target.path⟩
          (env.targets 0).checked with
      | error denied => exact ⟨.denied denied, rfl, rfl, rfl⟩
      | ok caller' =>
          rcases h with hmissing | hforbidden
          swap
          · exact absurd hcheck (not_check_of_forbidden hforbidden rfl)
          refine ⟨.store .notFound, ?_, rfl, rfl⟩
          simp only [Except.mapError, Script.andThen_ok, Script.alone_bind, fetch,
            Script.alone_atomically, State.touch_db, readTarget, hmissing.readVersion_eq,
            Script.andThen_error]

/-- Only a request about one path is missing something or forbidden. -/
theorem SecretRequest.exists_target
    {request : SecretRequest}
    (h : request.Missing s.db.store ∨ request.Forbidden F s) :
    ∃ target, request.target = some target := by
  rcases h with hmissing | ⟨path, capability, htarget, -⟩
  · unfold SecretRequest.Missing at hmissing
    split at hmissing
    all_goals first | exact ⟨_, rfl⟩ | exact hmissing.elim
  · exact ⟨_, htarget⟩

/-- What is not there, deleted or forbidden gets one and the same answer. -/
theorem refused_alike
    {request : SecretRequest}
    (h : request.Missing s.db.store ∨ request.Forbidden F s) :
    request.answer P F s = request.refusal := by
  have hsplit : ∀ {path : SecretPath} {capability : Capability},
      request.target = some (path, capability) →
      request.Missing s.db.store ∨
        ∀ policies, PoliciesOf F s.access (request.presented F) policies →
          (evaluate policies ⟨path, capability, storedTags s.db.store path⟩).isAllowed =
            false := by
    intro path capability htarget
    rcases h with hmissing | ⟨path', capability', htarget', hdenied⟩
    · exact .inl hmissing
    · cases htarget.symm.trans htarget'
      exact .inr hdenied
  obtain ⟨⟨path, capability⟩, htarget⟩ := SecretRequest.exists_target h
  cases request with
  | read conn request env =>
      refine congrArg (Answer.ofResult .read) (path_refused rfl (hsplit rfl) ?_)
      intro hmissing caller t hkeys hdb
      refine bind_refused ?_
      simp only [openSecret, Script.alone_mapError, Script.alone_atomically, openVersion, hdb]
      rw [NoVersion.readVersion_eq hmissing]
      rfl
  | resolve conn paths env =>
      match paths with
      | [path] =>
          obtain ⟨failure, hresult, hdenied, -⟩ :=
            resolveSecrets_refused conn.peer ⟨path, none⟩ env (hsplit rfl)
          refine congrArg (Answer.ofResult .resolved) (bind_refused ?_)
          rw [Script.alone_mapError]
          exact (congrArg (Except.mapError _) hresult).trans (congrArg Except.error hdenied)
      | [] | _ :: _ :: _ => cases htarget
  | socket peer request env =>
      match request with
      | .ready token [target] =>
          obtain ⟨failure, hresult, -, hmessage⟩ :=
            resolveSecrets_refused peer target env (hsplit rfl)
          simp only [SecretRequest.answer, handle_ready]
          rw [show presentText F token = (SecretRequest.socket peer
            (.ready token [target]) env).presented F from rfl, hresult, respond, hmessage]
          rfl
      | .disconnected | .violation _ | .ready _ [] | .ready _ (_ :: _ :: _) => cases htarget
  | list conn request env => cases htarget
  | versions conn path env =>
      refine congrArg (Answer.ofResult .versions) (path_refused rfl (hsplit rfl) ?_)
      intro hmissing caller t hkeys hdb
      refine bind_refused ?_
      have hstore : t.db.store.secretByPath path = none := hdb ▸ hmissing
      simp [look, Storage.versions, secretId, hstore, okOr, bind, Except.bind, Except.mapError]
      rfl
  | write conn request draws env =>
      exact congrArg (Answer.ofResult .written)
        (path_refused rfl (hsplit rfl) fun hmissing => hmissing.elim)
  | rollback conn request now env =>
      refine congrArg (Answer.ofResult .done) (path_refused rfl (hsplit rfl) ?_)
      intro hmissing caller t hkeys hdb
      refine bind_refused ?_
      simp only [changeStore, Script.alone_atomically, hdb]
      rw [NoVersion.rollback_eq hmissing]
      rfl
  | delete conn request now env =>
      refine congrArg (Answer.ofResult .done) (path_refused rfl (hsplit rfl) ?_)
      intro hmissing caller t hkeys hdb
      refine bind_refused ?_
      have hstore : t.db.store.secretByPath request.path = none := hdb ▸ hmissing
      simp [changeStore, deleteVersion, Storage.resolve, hstore, okOr, bind, Except.bind]
      rfl
  | tagAdd conn request now env =>
      refine congrArg (Answer.ofResult .done) (path_refused rfl (hsplit rfl) ?_)
      intro hmissing caller t hkeys hdb
      refine bind_refused ?_
      have hstore : t.db.store.secretByPath request.path = none := hdb ▸ hmissing
      simp [changeStore, addTags, secretId, hstore, okOr, bind, Except.bind, Except.map]
      rfl
  | tagRemove conn request now env =>
      refine congrArg (Answer.ofResult .done) (path_refused rfl (hsplit rfl) ?_)
      intro hmissing caller t hkeys hdb
      refine bind_refused ?_
      have hstore : t.db.store.secretByPath request.path = none := hdb ▸ hmissing
      simp [changeStore, removeTags, secretId, hstore, okOr, bind, Except.bind, Except.map]
      rfl

end Refusals

section Hidden

variable {P : Primitives} {F : Foreign}

theorem dated_restoreSecrets
    (keys : KeyMaterial P) (draws : RestoreDraws) (i : Nat) (secrets : List BackupSecret)
    {store : Store}
    (h : store.Dated) :
    (restoreSecrets P F keys draws i secrets store).2.Dated := by
  induction secrets generalizing i store with
  | nil =>
      exact h
  | cons secret secrets ih =>
      unfold restoreSecrets
      split
      · exact h
      · rename_i store' hsecret
        obtain ⟨versions, -, himport⟩ := bind_eq_ok.mp hsecret
        exact ih (i + 1) (dated_import h (mapError_eq_ok.mp himport))

theorem dated_importBundle
    {s : State P} {bundle : BackupBundle} {draws : RestoreDraws}
    (h : s.db.store.Dated) :
    (importBundle P F s bundle draws).2.db.store.Dated := by
  unfold importBundle
  split
  · exact h
  have hdated := dated_restoreSecrets (F := F) s.keys draws 0 bundle.secrets h
  split
  · rename_i e store heq
    rw [heq] at hdated
    exact hdated
  · rename_i store heq
    rw [heq] at hdated
    exact hdated

/-- In every state of a daemon the secrets bear timestamps that can be shown. -/
theorem Reached.dated
    {fits : BackupBundle → Prop} {s : State P}
    (h : Reached P F fits s) :
    s.db.store.Dated := by
  induction h with
  | new hsecrets _ =>
      intro secret hsecret
      rw [hsecrets] at hsecret
      cases hsecret
  | operate op _ ih => exact Vault.dated_step P _ ih op
  | account _ _ _ ih => exact ih
  | record _ _ ih => exact ih
  | restore bundle draws _ _ _ ih => exact dated_importBundle ih

/--
The answers to a caller are the same from two daemons that differ in what is
hidden from that caller only; and a path that is not there, a version that is
deleted and a path that is forbidden are all refused in the same words.
-/
theorem hidden_secrets
    {s s' : State P} {H : Set SecretPath} (request : SecretRequest)
    (h : Alike F (request.presented F) H s s')
    (hfresh : request.FreshFor H s.db.store)
    (hfresh' : request.FreshFor H s'.db.store) :
    request.answer P F s' = request.answer P F s ∧
      ∀ (t : State P) (other : SecretRequest),
        other.Missing t.db.store ∨ other.Forbidden F t →
          other.answer P F t = other.refusal :=
  ⟨h.answer_eq hfresh hfresh', fun _ _ => refused_alike⟩

end Hidden

section Samples

/-- A daemon with a secret, and a caller that may ask for listings and see nothing. -/
def lockedState (store : Store) : State samplePrimitives :=
  let s := sampleState lockedPolicy lockedDocument
  { s with db := { s.db with store := store } }

/-- Its policy denies everything. -/
theorem hiddenAt_lockedState
    (presented : Except Denied PresentedToken) (st : Store) (path : SecretPath) :
    HiddenAt sampleForeign (sampleAccess lockedPolicy lockedDocument) presented st path := by
  rintro secret - policies ⟨token, record, -, hrecord, hpolicies⟩ capability -
  obtain ⟨row, hrow, -, rfl⟩ := tokenByPrefix_eq_some_iff.mp hrecord
  obtain rfl := List.mem_singleton.mp hrow
  have hparse : Policy.fromJson sampleForeign.policyJson lockedDocument = .ok lockedPolicy := by
    decide +kernel
  have hmem : lockedPolicy ∈ policies :=
    (mem_policiesForToken hpolicies).mpr (hasPolicy_sampleAccess hparse)
  rw [Bool.eq_false_iff]
  intro hallowed
  refine (evaluate_isAllowed_iff.mp hallowed).allowed lockedPolicy hmem ⟨everyPath, none⟩
    (List.mem_singleton_self _) ⟨?_, PathPattern.denotes_all rfl path⟩
  intro capabilities hnone
  cases hnone

theorem alike_lockedState
    (presented : Except Denied PresentedToken) :
    Alike sampleForeign presented {samplePath} (lockedState Store.empty)
      (lockedState filledState.db.store) := by
  have hrows : (filledState.db.store.secrets.rows.all fun secret =>
      decide (secret.path = samplePath)) = true := by
    decide +kernel
  refine ⟨rfl, rfl, Iff.rfl, ?_, (reached_filledState fun _ => True).dated, ?_, ?_, ?_⟩
  · intro secret hsecret
    cases hsecret
  · intro path hpath
    have hnone : filledState.db.store.secretByPath path = none := by
      refine List.find?_eq_none.mpr ?_
      intro secret hsecret heq
      have hsame := of_decide_eq_true (List.all_eq_true.mp hrows secret hsecret)
      exact hpath (hsame ▸ (of_decide_eq_true heq).symm)
    refine ⟨hnone, ?_, fun t => iff_of_false (not_carries_of_none hnone)
      (not_carries_of_none rfl)⟩
    intro secret hsecret
    cases hsecret
  · exact fun path _ => hiddenAt_lockedState presented _ path
  · exact fun path _ => hiddenAt_lockedState presented _ path

/-- A listing does not tell whether the secret is there. -/
theorem hidden_secrets_sample :
    (SecretRequest.list sampleConnection ⟨none, []⟩ (sampleEnv true)).answer samplePrimitives
        sampleForeign (lockedState filledState.db.store) =
      (SecretRequest.list sampleConnection ⟨none, []⟩ (sampleEnv true)).answer samplePrimitives
        sampleForeign (lockedState Store.empty) :=
  (hidden_secrets (.list sampleConnection ⟨none, []⟩ (sampleEnv true)) (alike_lockedState _)
    trivial trivial).1

end Samples

end Service
end Secretbae
