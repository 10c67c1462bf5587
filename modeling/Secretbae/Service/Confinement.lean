import Secretbae.Service.Acting
import Secretbae.Service.Hidden
import Secretbae.Store.Elsewhere

/-!
# What tokens without administration can bring about

Any number of requests are served in any interleaving.  If nobody who sends one
is granted administration, nobody comes to be granted more than before: tokens
and policies stay as they are, and so do the keys (`no_escalation`).  A secret
that none of them may write or delete, whatever tags it carries, stays as it is
and is read as it was (`confined_secret`).

The invariant is `Confined`.  A gate decides on the tables as it finds them, and
these are the tables of the start, so what a gate lets through is known
beforehand (`Admits`).
-/

namespace Secretbae
namespace Service

open Lib Proto Core Audit Storage Policies
open Daemon (KeyMaterial Database LookupPrefix PeerCredentials Denied ApiError openVersion
  writeSection)

/-- The policies that whoever presents this is judged by. -/
def JudgedBy (F : Foreign) (access : Access) (presented : Except Denied PresentedToken)
    (policies : List Policy) : Prop :=
  ∃ token record, presented = .ok token ∧
    tokenByPrefix access token.lookupPrefix = some record ∧ record.hash = token.hash ∧
    policiesForToken F.policyJson access record.id = .ok policies

/-- Whoever presents this is not granted administration. -/
def NoAdmin (F : Foreign) (access : Access) (presented : Except Denied PresentedToken) : Prop :=
  ∀ policies, JudgedBy F access presented policies → grantsWithoutPath policies .admin = false

/-- Whoever presents this may not write or delete a path, whatever tags are there. -/
def NoChange (F : Foreign) (access : Access) (presented : Except Denied PresentedToken)
    (path : SecretPath) : Prop :=
  ∀ policies, JudgedBy F access presented policies →
    ∀ capability ∈ [Capability.write, Capability.delete], ∀ tags,
      (evaluate policies ⟨path, capability, tags⟩).isAllowed = false

/-- What is presented with a request. -/
def Handler.presented (F : Foreign) : Handler → Except Denied PresentedToken
  | .status conn _ => extractToken F conn.header
  | .read conn _ _ => extractToken F conn.header
  | .write conn _ _ _ => extractToken F conn.header
  | .list conn _ _ => extractToken F conn.header
  | .versions conn _ _ => extractToken F conn.header
  | .rollback conn _ _ _ => extractToken F conn.header
  | .delete conn _ _ _ => extractToken F conn.header
  | .tagAdd conn _ _ _ => extractToken F conn.header
  | .tagRemove conn _ _ _ => extractToken F conn.header
  | .resolve conn _ _ => extractToken F conn.header
  | .socket _ _ .disconnected => .error .missingToken
  | .socket _ _ (.violation violation) => .error (.protocolViolation violation)
  | .socket _ _ (.ready token _) => presentText F token
  | .tokenCreate conn _ _ _ _ _ => extractToken F conn.header
  | .tokenList conn _ => extractToken F conn.header
  | .tokenRevoke conn _ _ _ => extractToken F conn.header
  | .policyPut conn _ _ _ => extractToken F conn.header
  | .policyList conn _ => extractToken F conn.header
  | .policyDelete conn _ _ => extractToken F conn.header
  | .auditVerify conn _ => extractToken F conn.header
  | .rekey conn _ _ => extractToken F conn.header
  | .backup conn _ _ _ _ => extractToken F conn.header
  | .restore conn _ _ _ => extractToken F conn.header

/-- The route of a request. -/
def Handler.route : Handler → Route
  | .status .. => .status
  | .read .. => .read
  | .write .. => .write
  | .list .. => .list
  | .versions .. => .versions
  | .rollback .. => .rollback
  | .delete .. => .delete
  | .tagAdd .. => .tagAdd
  | .tagRemove .. => .tagRemove
  | .resolve .. => .resolve
  | .socket .. => .resolve
  | .tokenCreate .. => .tokenCreate
  | .tokenList .. => .tokenList
  | .tokenRevoke .. => .tokenRevoke
  | .policyPut .. => .policyPut
  | .policyList .. => .policyList
  | .policyDelete .. => .policyDelete
  | .auditVerify .. => .auditVerify
  | .rekey .. => .rekey
  | .backup .. => .backup
  | .restore .. => .restore

/-- Nothing but last uses, the log and secrets outside `closed` has changed since `s₀`. -/
structure Confined {P : Primitives} (s₀ : State P) (closed : SecretPath → Prop)
    (s : State P) : Prop where
  access : s₀.access.SameExceptUse s.access
  keys : s.keys = s₀.keys
  backend : s.backend = s₀.backend
  sealed : s.db.store.sealedMasterKey = s₀.db.store.sealedMasterKey
  agree : ∀ q, closed q → s₀.db.store.AgreeAt s.db.store q

/-- What a gate that lets a request through has found in the policies. -/
def Admits (F : Foreign) (access : Access) (presented : Except Denied PresentedToken)
    (requested : Requested) : Prop :=
  ∀ capability, requested.route.requiredCapability = some capability →
    ∃ policies store, JudgedBy F access presented policies ∧
      granted policies capability store requested.path = true

section Invariant

variable {P : Primitives} {F : Foreign} {s₀ s : State P} {closed : SecretPath → Prop}

theorem Confined.refl
    (s₀ : State P) (closed : SecretPath → Prop) :
    Confined s₀ closed s₀ :=
  ⟨.refl _, rfl, rfl, rfl, fun q _ => .refl _ q⟩

theorem Confined.append
    (h : Confined s₀ closed s) (writable : Bool) (entry : AuditEntry) :
    Confined s₀ closed (s.append P writable entry).2 := by
  rcases s.append_cases writable entry with ⟨log, record, -, -, heq⟩ | ⟨e, heq⟩
  · rw [heq]
    exact ⟨h.access, h.keys, h.backend, h.sealed, h.agree⟩
  · rw [heq]
    exact h

theorem Confined.touch
    (h : Confined s₀ closed s) (id : Uuid) (now : UnixTime) :
    Confined s₀ closed (s.touch P id now) :=
  ⟨h.access.trans (touchToken_sameExceptUse s.access id now), h.keys, h.backend, h.sealed,
    h.agree⟩

theorem Confined.withStore
    {store : Store}
    (h : Confined s₀ closed s)
    (hsealed : store.sealedMasterKey = s.db.store.sealedMasterKey)
    (hagree : ∀ q, closed q → s.db.store.AgreeAt store q) :
    Confined s₀ closed { s with db := { s.db with store := store } } :=
  ⟨h.access, h.keys, h.backend, hsealed.trans h.sealed,
    fun q hq => (h.agree q hq).trans (hagree q hq)⟩

/-- A gate decides by the policies of the start. -/
theorem admits_of_check
    {presented : Except Denied PresentedToken} {peer : PeerCredentials}
    {requested : Requested} {now : UnixTime} {caller : Authenticated}
    (h : Confined s₀ closed s)
    (hcheck : check F s.db.store s.access presented peer requested now = .ok caller) :
    Admits F s₀.access presented requested := by
  obtain ⟨capability, token, record, policies, hroute, htoken, hrecord, hhash, -, hpolicies,
    hgranted, -⟩ := check_eq_ok_iff.mp hcheck
  intro capability' hroute'
  cases hroute.symm.trans hroute'
  rw [h.access.tokenByPrefix_eq] at hrecord
  rw [h.access.policiesForToken_eq] at hpolicies
  exact ⟨policies, s.db.store, ⟨token, record, htoken, hrecord, hhash, hpolicies⟩, hgranted⟩

/-- Who has no administration does not pass the gate of an administrative route. -/
theorem Admits.not_admin
    {access : Access} {presented : Except Denied PresentedToken} {route : Route}
    (h : Admits F access presented ⟨route, none⟩)
    (hroute : route.requiredCapability = some .admin)
    (hadmin : NoAdmin F access presented) :
    False := by
  obtain ⟨policies, store, hjudged, hgranted⟩ := h .admin hroute
  have hnone := hadmin policies hjudged
  rw [granted, hnone] at hgranted
  cases hgranted

/-- A path that may be changed is not one that may not. -/
theorem Admits.ne
    {access : Access} {presented : Except Denied PresentedToken} {route : Route}
    {path q : SecretPath} {capability : Capability}
    (h : Admits F access presented ⟨route, some path⟩)
    (hroute : route.requiredCapability = some capability)
    (hcapability : capability ∈ [Capability.write, Capability.delete])
    (hq : NoChange F access presented q) :
    q ≠ path := by
  rintro rfl
  obtain ⟨policies, store, hjudged, hgranted⟩ := h capability hroute
  have hdenied := hq policies hjudged capability hcapability (storedTags store q)
  rw [granted, hdenied] at hgranted
  cases hgranted

end Invariant

section Sections

variable {P : Primitives} {F : Foreign} {s₀ : State P} {closed : SecretPath → Prop}

theorem ensures_authorize
    (presented : Except Denied PresentedToken) (peer : PeerCredentials)
    (requested : Requested) (env : GateEnv) :
    (authorize P F presented peer requested env).Ensures (Confined s₀ closed)
      fun _ => Admits F s₀.access presented requested := by
  intro s hs
  refine ⟨hs, ?_⟩
  dsimp only
  cases hcheck : check F s.db.store s.access presented peer requested env.checked with
  | error denied =>
      exact fun s hs => ⟨hs.append _ _, trivial⟩
  | ok caller =>
      exact fun s' hs' => ⟨hs'.touch _ _, admits_of_check hs hcheck⟩

theorem ensures_gate
    (conn : Connection) (route : Route) (path : Option SecretPath) (env : GateEnv) :
    (gate P F conn route path env).Ensures (Confined s₀ closed)
      fun _ => Admits F s₀.access (extractToken F conn.header) ⟨route, path⟩ :=
  (ensures_authorize _ _ ⟨route, path⟩ env).mapError

theorem ensures_record
    (caller : Authenticated) (action : Action) (path : Option SecretPath)
    (version : Option Version) (env : Env) :
    (record P caller action path version env).Ensures (Confined s₀ closed) fun _ => True :=
  .atomically (fun _ hs => hs.append _ _) fun _ _ _ _ => trivial

theorem ensures_recordOrInternal
    (caller : Authenticated) (action : Action) (path : Option SecretPath)
    (version : Option Version) (env : Env) :
    (recordOrInternal P caller action path version env).Ensures (Confined s₀ closed)
      fun _ => True :=
  (ensures_record caller action path version env).mapError

/-- How most handlers end. -/
theorem ensures_recorded
    {α : Type} (caller : Authenticated) (action : Action) (path : Option SecretPath)
    (version : Option Version) (env : Env) (answer : α) :
    (do
      recordOrInternal P caller action path version env
      pure answer : Code P ApiError α).Ensures (Confined s₀ closed) fun _ => True :=
  (ensures_recordOrInternal caller action path version env).bind fun _ _ => trivial

/-- A section that only looks. -/
theorem ensures_looking
    {α E : Type} {label : Label} (f : State P → Except E α) :
    (Script.atomically label fun s => (f s, s) : Code P E α).Ensures (Confined s₀ closed)
      fun _ => True :=
  .atomically (fun _ hs => hs) fun _ _ _ _ => trivial

/-- A change of the store that leaves the closed paths alone. -/
theorem ensures_changeStore
    {α : Type} {label : Label} {f : Store → Except StoreError (Store × α)}
    (hf : ∀ st st' a, f st = .ok (st', a) →
      st'.sealedMasterKey = st.sealedMasterKey ∧ ∀ q, closed q → st.AgreeAt st' q) :
    (changeStore P label f).Ensures (Confined s₀ closed) fun _ => True := by
  refine .atomically ?_ fun _ _ _ _ => trivial
  intro s hs
  dsimp only
  split
  · rename_i store a heq
    obtain ⟨hsealed, hagree⟩ := hf _ _ _ heq
    exact hs.withStore hsealed hagree
  · exact hs

/-- What a write leaves of the closed paths, of which its own is none. -/
theorem writeSection_elsewhere
    (keys : KeyMaterial P) (caller : Daemon.Authenticated) (body : Daemon.WriteRequest)
    (env : Daemon.WriteEnv) (plaintext : Bytes) (db : Database) :
    (writeSection P keys caller body env plaintext db).1.store.sealedMasterKey =
        db.store.sealedMasterKey ∧
      ∀ q, q ≠ body.path →
        db.store.AgreeAt (writeSection P keys caller body env plaintext db).1.store q := by
  unfold writeSection
  split
  · exact ⟨rfl, fun q _ => .refl _ q⟩
  rename_i vault version hwrite
  have hsealed := sealedMasterKey_write hwrite
  have hagree := fun q hq => agreeAt_write (q := q) hwrite hq
  split
  · exact ⟨hsealed, hagree⟩
  split
  · exact ⟨hsealed, hagree⟩
  · rename_i store htags
    obtain ⟨-, -, -, -, hkey⟩ := addTags_frame htags
    exact ⟨hkey.trans hsealed, fun q hq => (hagree q hq).trans (agreeAt_addTags htags hq)⟩

theorem ensures_commitWrite
    {caller : Authenticated} {request : WriteRequest} {draws : WriteDraws} {plaintext : Bytes}
    (hclosed : ∀ q, closed q → q ≠ request.path) :
    (commitWrite P caller request draws plaintext).Ensures (Confined s₀ closed)
      fun _ => True := by
  refine .atomically ?_ fun _ _ _ _ => trivial
  intro s hs
  obtain ⟨hsealed, hagree⟩ := writeSection_elsewhere s.keys
    ⟨caller.lookupPrefix, caller.peer⟩
    ⟨request.path, some plaintext, request.tags, request.comment⟩
    ⟨draws.freshId, draws.began, draws.draws, draws.now⟩ plaintext s.db
  exact ⟨hs.access, hs.keys, hs.backend, hsealed.trans hs.sealed,
    fun q hq => (hs.agree q hq).trans (hagree q (hclosed q hq))⟩

end Sections

section Handlers

variable {P : Primitives} {F : Foreign} {s₀ : State P} {closed : SecretPath → Prop}

/-- No rule lets whoever presents this change one of these paths. -/
def AllClosed (F : Foreign) (access : Access) (closed : SecretPath → Prop)
    (presented : Except Denied PresentedToken) : Prop :=
  ∀ q, closed q → NoChange F access presented q

/-- An administrative handler stops at its gate. -/
theorem ensures_administration
    {α : Type} {post : α → Prop} {conn : Connection} {route : Route} {env : GateEnv}
    {rest : Authenticated → Code P ApiError α}
    (hroute : route.requiredCapability = some .admin)
    (hadmin : NoAdmin F s₀.access (extractToken F conn.header)) :
    (gate P F conn route none env >>= rest).Ensures (Confined s₀ closed) post :=
  (ensures_gate conn route none env).bind fun _ h => (h.not_admin hroute hadmin).elim

/-- A handler that changes the store at a path and records it. -/
theorem ensures_change
    {α β : Type} {conn : Connection} {route : Route} {path : SecretPath} {env : Env}
    {capability : Capability} {label : Authenticated → Label}
    {f : Store → Except StoreError (Store × α)} {action : Action}
    {version : α → Option Version} {answer : β}
    (hroute : route.requiredCapability = some capability)
    (hcapability : capability ∈ [Capability.write, Capability.delete])
    (hclosed : AllClosed F s₀.access closed (extractToken F conn.header))
    (hf : ∀ st st' a, f st = .ok (st', a) →
      st'.sealedMasterKey = st.sealedMasterKey ∧ ∀ q, q ≠ path → st.AgreeAt st' q) :
    (do
      let caller ← gate P F conn route (some path) env.gate
      let a ← changeStore P (label caller) f
      recordOrInternal P caller action (some path) (version a) env
      pure answer : Code P ApiError β).Ensures (Confined s₀ closed) fun _ => True := by
  refine (ensures_gate conn route (some path) env.gate).bind ?_
  intro caller hadmits
  refine (ensures_changeStore ?_).bind fun a _ => ensures_recorded _ _ _ _ _ _
  intro st st' a heq
  obtain ⟨hsealed, hagree⟩ := hf st st' a heq
  exact ⟨hsealed, fun q hq => hagree q (hadmits.ne hroute hcapability (hclosed q hq))⟩

theorem ensures_resolveTargets
    {presented : Except Denied PresentedToken} {peer : PeerCredentials}
    {gates : Nat → GateEnv} (i : Nat) (targets : List ResolveTarget) :
    (resolveTargets P F presented peer gates i targets).Ensures (Confined s₀ closed)
      fun _ => True := by
  induction targets generalizing i with
  | nil =>
      trivial
  | cons target targets ih =>
      refine (ensures_authorize presented peer ⟨.resolve, some target.path⟩
        (gates i)).mapError.bind ?_
      intro caller _
      refine (ensures_looking fun s => readTarget P s.keys s.db.store target).bind ?_
      intro resolved _
      exact (ih (i + 1)).bind fun _ _ => trivial

theorem ensures_resolveSecrets
    (presented : Except Denied PresentedToken) (peer : PeerCredentials)
    (targets : List ResolveTarget) (env : ResolveEnv) :
    (resolveSecrets P F presented peer targets env).Ensures (Confined s₀ closed)
      fun _ => True := by
  refine (ensures_authorize presented peer ⟨.resolve, none⟩ env.batch.gate).mapError.bind ?_
  intro caller _
  refine (ensures_resolveTargets 0 targets).bind ?_
  intro resolved _
  exact (ensures_record caller .resolve none none env.batch).mapError.bind fun _ _ => trivial

theorem ensures_handle
    (peer : PeerCredentials) (env : ResolveEnv) (request : ParsedRequest) :
    (handle P F peer env request).Ensures (Confined s₀ closed) fun _ => True := by
  cases request with
  | disconnected =>
      trivial
  | violation violation =>
      exact (ensures_authorize _ peer _ env.batch.gate).attempt.bind fun _ _ => trivial
  | ready token targets =>
      exact (ensures_resolveSecrets _ peer targets env).attempt.bind fun _ _ => trivial

/-- A handler of a route that is not administrative. -/
theorem ensures_served
    {α : Type} {code : Code P ApiError α} {route : Route} {capability : Capability}
    (hroute : route.requiredCapability = some capability)
    (hcapability : capability ≠ .admin)
    (h : code.Ensures (Confined s₀ closed) fun _ => True) :
    (answered P code).Ensures (Confined s₀ closed)
      fun _ => route.requiredCapability ≠ some .admin := by
  refine h.mapError.bind fun _ _ hadmin => ?_
  exact hcapability (Option.some_injective _ (hroute.symm.trans hadmin))

/-- A handler that has no answer. -/
theorem ensures_refused
    {α : Type} {code : Code P ApiError α} {claim : Prop}
    (h : code.Ensures (Confined s₀ closed) fun _ => False) :
    (answered P code).Ensures (Confined s₀ closed) fun _ => claim :=
  h.mapError.bind fun _ h => h.elim

/-- The invariant of every handler, and that an administrative one is not answered. -/
theorem ensures_code
    (handler : Handler)
    (hadmin : NoAdmin F s₀.access (handler.presented F))
    (hclosed : AllClosed F s₀.access closed (handler.presented F)) :
    (handler.code P F).Ensures (Confined s₀ closed)
      fun _ => handler.route.requiredCapability ≠ some .admin := by
  cases handler with
  | status conn env =>
      refine ensures_served rfl (by decide) ?_
      exact (ensures_gate conn .status none env.gate).bind fun _ _ => ensures_looking _
  | read conn request env =>
      refine ensures_served rfl (by decide) ?_
      refine (ensures_gate conn .read (some request.path) env.gate).bind fun caller _ => ?_
      refine (ensures_looking fun s => openVersion P s.keys request.path request.version
        s.db).mapError.bind fun opened _ => ?_
      exact ensures_recorded _ _ _ _ _ _
  | write conn request draws env =>
      refine ensures_served rfl (by decide) ?_
      refine (ensures_gate conn .write (some request.path) env.gate).bind ?_
      intro caller hadmits
      cases F.base64Decode request.value with
      | none => exact trivial
      | some plaintext =>
          refine (ensures_commitWrite fun q hq =>
            hadmits.ne rfl (by decide) (hclosed q hq)).bind fun version _ => ?_
          exact ensures_recorded _ _ _ _ _ _
  | list conn request env =>
      refine ensures_served rfl (by decide) ?_
      refine (ensures_gate conn .list none env.gate).bind fun caller _ => ?_
      refine (ensures_looking _).bind fun summaries _ => ?_
      refine (ensures_looking _).bind fun visible _ => ?_
      exact ensures_recorded _ _ _ _ _ _
  | versions conn path env =>
      refine ensures_served rfl (by decide) ?_
      refine (ensures_gate conn .versions (some path) env.gate).bind fun caller _ => ?_
      refine (ensures_looking _).bind fun listed _ => ?_
      exact ensures_recorded _ _ _ _ _ _
  | rollback conn request now env =>
      refine ensures_served rfl (by decide) (ensures_change rfl (by decide) hclosed ?_)
      intro st st' a heq
      obtain ⟨store, hrollback, heq⟩ := map_eq_ok.mp heq
      cases heq
      exact ⟨sealedMasterKey_rollback hrollback, fun q hq => agreeAt_rollback hrollback hq⟩
  | delete conn request now env =>
      refine ensures_served rfl (by decide) (ensures_change rfl (by decide) hclosed ?_)
      intro st st' a heq
      exact ⟨sealedMasterKey_deleteVersion heq, fun q hq => agreeAt_deleteVersion heq hq⟩
  | tagAdd conn request now env =>
      refine ensures_served rfl (by decide) (ensures_change rfl (by decide) hclosed ?_)
      intro st st' a heq
      obtain ⟨store, hadd, heq⟩ := map_eq_ok.mp heq
      cases heq
      obtain ⟨-, -, -, -, hsealed⟩ := addTags_frame hadd
      exact ⟨hsealed, fun q hq => agreeAt_addTags hadd hq⟩
  | tagRemove conn request now env =>
      refine ensures_served rfl (by decide) (ensures_change rfl (by decide) hclosed ?_)
      intro st st' a heq
      obtain ⟨store, hremove, heq⟩ := map_eq_ok.mp heq
      cases heq
      obtain ⟨-, -, -, -, hsealed⟩ := removeTags_frame hremove
      exact ⟨hsealed, fun q hq => agreeAt_removeTags hremove hq⟩
  | resolve conn paths env =>
      refine ensures_served rfl (by decide) ?_
      exact (ensures_resolveSecrets _ _ _ _).mapError.bind fun _ _ => trivial
  | socket peer env request =>
      exact ensures_served rfl (by decide) (ensures_handle peer env request)
  | tokenCreate conn request draws expires now env =>
      have hrefused : (Service.tokenCreate P F conn request draws expires now env).Ensures
          (Confined s₀ closed) fun _ => False :=
        (ensures_gate conn .tokenCreate none env.gate).mapError.bind
          fun _ h => (h.not_admin rfl hadmin).elim
      exact hrefused.bind fun _ h => h.elim
  | tokenList conn env =>
      exact ensures_refused (ensures_administration rfl hadmin)
  | tokenRevoke conn lookup now env =>
      exact ensures_refused (ensures_administration rfl hadmin)
  | policyPut conn document now env =>
      exact ensures_refused (ensures_administration rfl hadmin)
  | policyList conn env =>
      exact ensures_refused (ensures_administration rfl hadmin)
  | policyDelete conn name env =>
      exact ensures_refused (ensures_administration rfl hadmin)
  | auditVerify conn env =>
      exact ensures_refused (ensures_administration rfl hadmin)
  | rekey conn draws env =>
      exact ensures_refused (ensures_administration rfl hadmin)
  | backup conn passphrase draws now env =>
      exact ensures_refused (ensures_administration rfl hadmin)
  | restore conn request draws env =>
      exact ensures_refused (ensures_administration rfl hadmin)

end Handlers

section Runs

variable {P : Primitives} {F : Foreign} {ι : Type} [DecidableEq ι]

/-- The invariant holds in every state of every interleaving. -/
theorem confined_run
    {s : State P} {requests : ι → Handler} (closed : SecretPath → Prop) (schedule : List ι)
    (hadmin : ∀ i, NoAdmin F s.access ((requests i).presented F))
    (hclosed : ∀ i, AllClosed F s.access closed ((requests i).presented F)) :
    let c := run (System.step (Acting P F)) (serving P F s requests) schedule
    Confined s closed c.shared ∧
      ∀ i, (c.code i).Ensures (Confined s closed)
        fun _ => (requests i).route.requiredCapability ≠ some .admin :=
  System.ensures_run (Confined.refl s closed) fun i =>
    ensures_code (requests i) (hadmin i) (hclosed i)

theorem Confined.judgedBy_iff
    {s₀ s : State P} {closed : SecretPath → Prop}
    (h : Confined s₀ closed s) (presented : Except Denied PresentedToken)
    (policies : List Policy) :
    JudgedBy F s.access presented policies ↔ JudgedBy F s₀.access presented policies := by
  unfold JudgedBy
  simp only [h.access.tokenByPrefix_eq, h.access.policiesForToken_eq]

/-- Requests of which none is granted administration leave tokens, policies and keys as they
were, everybody is judged by the same policies as before, and no administrative request is
answered. -/
theorem no_escalation
    (s : State P) (requests : ι → Handler) (schedule : List ι)
    (hadmin : ∀ i, NoAdmin F s.access ((requests i).presented F)) :
    let c := run (System.step (Acting P F)) (serving P F s requests) schedule
    (s.access.SameExceptUse c.shared.access ∧ c.shared.keys = s.keys ∧
      c.shared.backend = s.backend ∧
      c.shared.db.store.sealedMasterKey = s.db.store.sealedMasterKey) ∧
    (∀ presented policies, JudgedBy F c.shared.access presented policies ↔
      JudgedBy F s.access presented policies) ∧
    ∀ i, (requests i).route.requiredCapability = some .admin → c.code i ≠ .ret (.ok ()) := by
  intro c
  obtain ⟨hconfined, hcode⟩ := confined_run (s := s) (fun _ => False) schedule hadmin
    fun _ _ h => h.elim
  refine ⟨⟨hconfined.access, hconfined.keys, hconfined.backend, hconfined.sealed⟩,
    fun presented policies => hconfined.judgedBy_iff presented policies, ?_⟩
  intro i hroute hdone
  have hanswered := hcode i
  change (c.code i).Ensures _ _ at hanswered
  rw [hdone] at hanswered
  exact hanswered hroute

/-- A secret that no request may change is there as before, and read as before. -/
theorem confined_secret
    (s : State P) (requests : ι → Handler) (schedule : List ι) (path : SecretPath)
    (hadmin : ∀ i, NoAdmin F s.access ((requests i).presented F))
    (hpath : ∀ i, NoChange F s.access ((requests i).presented F) path) :
    let c := run (System.step (Acting P F)) (serving P F s requests) schedule
    s.db.store.AgreeAt c.shared.db.store path ∧
      versions c.shared.db.store path = versions s.db.store path ∧
      ∀ version, openVersion P c.shared.keys path version c.shared.db =
        openVersion P s.keys path version s.db := by
  intro c
  obtain ⟨hconfined, -⟩ := confined_run (s := s) (fun q => q = path) schedule hadmin (by
    rintro i q rfl
    exact hpath i)
  have hagree := hconfined.agree path rfl
  refine ⟨hagree, hagree.versions_eq, ?_⟩
  intro version
  unfold openVersion
  rw [hagree.readVersion_eq, hconfined.keys]

end Runs

section Samples

theorem judgedBy_lockedState
    {presented : Except Denied PresentedToken} {policies : List Policy}
    (h : JudgedBy sampleForeign (sampleAccess lockedPolicy lockedDocument) presented policies) :
    policies = [lockedPolicy] := by
  obtain ⟨token, record, -, hrecord, -, hpolicies⟩ := h
  obtain ⟨row, hrow, -, rfl⟩ := tokenByPrefix_eq_some_iff.mp hrecord
  obtain rfl := List.mem_singleton.mp hrow
  have hlocked : (policiesForToken sampleForeign.policyJson
      (sampleAccess lockedPolicy lockedDocument) sampleTokenRow.record.id).toOption =
        some [lockedPolicy] := by
    decide +kernel
  rw [hpolicies] at hlocked
  exact Option.some_injective _ hlocked

theorem noAdmin_lockedState
    (presented : Except Denied PresentedToken) :
    NoAdmin sampleForeign (sampleAccess lockedPolicy lockedDocument) presented := by
  intro policies h
  rw [judgedBy_lockedState h]
  decide

theorem noChange_lockedState
    (presented : Except Denied PresentedToken) (path : SecretPath) :
    NoChange sampleForeign (sampleAccess lockedPolicy lockedDocument) presented path := by
  intro policies h capability _ tags
  rw [judgedBy_lockedState h, Bool.eq_false_iff]
  intro hallowed
  refine (evaluate_isAllowed_iff.mp hallowed).allowed lockedPolicy (List.mem_singleton_self _)
    ⟨everyPath, none⟩ (List.mem_singleton_self _) ⟨?_, PathPattern.denotes_all rfl path⟩
  intro capabilities hnone
  cases hnone

/-- Somebody asks for a token with every right, somebody else for a new version. -/
def intruders (i : Fin 2) : Handler :=
  if i.val = 0 then
    .tokenCreate sampleConnection ⟨"root", ["ops"], none, none⟩ ⟨none, none, sampleUuid 2⟩
      (sampleTime 100) (sampleTime 100) (sampleEnv true)
  else besideWrite

theorem no_escalation_sample :
    let c := run (System.step (Acting samplePrimitives sampleForeign))
      (serving samplePrimitives sampleForeign (lockedState filledState.db.store) intruders)
      [0, 1, 1, 0]
    ((lockedState filledState.db.store).access.SameExceptUse c.shared.access ∧
      c.shared.keys = (lockedState filledState.db.store).keys ∧
      c.shared.backend = (lockedState filledState.db.store).backend ∧
      c.shared.db.store.sealedMasterKey = filledState.db.store.sealedMasterKey) ∧
    (∀ presented policies, JudgedBy sampleForeign c.shared.access presented policies ↔
      JudgedBy sampleForeign (lockedState filledState.db.store).access presented policies) ∧
    ∀ i, (intruders i).route.requiredCapability = some .admin → c.code i ≠ .ret (.ok ()) :=
  no_escalation (lockedState filledState.db.store) intruders [0, 1, 1, 0]
    fun _ => noAdmin_lockedState _

theorem confined_secret_sample :
    let c := run (System.step (Acting samplePrimitives sampleForeign))
      (serving samplePrimitives sampleForeign (lockedState filledState.db.store) intruders)
      [0, 1, 1, 0]
    filledState.db.store.AgreeAt c.shared.db.store samplePath ∧
      versions c.shared.db.store samplePath = versions filledState.db.store samplePath ∧
      ∀ version, openVersion samplePrimitives c.shared.keys samplePath version c.shared.db =
        openVersion samplePrimitives (lockedState filledState.db.store).keys samplePath version
          (lockedState filledState.db.store).db :=
  confined_secret (lockedState filledState.db.store) intruders [0, 1, 1, 0] samplePath
    (fun _ => noAdmin_lockedState _) fun _ => noChange_lockedState _ samplePath

end Samples

end Service
end Secretbae
