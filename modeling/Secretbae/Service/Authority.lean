import Secretbae.Service.Accounting
import Secretbae.Store.Shape

/-!
# What a section depends on and what it changes

The label of a section names the grant that it acts on.  Here nothing is said by
labels: `Obtains` is that what a thread does next depends on what is sealed at a
path, `Changes` is that the next section leaves something else at a path than it
found.  `within_responding` is the bound of every request but the three that
work on the store as a whole: its sections depend on what is sealed where it has
a grant to read, and change what it has a grant to write or to delete.

`acts_on_grant` puts this together with what `Acting` says of grants, for any
interleaving of any requests.
-/

namespace Secretbae
namespace Service

open Lib Proto Core Audit Storage Policies
open Daemon (KeyMaterial Database LookupPrefix PeerCredentials Denied ApiError RekeyResponse
  openVersion writeSection selectorOf)

/-- What a client is told, in full. -/
inductive Response where
  | status (response : StatusResponse)
  | read (response : ReadResponse)
  | written (response : WriteResponse)
  | listed (secrets : List SecretSummaryDto)
  | versions (response : VersionsResponse)
  | ack (response : Ack)
  | resolved (secrets : List ResolvedDto)
  | frames (bytes : Bytes)
  | tokenCreated (response : TokenCreateResponse)
  | tokens (tokens : List TokenSummaryDto)
  | policies (names : List String)
  | verified (response : Cli.AuditVerifyResponse)
  | rekeyed (response : RekeyResponse)
  | backedUp (response : BackupResponse)
  | restored (response : RestoreResponse)
deriving DecidableEq

section Requests

variable (P : Primitives) (F : Foreign)

/-- The code that serves a request, up to the response. -/
def Handler.responding : Handler → Code P Abort Response
  | .status conn env => replied P .status (Service.status P F conn env)
  | .read conn request env => replied P .read (Service.read P F conn request env)
  | .write conn request draws env =>
      replied P .written (Service.write P F conn request draws env)
  | .list conn request env => replied P .listed (listSecrets P F conn request env)
  | .versions conn path env => replied P .versions (listVersions P F conn path env)
  | .rollback conn request now env =>
      replied P .ack (Service.rollback P F conn request now env)
  | .delete conn request now env => replied P .ack (Service.delete P F conn request now env)
  | .tagAdd conn request now env => replied P .ack (Service.tagAdd P F conn request now env)
  | .tagRemove conn request now env =>
      replied P .ack (Service.tagRemove P F conn request now env)
  | .resolve conn paths env => replied P .resolved (Service.resolve P F conn paths env)
  | .socket peer env request => replied P .frames (handle P F peer env request)
  | .tokenCreate conn request draws expires now env =>
      Service.tokenCreate P F conn request draws expires now env >>= fun response =>
        pure (.tokenCreated response)
  | .tokenList conn env => replied P .tokens (Service.tokenList P F conn env)
  | .tokenRevoke conn lookup now env =>
      replied P .ack (Service.tokenRevoke P F conn lookup now env)
  | .policyPut conn document now env =>
      replied P .ack (Service.policyPut P F conn document now env)
  | .policyList conn env => replied P .policies (Service.policyList P F conn env)
  | .policyDelete conn name env => replied P .ack (Service.policyDelete P F conn name env)
  | .auditVerify conn env => replied P .verified (Service.auditVerify P F conn env)
  | .rekey conn draws env => replied P .rekeyed (Service.rekey P F conn draws env)
  | .backup conn passphrase draws now env =>
      replied P .backedUp (Service.backup P F conn passphrase draws now env)
  | .restore conn request draws env =>
      replied P .restored (Service.restore P F conn request draws env)

/-- The daemon in a state, about to respond to requests. -/
def responding {ι : Type} (s : State P) (requests : ι → Handler) :
    System Label (State P) Abort Response (Option Grant) ι where
  shared := s
  knows _ := none
  code i := (requests i).responding P F

variable {P F}

theorem code_eq_responding
    (handler : Handler) :
    handler.code P F = handler.responding P F >>= fun _ => pure () := by
  cases handler
  case tokenCreate =>
    unfold Handler.responding
    rw [Script.sequence_assoc]
    rfl
  all_goals exact answered_eq_replied _ _

/-- The response changes nothing of what a thread may do. -/
theorem meets_responding
    {g : Option Grant} (handler : Handler) :
    (Acting P F).Meets g (handler.responding P F) fun _ _ => True := by
  have hcode := meets_code (P := P) (F := F) (g := g) handler
  rw [code_eq_responding] at hcode
  exact hcode.of_discarded

end Requests

section Meaning

variable {P : Primitives}

/-- The states differ at most in what is sealed in secrets. -/
structure State.SameShape (s s' : State P) : Prop where
  keys : s'.keys = s.keys
  backend : s'.backend = s.backend
  log : s'.db.log = s.db.log
  access : s'.access = s.access
  store : s.db.store.SameShape s'.db.store

/-- The states differ at most in what is sealed at one path. -/
structure State.AlikeBut (s s' : State P) (path : SecretPath) : Prop where
  shape : s.SameShape s'
  agree : ∀ q, q ≠ path → s.db.store.AgreeAt s'.db.store q

/-- What the thread does after its next section depends on what is sealed at the path. -/
def Obtains {A ι : Type} (c : System Label (State P) Abort A (Option Grant) ι) (i : ι)
    (path : SecretPath) : Prop :=
  ∃ s', c.shared.AlikeBut s' path ∧ (c.code i).resume s' ≠ (c.code i).resume c.shared

/-- The next section of the thread leaves something else at the path than it found. -/
def Changes {A ι : Type} (c : System Label (State P) Abort A (Option Grant) ι) (i : ι)
    (path : SecretPath) : Prop :=
  ¬ c.shared.db.store.AgreeAt ((c.code i).effect c.shared).db.store path

/-- The grant is to the token of the request, of its capability and on a path of its own. -/
structure Handler.Needs (F : Foreign) (handler : Handler) (grant : Grant) : Prop where
  presented :
    ∃ token, handler.presented F = .ok token ∧ token.lookupPrefix = grant.lookupPrefix
  capability : handler.route.requiredCapability = some grant.capability
  path : handler.asks (some grant.path)

/-- As the state is, the request is granted one of these capabilities on the path. -/
def Handler.Entitled (F : Foreign) (handler : Handler) (s : State P)
    (capabilities : List Capability) (path : SecretPath) : Prop :=
  ∃ grant, handler.Needs F grant ∧ grant.path = path ∧ grant.capability ∈ capabilities ∧
    s.Grants F grant

variable (P) in
/-- A section depends on what is sealed where it has a grant to read, and changes what it has
a grant to write or to delete. -/
def grantBounds (needs : Grant → Prop) : Bounds Label (State P) where
  label l := ∀ grant, l.grant? = some grant → needs grant
  blind l s s' :=
    s.SameShape s' ∧
      ∀ grant, l.grant? = some grant → grant.capability = .read →
        s.db.store.AgreeAt s'.db.store grant.path
  moves l s s' :=
    ∀ q, (∀ grant, l.grant? = some grant → grant.capability ∈ [Capability.write, .delete] →
      q ≠ grant.path) → s.db.store.AgreeAt s'.db.store q

/-- What is presented is the token of the caller. -/
def Bears (presented : Except Denied PresentedToken) (caller : Authenticated) : Prop :=
  ∃ token, presented = .ok token ∧ token.lookupPrefix = caller.lookupPrefix

end Meaning

section Sections

variable {P : Primitives} {F : Foreign} {needs : Grant → Prop} {s s' : State P}

/-- The gates do not look at what is sealed. -/
theorem State.SameShape.check_eq
    (h : s.SameShape s') (presented : Except Denied PresentedToken) (peer : PeerCredentials)
    (requested : Requested) (now : UnixTime) :
    check F s'.db.store s'.access presented peer requested now =
      check F s.db.store s.access presented peer requested now := by
  rw [h.access]
  refine check_store_congr ?_
  intro capability policies _ _
  cases requested.path with
  | none => rfl
  | some path =>
      have htags : storedTags s'.db.store path = storedTags s.db.store path := by
        unfold storedTags
        rw [h.store.tags_eq]
      simp only [granted, htags]

/-- A gate admits a caller for the token that is presented. -/
theorem bears_of_check
    {presented : Except Denied PresentedToken} {peer : PeerCredentials}
    {requested : Requested} {now : UnixTime} {caller : Authenticated} {store : Store}
    {access : Access}
    (h : check F store access presented peer requested now = .ok caller) :
    Bears presented caller := by
  obtain ⟨-, token, record, -, -, htoken, hrecord, -, -, -, -, rfl⟩ := check_eq_ok_iff.mp h
  obtain ⟨r, -, hlookup, rfl⟩ := tokenByPrefix_eq_some_iff.mp hrecord
  exact ⟨token, htoken, hlookup.symm⟩

theorem Handler.Needs.of_bears
    {handler : Handler} {presented : Except Denied PresentedToken} {caller : Authenticated}
    {capability : Capability} {path : SecretPath}
    (h : Bears presented caller)
    (hpresented : handler.presented F = presented)
    (hcapability : handler.route.requiredCapability = some capability)
    (hpath : handler.asks (some path)) :
    handler.Needs F ⟨caller.tokenId, caller.lookupPrefix, capability, path⟩ := by
  subst hpresented
  exact ⟨h, hcapability, hpath⟩

theorem State.SameShape.append_eq
    (h : s.SameShape s') (writable : Bool) (entry : AuditEntry) :
    (s'.append P writable entry).1 = (s.append P writable entry).1 := by
  unfold State.append
  rw [h.log, h.keys]
  split
  · split <;> rfl
  · rfl

theorem within_authorize
    (presented : Except Denied PresentedToken) (peer : PeerCredentials)
    (requested : Requested) (env : GateEnv) :
    (authorize P F presented peer requested env).Within (grantBounds P needs)
      (Bears presented) := by
  have hnone : ∀ grant, Label.grant? .other = some grant → needs grant := by
    intro grant h
    cases h
  refine ⟨?_, fun s q _ => .refl _ q, ?_, ?_⟩
  · intro grant h
    cases h
  · rintro s s' ⟨h, -⟩
    dsimp only
    rw [h.check_eq]
  · intro s
    dsimp only
    cases hcheck : check F s.db.store s.access presented peer requested env.checked with
    | error denied =>
        refine ⟨hnone, ?_, fun _ _ _ => rfl, fun _ => trivial⟩
        intro s q _
        rw [State.append_store]
        exact .refl _ q
    | ok caller =>
        exact ⟨hnone, fun s q _ => .refl _ q, fun _ _ _ => rfl,
          fun _ => bears_of_check hcheck⟩

theorem within_gate
    (conn : Connection) (route : Route) (path : Option SecretPath) (env : GateEnv) :
    (gate P F conn route path env).Within (grantBounds P needs)
      (Bears (extractToken F conn.header)) :=
  (within_authorize _ _ ⟨route, path⟩ env).mapError

theorem within_record
    (caller : Authenticated) (action : Action) (path : Option SecretPath)
    (version : Option Version) (env : Env) :
    (record P caller action path version env).Within (grantBounds P needs) fun _ => True := by
  refine .atomically ?_ ?_ ?_ fun _ _ _ => trivial
  · intro grant h
    cases h
  · intro s q _
    rw [State.append_store]
    exact .refl _ q
  · rintro s s' ⟨h, -⟩
    exact h.append_eq _ _

/-- How most handlers end. -/
theorem within_recorded
    {α : Type} (caller : Authenticated) (action : Action) (path : Option SecretPath)
    (version : Option Version) (env : Env) (answer : α) :
    (do
      recordOrInternal P caller action path version env
      pure answer : Code P ApiError α).Within (grantBounds P needs) fun _ => True :=
  (within_record caller action path version env).mapError.bind fun _ _ => trivial

/-- A section that only looks. -/
theorem within_looking
    {α E : Type} {label : Label} {f : State P → Except E α}
    (hlabel : ∀ grant, label.grant? = some grant → needs grant)
    (hf : ∀ s s', (grantBounds P needs).blind label s s' → f s' = f s) :
    (Script.atomically label fun s => (f s, s) : Code P E α).Within (grantBounds P needs)
      fun _ => True :=
  .atomically hlabel (fun _ q _ => .refl _ q) hf fun _ _ _ => trivial

/-- One that looks at no secret. -/
theorem within_look
    {α : Type} {f : State P → Except ApiError α}
    (hf : ∀ s s', s.SameShape s' → f s' = f s) :
    (look P .other f).Within (grantBounds P needs) fun _ => True := by
  refine within_looking ?_ fun s s' h => hf s s' h.1
  intro grant h
  cases h

/-- A section that opens what is sealed where it has a grant to read. -/
theorem within_opening
    {α E : Type} {grant : Grant} {f : State P → Except E α}
    (hneeds : needs grant)
    (hread : grant.capability = .read)
    (hf : ∀ s s', s.SameShape s' → s.db.store.AgreeAt s'.db.store grant.path → f s' = f s) :
    (Script.atomically (.access grant) fun s => (f s, s) : Code P E α).Within
      (grantBounds P needs) fun _ => True := by
  refine within_looking ?_ ?_
  · intro grant' h
    cases h
    exact hneeds
  · rintro s s' ⟨h, hagree⟩
    exact hf s s' h (hagree grant rfl hread)

/-- A section that changes the store where it has a grant to write or to delete. -/
theorem within_changeStore
    {α : Type} {label : Label} {grant : Grant} {f : Store → Except StoreError (Store × α)}
    (hlabel : label.grant? = some grant)
    (hneeds : needs grant)
    (hcapability : grant.capability ∈ [Capability.write, .delete])
    (helsewhere : ∀ st st' a, f st = .ok (st', a) → ∀ q, q ≠ grant.path → st.AgreeAt st' q)
    (hresult : ∀ st st' : Store, st.SameShape st' →
      (f st').map Prod.snd = (f st).map Prod.snd) :
    (changeStore P label f).Within (grantBounds P needs) fun _ => True := by
  refine .atomically ?_ ?_ ?_ fun _ _ _ => trivial
  · intro grant' h
    cases hlabel.symm.trans h
    exact hneeds
  · intro s q hq
    dsimp only
    split
    · rename_i store a heq
      exact helsewhere _ _ _ heq q (hq grant hlabel hcapability)
    · exact .refl _ q
  · rintro s s' ⟨h, -⟩
    have hanswer : ((changeStore P label f).alone s').1 =
        ((changeStore P label f).alone s).1 :=
      changeStore_answer_eq (hresult _ _ h.store)
    exact hanswer

theorem within_commitWrite
    {caller : Authenticated} {request : WriteRequest} {draws : WriteDraws} {plaintext : Bytes}
    (hneeds : needs ⟨caller.tokenId, caller.lookupPrefix, .write, request.path⟩) :
    (commitWrite P caller request draws plaintext).Within (grantBounds P needs)
      fun _ => True := by
  refine .atomically ?_ ?_ ?_ fun _ _ _ => trivial
  · intro grant h
    cases h
    exact hneeds
  · intro s q hq
    exact (writeSection_elsewhere s.keys ⟨caller.lookupPrefix, caller.peer⟩
      ⟨request.path, some plaintext, request.tags, request.comment⟩
      ⟨draws.freshId, draws.began, draws.draws, draws.now⟩ plaintext s.db).2 q
      (hq _ rfl (List.mem_cons_self ..))
  · rintro s s' ⟨h, -⟩
    dsimp only
    rw [writeSection_result, writeSection_result, h.keys, h.store.write_eq]

/-- A section that leaves the store alone. -/
theorem within_changeAccess
    {label : Label} {f : Access → Except StoreError Access}
    (hlabel : label.grant? = none) :
    (changeAccess P label f).Within (grantBounds P needs) fun _ => True := by
  refine .atomically ?_ ?_ ?_ fun _ _ _ => trivial
  · intro grant h
    cases hlabel.symm.trans h
  · intro s q _
    cases f s.access <;> exact .refl _ q
  · rintro s s' ⟨h, -⟩
    rw [h.access]
    cases f s.access <;> rfl

end Sections

section Handlers

variable {P : Primitives} {F : Foreign} {needs : Grant → Prop}

/-- A handler that changes the store where it has a grant to, and records it. -/
theorem within_change
    {α β : Type} {conn : Connection} {route : Route} {path : SecretPath} {env : Env}
    {capability : Capability} {label : Authenticated → Label}
    {f : Store → Except StoreError (Store × α)} {action : Action}
    {version : α → Option Version} {answer : β}
    (hneeds : ∀ caller, Bears (extractToken F conn.header) caller →
      needs ⟨caller.tokenId, caller.lookupPrefix, capability, path⟩)
    (hlabel : ∀ caller, (label caller).grant? =
      some ⟨caller.tokenId, caller.lookupPrefix, capability, path⟩)
    (hcapability : capability ∈ [Capability.write, .delete])
    (helsewhere : ∀ st st' a, f st = .ok (st', a) → ∀ q, q ≠ path → st.AgreeAt st' q)
    (hresult : ∀ st st' : Store, st.SameShape st' →
      (f st').map Prod.snd = (f st).map Prod.snd) :
    (do
      let caller ← gate P F conn route (some path) env.gate
      let a ← changeStore P (label caller) f
      recordOrInternal P caller action (some path) (version a) env
      pure answer : Code P ApiError β).Within (grantBounds P needs) fun _ => True := by
  refine (within_gate conn route (some path) env.gate).bind ?_
  intro caller h
  refine (within_changeStore (hlabel caller) (hneeds caller h) hcapability helsewhere
    hresult).bind ?_
  intro a _
  exact within_recorded ..

/-- One that changes tokens or policies. -/
theorem within_administration
    {β : Type} {env : Env} {label : Label} {f : Access → Except StoreError Access} {action : Action} {answer : β}
    (hlabel : label.grant? = none) (caller : Authenticated) :
    (do
      changeAccess P label f
      recordOrInternal P caller action none none env
      pure answer : Code P ApiError β).Within (grantBounds P needs) fun _ => True :=
  (within_changeAccess hlabel).bind fun _ _ => within_recorded ..

theorem within_replied
    {α β : Type} {reply : α → β} {code : Code P ApiError α}
    (h : code.Within (grantBounds P needs) fun _ => True) :
    (replied P reply code).Within (grantBounds P needs) fun _ => True :=
  h.mapError.bind fun _ _ => trivial

/-- Every round of the loop opens the path of its own gate. -/
theorem within_resolveTargets
    {presented : Except Denied PresentedToken} {peer : PeerCredentials}
    {gates : Nat → GateEnv} (i : Nat) {targets : List ResolveTarget}
    (hneeds : ∀ target ∈ targets, ∀ caller, Bears presented caller →
      needs ⟨caller.tokenId, caller.lookupPrefix, .read, target.path⟩) :
    (resolveTargets P F presented peer gates i targets).Within (grantBounds P needs)
      fun _ => True := by
  induction targets generalizing i with
  | nil =>
      trivial
  | cons target targets ih =>
      rw [List.forall_mem_cons] at hneeds
      refine (within_authorize presented peer ⟨.resolve, some target.path⟩
        (gates i)).mapError.bind ?_
      intro caller h
      refine (within_opening (hneeds.1 caller h) rfl ?_).bind ?_
      · intro s s' h hagree
        unfold readTarget
        rw [h.keys, hagree.readVersion_eq]
      · intro resolved _
        exact (ih (i + 1) hneeds.2).bind fun _ _ => trivial

theorem within_resolveSecrets
    {presented : Except Denied PresentedToken} {peer : PeerCredentials}
    {targets : List ResolveTarget} {env : ResolveEnv}
    (hneeds : ∀ target ∈ targets, ∀ caller, Bears presented caller →
      needs ⟨caller.tokenId, caller.lookupPrefix, .read, target.path⟩) :
    (resolveSecrets P F presented peer targets env).Within (grantBounds P needs)
      fun _ => True := by
  refine (within_authorize presented peer ⟨.resolve, none⟩ env.batch.gate).mapError.bind ?_
  intro caller _
  refine (within_resolveTargets 0 hneeds).bind ?_
  intro resolved _
  exact (within_record caller .resolve none none env.batch).mapError.bind fun _ _ => trivial

theorem within_tokenCreate
    (conn : Connection) (request : TokenCreateRequest) (draws : IssueDraws)
    (expires now : UnixTime) (env : Env) :
    (Service.tokenCreate P F conn request draws expires now env).Within (grantBounds P needs)
      fun _ => True := by
  refine (within_gate conn .tokenCreate none env.gate).mapError.bind fun caller _ => ?_
  cases issue F.sha256 draws with
  | error e => trivial
  | ok issued =>
      have hcreate : ∀ expiresAt,
          (createFor P F caller request issued expiresAt now env).Within (grantBounds P needs)
            fun _ => True := by
        intro expiresAt
        unfold createFor
        exact within_administration rfl caller
      cases hexpiry : expiry request.ttlSeconds expires with
      | error e => trivial
      | ok expiresAt => exact (hcreate expiresAt).mapError

/-- Every request but those that work on the store as a whole keeps to its grants. -/
theorem within_responding
    (handler : Handler)
    (hroute : handler.route ∉ [Route.rekey, .backup, .restore]) :
    (handler.responding P F).Within (grantBounds P (handler.Needs F)) fun _ => True := by
  cases handler with
  | status conn env =>
      refine within_replied ((within_gate conn .status none env.gate).bind fun _ _ => ?_)
      refine within_look ?_
      intro s s' h
      rw [h.keys, h.store.secretCount_eq]
  | read conn request env =>
      refine within_replied ?_
      refine (within_gate conn .read (some request.path) env.gate).bind fun caller h => ?_
      refine Script.Within.bind (within_opening (.of_bears h rfl rfl rfl) rfl ?_).mapError
        fun opened _ => within_recorded ..
      intro s s' h hagree
      unfold openVersion
      rw [h.keys, hagree.readVersion_eq]
  | write conn request draws env =>
      refine within_replied ?_
      refine (within_gate conn .write (some request.path) env.gate).bind fun caller h => ?_
      cases F.base64Decode request.value with
      | none => trivial
      | some plaintext =>
          exact (within_commitWrite (.of_bears h rfl rfl rfl)).bind
            fun version _ => within_recorded ..
  | list conn request env =>
      refine within_replied ?_
      refine (within_gate conn .list none env.gate).bind fun caller _ => ?_
      refine (within_look ?_).bind fun summaries _ => ?_
      · intro s s' h
        rw [h.store.list_eq]
      refine (within_look ?_).bind fun visible _ => within_recorded ..
      intro s s' h
      rw [h.access]
  | versions conn path env =>
      refine within_replied ?_
      refine (within_gate conn .versions (some path) env.gate).bind fun caller h => ?_
      refine (within_looking ?_ ?_).bind fun listed _ => within_recorded ..
      · intro grant hgrant
        cases hgrant
        exact .of_bears h rfl rfl rfl
      · rintro s s' ⟨h, -⟩
        rw [h.store.versions_eq]
  | rollback conn request now env =>
      refine within_replied (within_change (fun caller h => .of_bears h rfl rfl rfl)
        (fun _ => rfl) (by decide) ?_ ?_)
      · intro st st' a heq q hq
        obtain ⟨store, hrollback, heq⟩ := map_eq_ok.mp heq
        cases heq
        exact agreeAt_rollback hrollback hq
      · intro st st' h
        rw [map_map, map_map]
        exact h.rollback_eq request.path request.target now
  | delete conn request now env =>
      refine within_replied (within_change (fun caller h => .of_bears h rfl rfl rfl)
        (fun _ => rfl) (by decide) ?_ ?_)
      · intro st st' a heq q hq
        exact agreeAt_deleteVersion heq hq
      · intro st st' h
        exact h.deleteVersion_eq ..
  | tagAdd conn request now env =>
      refine within_replied (within_change (fun caller h => .of_bears h rfl rfl rfl)
        (fun _ => rfl) (by decide) ?_ ?_)
      · intro st st' a heq q hq
        obtain ⟨store, hadd, heq⟩ := map_eq_ok.mp heq
        cases heq
        exact agreeAt_addTags hadd hq
      · intro st st' h
        rw [map_map, map_map]
        refine (addTags_map ..).trans (Eq.trans ?_ (addTags_map ..).symm)
        rw [h.secretId_eq]
  | tagRemove conn request now env =>
      refine within_replied (within_change (fun caller h => .of_bears h rfl rfl rfl)
        (fun _ => rfl) (by decide) ?_ ?_)
      · intro st st' a heq q hq
        obtain ⟨store, hremove, heq⟩ := map_eq_ok.mp heq
        cases heq
        exact agreeAt_removeTags hremove hq
      · intro st st' h
        rw [map_map, map_map]
        refine (removeTags_map ..).trans (Eq.trans ?_ (removeTags_map ..).symm)
        rw [h.secretId_eq]
  | resolve conn paths env =>
      refine within_replied ?_
      refine (within_resolveSecrets ?_).mapError.bind fun _ _ => trivial
      intro target htarget caller h
      obtain ⟨path, hpath, rfl⟩ := List.mem_map.mp htarget
      exact .of_bears h rfl rfl (.inr ⟨path, hpath, rfl⟩)
  | socket peer env request =>
      refine within_replied ?_
      cases request with
      | disconnected => trivial
      | violation violation =>
          exact (within_authorize ..).attempt.bind fun _ _ => trivial
      | ready token targets =>
          refine (within_resolveSecrets ?_).attempt.bind fun _ _ => trivial
          intro target htarget caller h
          exact .of_bears h rfl rfl (.inr ⟨target, htarget, rfl⟩)
  | tokenCreate conn request draws expires now env =>
      exact (within_tokenCreate conn request draws expires now env).bind fun _ _ => trivial
  | tokenList conn env =>
      refine within_replied ((within_gate conn .tokenList none env.gate).bind fun _ _ => ?_)
      refine (within_look ?_).bind fun _ _ => trivial
      intro s s' h
      rw [h.access]
  | tokenRevoke conn lookup now env =>
      refine within_replied ((within_gate conn .tokenRevoke none env.gate).bind
        fun caller _ => ?_)
      cases parseLookupPrefix lookup with
      | error e => trivial
      | ok lookup => exact within_administration rfl caller
  | policyPut conn document now env =>
      refine within_replied ((within_gate conn .policyPut none env.gate).bind fun caller _ => ?_)
      cases Policy.fromJson F.policyJson document with
      | error e => trivial
      | ok policy => exact within_administration rfl caller
  | policyList conn env =>
      refine within_replied ((within_gate conn .policyList none env.gate).bind fun _ _ => ?_)
      refine within_look ?_
      intro s s' h
      rw [h.access]
  | policyDelete conn name env =>
      exact within_replied ((within_gate conn .policyDelete none env.gate).bind
        fun caller _ => within_administration rfl caller)
  | auditVerify conn env =>
      refine within_replied ((within_gate conn .auditVerify none env.gate).bind fun _ _ => ?_)
      refine within_look ?_
      intro s s' h
      rw [h.log, h.keys]
  | rekey | backup | restore =>
      simp [Handler.route] at hroute

end Handlers

section Runs

variable {P : Primitives} {F : Foreign}

/--
Any requests are served in any interleaving of their sections, undisturbed as in
`grants_of_undisturbed`.  A request, unless it works on the store as a whole,
depends on what is sealed at a path only while its token is granted to read that
path, changes a path only while its token is granted to write it or to delete
from it, and acts on no grant but one that it needs and that is good.
-/
theorem acts_on_grant
    {ι : Type} [DecidableEq ι] {s : State P} {requests : ι → Handler} {schedule : List ι}
    (hquiet : along (System.step (Acting P F)) (System.Undisturbed (Acting P F))
      (responding P F s requests) schedule)
    {i : ι}
    (hroute : (requests i).route ∉ [Route.rekey, .backup, .restore]) (path : SecretPath) :
    let c := run (System.step (Acting P F)) (responding P F s requests) schedule
    (Obtains c i path → (requests i).Entitled F c.shared [.read] path) ∧
      (Changes c i path → (requests i).Entitled F c.shared [.write, .delete] path) ∧
      ∀ label grant, c.label? i = some label → label.grant? = some grant →
        (requests i).Needs F grant ∧ c.shared.Grants F grant := by
  intro c
  have hwithin : (c.code i).Within (grantBounds P ((requests i).Needs F)) fun _ => True :=
    System.within_run (within_responding (requests i) hroute) schedule
  have hacts : ∀ label grant, c.label? i = some label → label.grant? = some grant →
      (requests i).Needs F grant ∧ c.shared.Grants F grant := by
    intro label grant hlabel hgrant
    exact ⟨(System.moves_of_within hwithin hlabel c.shared).1 grant hgrant,
      grants_of_undisturbed (fun _ => rfl) (fun i => meets_responding (requests i)) hquiet
        hlabel hgrant⟩
  refine ⟨?_, ?_, hacts⟩
  · rintro ⟨s', halike, hdiffers⟩
    by_contra hnot
    refine hdiffers (System.resume_of_within hwithin ?_)
    intro label hlabel
    refine ⟨halike.shape, ?_⟩
    intro grant hgrant hread
    refine halike.agree grant.path ?_
    intro hpath
    obtain ⟨hneeds, hgood⟩ := hacts label grant hlabel hgrant
    exact hnot ⟨grant, hneeds, hpath, List.mem_singleton.mpr hread, hgood⟩
  · intro hchanges
    by_contra hnot
    refine hchanges ?_
    cases hlabel : c.label? i with
    | none =>
        rw [System.effect_of_ended hlabel]
        exact .refl _ path
    | some label =>
        refine (System.moves_of_within hwithin hlabel c.shared).2 path ?_
        intro grant hgrant hcapability hpath
        obtain ⟨hneeds, hgood⟩ := hacts label grant hlabel hgrant
        exact hnot ⟨grant, hneeds, hpath.symm, hcapability, hgood⟩

end Runs

section Samples

/-- The daemon after some sections of the two requests. -/
def beside (request : Handler) (schedule : List (Fin 2)) :
    System Label (State samplePrimitives) Abort Response (Option Grant) (Fin 2) :=
  run (System.step (Acting samplePrimitives wholeForeign))
    (responding samplePrimitives wholeForeign filledState (readBeside request)) schedule

/-- The state with no nonce in any version. -/
def State.emptied {P : Primitives} (s : State P) : State P :=
  let store := s.db.store.updateVersions (fun r => { r with nonce := none }) fun _ => rfl
  { s with db := { s.db with store := store } }

/-- Where there is one path, nothing else is emptied. -/
theorem State.alikeBut_emptied
    {P : Primitives} {s : State P} {path : SecretPath}
    (h : ∀ secret ∈ s.db.store.secrets.rows, secret.path = path) :
    s.AlikeBut s.emptied path := by
  refine ⟨⟨rfl, rfl, rfl, rfl, ⟨rfl, ?_, rfl, rfl, rfl⟩⟩, ?_⟩
  · exact List.map_map
  · intro q hq
    refine ⟨rfl, ?_, fun _ => Iff.rfl⟩
    intro secret hsecret
    obtain ⟨hmem, hpath⟩ := Store.secretByPath_eq_some_iff.mp hsecret
    exact absurd (hpath.symm.trans (h secret hmem)) hq

/-- A thread that goes on from one state and ends from the other obtains the path. -/
theorem obtains_of_ended
    {P : Primitives} {ι : Type} {c : System Label (State P) Abort Response (Option Grant) ι}
    {i : ι} {path : SecretPath}
    (hpaths : (c.shared.db.store.secrets.rows.all fun secret => secret.path = path) = true)
    (hends : (ended ((c.code i).resume c.shared.emptied)).isSome = true)
    (hgoes : (ended ((c.code i).resume c.shared)).isSome = false) :
    Obtains c i path := by
  refine ⟨c.shared.emptied, State.alikeBut_emptied ?_, ?_⟩
  · intro secret hsecret
    exact of_decide_eq_true (List.all_eq_true.mp hpaths secret hsecret)
  · intro heq
    rw [heq, hgoes] at hends
    cases hends

/-- Sections of these kinds disturb nobody. -/
def Label.harmless : Label → Bool
  | .check .. | .access _ | .other => true
  | _ => false

theorem undisturbed_of_harmless
    {P : Primitives} {F : Foreign} {A ι : Type}
    {c : System Label (State P) Abort A (Option Grant) ι} {i : ι}
    (hlabel : (c.label? i).all Label.harmless = true)
    (hlive : (c.shared.access.tokens.rows.all fun r => r.revokedAt.isNone) = true) :
    c.Undisturbed (Acting P F) i := by
  intro label heq
  rw [heq, Option.all_some] at hlabel
  refine ⟨?_, ?_⟩
  · cases label with
    | check presented peer requested now =>
        intro token record t _ hrecord hrevoked
        obtain ⟨r, hr, -, rfl⟩ := tokenByPrefix_eq_some_iff.mp hrecord
        have hnone := Option.isNone_iff_eq_none.mp (List.all_eq_true.mp hlive r hr)
        cases hrevoked.symm.trans hnone
    | _ => trivial
  · rintro j _ _ ⟨grant, -, hdisturbs⟩
    cases label with
    | check | access | other => exact hdisturbs
    | _ => cases hlabel

/-- No token is revoked while the two requests run, and their sections are of these kinds. -/
def Quiet (request : Handler) (schedule : List (Fin 2)) : Prop :=
  along (System.step (Acting samplePrimitives wholeForeign))
    (fun c i => (c.label? i).all Label.harmless = true ∧
      (c.shared.access.tokens.rows.all fun r => r.revokedAt.isNone) = true)
    (responding samplePrimitives wholeForeign filledState (readBeside request)) schedule

instance (request : Handler) (schedule : List (Fin 2)) : Decidable (Quiet request schedule) :=
  along_decidable _ _ _ _

theorem Quiet.undisturbed
    {request : Handler} {schedule : List (Fin 2)}
    (h : Quiet request schedule) :
    along (System.step (Acting samplePrimitives wholeForeign))
      (System.Undisturbed (Acting samplePrimitives wholeForeign))
      (responding samplePrimitives wholeForeign filledState (readBeside request)) schedule :=
  along_mono (fun _ _ h => undisturbed_of_harmless h.1 h.2) h

/-- The write commits between the gate and the access of the read, and then the read is made. -/
theorem acts_on_grant_sample :
    (readBeside besideWrite 1).Entitled wholeForeign (beside besideWrite [0, 0, 1, 1]).shared
        [.write, .delete] samplePath ∧
      (readBeside besideWrite 0).Entitled wholeForeign
        (beside besideWrite [0, 0, 1, 1, 1, 1]).shared [.read] samplePath := by
  have hrun :
      let c := beside besideWrite [0, 0, 1, 1]
      let d := beside besideWrite [0, 0, 1, 1, 1, 1]
      Quiet besideWrite ([0, 0, 1, 1] ++ [1, 1]) ∧
        ((c.code 1).effect c.shared).db.store.secretByPath samplePath ≠
          c.shared.db.store.secretByPath samplePath ∧
        (d.shared.db.store.secrets.rows.all fun secret => secret.path = samplePath) = true ∧
        (ended ((d.code 0).resume d.shared.emptied)).isSome = true ∧
        (ended ((d.code 0).resume d.shared)).isSome = false := by
    decide +kernel
  obtain ⟨hquiet, hwritten, hpaths, hends, hgoes⟩ := hrun
  have hbefore : Quiet besideWrite [0, 0, 1, 1] := along_of_append hquiet
  have hchanges : Changes (beside besideWrite [0, 0, 1, 1]) 1 samplePath :=
    fun h => hwritten h.secret
  have hobtains : Obtains (beside besideWrite [0, 0, 1, 1, 1, 1]) 0 samplePath :=
    obtains_of_ended hpaths hends hgoes
  exact ⟨(acts_on_grant hbefore.undisturbed (by decide) samplePath).2.1 hchanges,
    (acts_on_grant hquiet.undisturbed (by decide) samplePath).1 hobtains⟩

def besideRevoke : Handler :=
  .tokenRevoke sampleConnection "ABCDEFGH" (sampleTime 100) (sampleEnv true)

/-- The token is revoked between the gate and the access of a read, which goes through. -/
theorem read_after_revocation :
    Reached samplePrimitives wholeForeign (fun _ => True) filledState ∧
      Obtains (beside besideRevoke [0, 0, 1, 1, 1]) 0 samplePath ∧
      ¬ (readBeside besideRevoke 0).Entitled wholeForeign
        (beside besideRevoke [0, 0, 1, 1, 1]).shared [.read] samplePath ∧
      ended ((beside besideRevoke [0, 0, 1, 1, 1, 0, 0]).code 0) =
        some (.ok (.read ⟨samplePath, ⟨1, by decide⟩, "AQID"⟩)) := by
  have hrun : let c := beside besideRevoke [0, 0, 1, 1, 1]
      ((c.shared.db.store.secrets.rows.all fun secret => secret.path = samplePath) = true ∧
        (ended ((c.code 0).resume c.shared.emptied)).isSome = true ∧
        (ended ((c.code 0).resume c.shared)).isSome = false) ∧
      (c.shared.access.tokens.rows.all fun r => r.revokedAt.isSome) = true ∧
      ended ((beside besideRevoke [0, 0, 1, 1, 1, 0, 0]).code 0) =
        some (.ok (.read ⟨samplePath, ⟨1, by decide⟩, "AQID"⟩)) := by
    decide +kernel
  obtain ⟨⟨hpaths, hends, hgoes⟩, hrevoked, hanswer⟩ := hrun
  refine ⟨reached_filledState _, obtains_of_ended hpaths hends hgoes, ?_, hanswer⟩
  rintro ⟨grant, -, -, -, ⟨r, hr, -, -, hlive⟩, -⟩
  have hsome := List.all_eq_true.mp hrevoked r hr
  rw [hlive] at hsome
  cases hsome

end Samples

end Service
end Secretbae
