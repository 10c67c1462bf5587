import Secretbae.Service.Resolve
import Secretbae.Service.RoundTrip
import Secretbae.Store.Frames

/-!
# What a handler may still do when it does it

A handler is admitted in one section and acts in a later one.  In between other
handlers run.  `Standing` says what a thread knows between the two: the grant
that its gate gave it.  It stays good as long as nobody revokes the token, puts
or deletes a policy that the token has, or takes a tag off the secret; whatever
else runs leaves it good (`State.GrantsKept`).

`grants_of_undisturbed` is what follows for any interleaving of any handlers.
-/

namespace Secretbae
namespace Service

open Lib Proto Core Audit Storage Policies
open Daemon (KeyMaterial Database LookupPrefix PeerCredentials Denied ApiError RekeyDraws
  writeSection openVersion)

/-- The grant that a section acts on. -/
def Label.grant? : Label → Option Grant
  | .access grant => some grant
  | .untag grant _ => some grant
  | _ => none

section Standing

variable {P : Primitives}

/-- The token is not revoked and its policies allow what the grant says, as the state is. -/
def State.Grants (F : Foreign) (s : State P) (grant : Grant) : Prop :=
  s.access.Live grant.tokenId grant.lookupPrefix ∧
    ∃ policies, policiesForToken F.policyJson s.access grant.tokenId = .ok policies ∧
      (evaluate policies
        ⟨grant.path, grant.capability, storedTags s.db.store grant.path⟩).isAllowed = true

/-- The section changes what the grant of another thread rests on. -/
def Disturbs (s : State P) (label : Label) (grant : Grant) : Prop :=
  match label with
  | .revoke lookup =>
      ∃ r ∈ s.access.tokens.rows, r.id = grant.tokenId ∧ r.lookupPrefix = lookup
  | .putPolicies names =>
      ∃ name ∈ names, name ∈ policyNamesForToken s.access grant.tokenId
  | .deletePolicy name => name ∈ policyNamesForToken s.access grant.tokenId
  | .untag other selectors =>
      other.path = grant.path ∧
        ∃ tag ∈ storedTags s.db.store grant.path, ∃ selector ∈ selectors,
          selector.matches tag = true
  | _ => False

/-- The clock of a gate is not behind the recorded revocation of the token it sees. -/
def Timely (s : State P) : Label → Prop
  | .check presented _ _ now =>
      ∀ token record t, presented = .ok token →
        tokenByPrefix s.access token.lookupPrefix = some record →
        record.revokedAt = some t → t.seconds ≤ now.seconds
  | _ => True

/-- The grant that a gate gives. -/
def grantOf (F : Foreign) (s : State P) (presented : Except Denied PresentedToken)
    (peer : PeerCredentials) (requested : Requested) (now : UnixTime) : Option Grant :=
  match check F s.db.store s.access presented peer requested now,
      requested.route.requiredCapability, requested.path with
  | .ok caller, some capability, some path =>
      some ⟨caller.tokenId, caller.lookupPrefix, capability, path⟩
  | _, _, _ => none

/-- Acting on the grant of one's own last gate, once. -/
def Acting (P : Primitives) (F : Foreign) : Discipline Label (State P) (Option Grant) where
  track
    | .check presented peer requested now, s, _ => grantOf F s presented peer requested now
    | .other, _, g => g
    | _, _, _ => none
  valid s g := ∀ grant, g = some grant → s.Grants F grant
  allowed g label := ∀ grant, label.grant? = some grant → g = some grant
  timely := Timely
  disturbs s label g := ∃ grant, g = some grant ∧ Disturbs s label grant

end Standing

section Kept

variable {P : Primitives} {F : Foreign} {s s' : State P}

/-- What was granted still is. -/
def State.GrantsKept (F : Foreign) (s s' : State P) : Prop :=
  ∀ grant, s.Grants F grant → s'.Grants F grant

/-- A grant rests on the standing of its token and on the tags of its path. -/
theorem State.Grants.kept
    {grant : Grant}
    (h : s.Grants F grant)
    (hstanding : s.access.StandingKept s'.access grant.tokenId)
    (htags : ∀ t, s.db.store.Carries grant.path t → s'.db.store.Carries grant.path t) :
    s'.Grants F grant := by
  obtain ⟨hlive, policies, hpolicies, hallowed⟩ := h
  obtain ⟨hlive', hrows⟩ := hstanding grant.lookupPrefix hlive
  refine ⟨hlive', policies, ?_, ?_⟩
  · rw [← hpolicies]
    unfold policiesForToken
    rw [hrows]
  · have hgranted : granted policies grant.capability s.db.store (some grant.path) = true :=
      hallowed
    change granted policies grant.capability s'.db.store (some grant.path) = true
    refine granted_mono ?_ hgranted
    intro p hp
    cases hp
    exact htags

theorem State.grantsKept
    (hstanding : ∀ id, s.access.StandingKept s'.access id)
    (htags : s.db.store.TagsKept s'.db.store) :
    s.GrantsKept F s' :=
  fun grant h => h.kept (hstanding grant.tokenId) (htags grant.path)

theorem State.GrantsKept.refl
    (s : State P) :
    s.GrantsKept F s :=
  fun _ h => h

/-- A section that nobody's grant depends on keeps the discipline. -/
theorem keeps_of_grantsKept
    {g : Option Grant} {label : Label} {f : State P → State P}
    (hallowed : (Acting P F).allowed g label)
    (htrack : ∀ s, (Acting P F).track label s g = g ∨ (Acting P F).track label s g = none)
    (hkept : ∀ s : State P, s.GrantsKept F (f s)) :
    (Acting P F).Keeps g label f := by
  refine ⟨hallowed, ?_, ?_⟩
  · intro s _ hvalid grant hgrant
    rcases htrack s with heq | heq
    · exact hkept s grant (hvalid grant (heq ▸ hgrant))
    · rw [heq] at hgrant
      cases hgrant
  · intro s g' _ _ hvalid grant hgrant
    exact hkept s grant (hvalid grant hgrant)

theorem keeps_other
    {g : Option Grant} {f : State P → State P}
    (hkept : ∀ s : State P, s.GrantsKept F (f s)) :
    (Acting P F).Keeps g .other f :=
  keeps_of_grantsKept (fun _ h => by cases h) (fun _ => .inl rfl) hkept

theorem keeps_access
    {grant : Grant} {f : State P → State P}
    (hkept : ∀ s : State P, s.GrantsKept F (f s)) :
    (Acting P F).Keeps (some grant) (.access grant) f := by
  refine keeps_of_grantsKept ?_ (fun _ => .inr rfl) hkept
  intro grant' h
  exact h

/-- A section that is no access and after which its own thread holds no grant. -/
theorem keeps_disturbing
    {g : Option Grant} {label : Label} {f : State P → State P}
    (hallowed : (Acting P F).allowed g label)
    (htrack : ∀ s, (Acting P F).track label s g = none)
    (hkept : ∀ s grant, ¬ Disturbs s label grant → s.Grants F grant → (f s).Grants F grant) :
    (Acting P F).Keeps g label f := by
  refine ⟨hallowed, ?_, ?_⟩
  · intro s _ _ grant hgrant
    rw [htrack] at hgrant
    cases hgrant
  · intro s g' _ hquiet hvalid grant hgrant
    exact hkept s grant (fun h => hquiet ⟨grant, hgrant, h⟩) (hvalid grant hgrant)

end Kept

section Sections

variable {P : Primitives} {F : Foreign}

theorem State.grantsKept_append
    (s : State P) (writable : Bool) (entry : AuditEntry) :
    s.GrantsKept F (s.append P writable entry).2 := by
  refine State.grantsKept ?_ ?_
  · intro id
    rw [State.append_access]
    exact .refl _ id
  · rw [State.append_store]
    exact .refl _

theorem State.grantsKept_touch
    (s : State P) (id : Uuid) (now : UnixTime) :
    s.GrantsKept F (s.touch P id now) :=
  State.grantsKept (standingKept_touchToken s.access id now) (.refl _)

/-- A change of the store that takes no tag off. -/
theorem State.grantsKept_store
    {s : State P} {store : Store}
    (htags : s.db.store.TagsKept store) :
    s.GrantsKept F { s with db := { s.db with store := store } } :=
  State.grantsKept (.refl s.access) htags

theorem tagsKept_writeSection
    (keys : KeyMaterial P) (caller : Daemon.Authenticated) (body : Daemon.WriteRequest)
    (env : Daemon.WriteEnv) (plaintext : Bytes) (db : Database) :
    db.store.TagsKept (writeSection P keys caller body env plaintext db).1.store := by
  unfold writeSection
  split
  · exact .refl _
  rename_i vault version hwrite
  have hkept := tagsKept_write hwrite
  split
  · exact hkept
  split
  · exact hkept
  · rename_i store hadd
    exact hkept.trans (tagsKept_addTags hadd)

theorem tagsKept_restoreSecrets
    (keys : KeyMaterial P) (draws : RestoreDraws) (i : Nat) (secrets : List BackupSecret)
    (store : Store) :
    store.TagsKept (restoreSecrets P F keys draws i secrets store).2 := by
  induction secrets generalizing i store with
  | nil =>
      exact .refl _
  | cons secret secrets ih =>
      unfold restoreSecrets
      split
      · exact .refl _
      · rename_i store' hsecret
        obtain ⟨versions, -, himport⟩ := bind_eq_ok.mp hsecret
        exact (tagsKept_import (mapError_eq_ok.mp himport)).trans (ih (i + 1) store')

/-- Policies that a token does not have may be restored. -/
theorem standingKept_restorePolicies
    {draws : RestoreDraws} {documents : List String} {id : Uuid}
    (i : Nat) (acc : Access)
    (hother : ∀ name ∈ policyNames F documents, name ∉ policyNamesForToken acc id) :
    acc.StandingKept (restorePolicies F draws i documents acc).2 id := by
  induction documents generalizing i acc with
  | nil =>
      exact .refl acc id
  | cons document documents ih =>
      unfold restorePolicies
      rcases restorePolicy_cases (draws.stored i) document acc with
        ⟨policy, acc', hparse, hput, heq⟩ | ⟨e, -, heq⟩
      swap
      · rw [heq]
        exact .refl acc id
      rw [heq]
      simp only [policyNames, List.filterMap_cons, hparse, Except.toOption, Option.map_some,
        List.mem_cons, forall_eq_or_imp] at hother
      have hstep := standingKept_putPolicy hput hother.1
      intro lookup hlive
      -- the token has the same policies after this one, so the rest leaves it alone too
      have hrest := ih (i + 1) acc' (by
        intro name hname
        unfold policyNamesForToken
        rw [(hstep lookup hlive).2]
        exact hother.2 name hname)
      exact hstep.trans hrest lookup hlive

theorem grants_importBundle
    {s : State P} {bundle : BackupBundle} {draws : RestoreDraws} {grant : Grant}
    (hquiet : ¬ Disturbs s (.putPolicies (policyNames F bundle.policies)) grant)
    (h : s.Grants F grant) :
    (importBundle P F s bundle draws).2.Grants F grant := by
  unfold importBundle
  split
  · exact h
  have hkept := tagsKept_restoreSecrets (F := F) s.keys draws 0 bundle.secrets s.db.store
  split
  · rename_i e store heq
    rw [heq] at hkept
    exact State.grantsKept_store hkept grant h
  · rename_i store heq
    rw [heq] at hkept
    refine h.kept ?_ (hkept grant.path)
    refine standingKept_restorePolicies 0 s.access ?_
    intro name hname hattached
    exact hquiet ⟨name, hname, hattached⟩

end Sections

section Code

variable {P : Primitives} {F : Foreign} {g : Option Grant}

/-- What a gate that admits has granted. -/
theorem grants_grantOf
    {s : State P} {presented : Except Denied PresentedToken} {peer : PeerCredentials}
    {requested : Requested} {now : UnixTime} {grant : Grant}
    (htimely : Timely s (.check presented peer requested now))
    (h : grantOf F s presented peer requested now = some grant) :
    s.Grants F grant := by
  unfold grantOf at h
  split at h
  swap
  · cases h
  rename_i caller capability path hcheck hroute hpath
  cases h
  obtain ⟨capability', token, record, policies, hroute', htoken, hrecord, -, husable,
    hpolicies, hgranted, rfl⟩ := check_eq_ok_iff.mp hcheck
  cases hroute.symm.trans hroute'
  rw [hpath] at hgranted
  refine ⟨?_, policies, hpolicies, hgranted⟩
  obtain ⟨r, hr, hlookup, rfl⟩ := tokenByPrefix_eq_some_iff.mp hrecord
  refine ⟨r, hr, rfl, rfl, ?_⟩
  cases hrevoked : r.revokedAt with
  | none => rfl
  | some t =>
      -- a gate in time would not have admitted a revoked token
      have hafter := husable.notRevoked t hrevoked
      have hbefore := htimely token r.record t htoken hrecord hrevoked
      exact absurd hafter (Int64.not_lt.mpr hbefore)

theorem keeps_check
    (presented : Except Denied PresentedToken) (peer : PeerCredentials)
    (requested : Requested) (now : UnixTime) :
    (Acting P F).Keeps g (.check presented peer requested now) id := by
  refine ⟨?_, ?_, ?_⟩
  · intro grant h
    cases h
  · intro s htimely _ grant hgrant
    exact grants_grantOf htimely hgrant
  · intro s g' _ _ hvalid
    exact hvalid

/-- A path that a gate was asked for is granted to the caller it admits. -/
theorem meets_authorize
    (presented : Except Denied PresentedToken) (peer : PeerCredentials)
    (requested : Requested) (env : GateEnv) :
    (Acting P F).Meets g (authorize P F presented peer requested env) fun g' caller =>
      ∀ capability path, requested.route.requiredCapability = some capability →
        requested.path = some path →
          g' = some ⟨caller.tokenId, caller.lookupPrefix, capability, path⟩ := by
  refine ⟨keeps_check presented peer requested env.checked, ?_⟩
  intro s
  dsimp only
  cases hcheck : check F s.db.store s.access presented peer requested env.checked with
  | error denied =>
      exact ⟨keeps_other fun s => s.grantsKept_append _ _, fun _ => trivial⟩
  | ok caller =>
      refine ⟨keeps_other fun s => s.grantsKept_touch _ _, ?_⟩
      intro _ capability path hroute hpath
      change grantOf F s presented peer requested env.checked = _
      simp only [grantOf, hcheck, hroute, hpath]

theorem meets_gate
    (conn : Connection) (route : Route) (path : Option SecretPath) (env : GateEnv) :
    (Acting P F).Meets g (gate P F conn route path env) fun g' caller =>
      ∀ capability p, route.requiredCapability = some capability → path = some p →
        g' = some ⟨caller.tokenId, caller.lookupPrefix, capability, p⟩ :=
  (meets_authorize _ _ ⟨route, path⟩ env).mapError

theorem meets_record
    (caller : Authenticated) (action : Action) (path : Option SecretPath)
    (version : Option Version) (env : Env) :
    (Acting P F).Meets g (record P caller action path version env) fun _ _ => True :=
  .atomically (keeps_other fun s => s.grantsKept_append _ _) fun _ _ _ => trivial

theorem meets_recordOrInternal
    (caller : Authenticated) (action : Action) (path : Option SecretPath)
    (version : Option Version) (env : Env) :
    (Acting P F).Meets g (recordOrInternal P caller action path version env) fun _ _ => True :=
  (meets_record caller action path version env).mapError

/-- A handler that looks at the tables. -/
theorem meets_look
    {α : Type} (f : State P → Except ApiError α) :
    (Acting P F).Meets g (look P .other f) fun _ _ => True :=
  .atomically (keeps_other fun s => .refl s) fun _ _ _ => trivial

/-- A handler that looks at a secret which it has been granted. -/
theorem meets_lookAt
    {α E : Type} {grant : Grant} (f : State P → Except E α)
    (hg : g = some grant) :
    (Acting P F).Meets g (.atomically (.access grant) fun s => (f s, s)) fun _ _ => True := by
  subst hg
  exact .atomically (keeps_access fun s => .refl s) fun _ _ _ => trivial

/-- A handler that changes a secret which it has been granted, and takes no tag off. -/
theorem meets_changeStore
    {α : Type} {grant : Grant} {f : Store → Except StoreError (Store × α)}
    (hg : g = some grant)
    (hf : ∀ st st' a, f st = .ok (st', a) → st.TagsKept st') :
    (Acting P F).Meets g (changeStore P (.access grant) f) fun _ _ => True := by
  subst hg
  refine .atomically (keeps_access ?_) fun _ _ _ => trivial
  intro s
  dsimp only
  split
  · rename_i store a heq
    exact State.grantsKept_store (hf _ _ _ heq)
  · exact .refl s

/-- A handler that takes tags off a secret which it has been granted. -/
theorem meets_untag
    {grant : Grant} {selectors : List TagSelector} {now : UnixTime}
    (hg : g = some grant) :
    (Acting P F).Meets g (changeStore P (.untag grant selectors) fun st =>
      (removeTags st grant.path selectors now).map fun st => (st, ())) fun _ _ => True := by
  refine .atomically (keeps_disturbing ?_ (fun _ => rfl) ?_) fun _ _ _ => trivial
  · intro grant' h
    cases h
    exact hg
  · intro s other hquiet h
    dsimp only
    split
    swap
    · exact h
    rename_i store a heq
    obtain ⟨store', hremove, heq⟩ := map_eq_ok.mp heq
    cases heq
    refine h.kept (.refl s.access _) ?_
    intro t ht
    refine (removeTags_carries hremove other.path t).mpr ⟨ht, ?_⟩
    rintro ⟨hpath, selector, hselector, hmatches⟩
    exact hquiet ⟨hpath.symm, t, mem_storedTags.mpr ht, selector, hselector, hmatches⟩

/-- A handler that leaves every token that there is alone. -/
theorem meets_changeTokens
    {f : Access → Except StoreError Access}
    (hf : ∀ acc acc', f acc = .ok acc' → ∀ id, acc.StandingKept acc' id) :
    (Acting P F).Meets g (changeAccess P .other f) fun _ _ => True := by
  refine .atomically (keeps_other ?_) fun _ _ _ => trivial
  intro s
  cases heq : f s.access with
  | error e => exact .refl s
  | ok access => exact State.grantsKept (hf _ _ heq) (.refl _)

/-- A handler that changes tokens or policies that others may rely on. -/
theorem meets_changeAccess
    {label : Label} {f : Access → Except StoreError Access}
    (hlabel : label.grant? = none)
    (htrack : ∀ s, (Acting P F).track label s g = none)
    (hf : ∀ (s : State P) access grant, f s.access = .ok access → ¬ Disturbs s label grant →
      s.access.StandingKept access grant.tokenId) :
    (Acting P F).Meets g (changeAccess P label f) fun _ _ => True := by
  refine .atomically (keeps_disturbing ?_ htrack ?_) fun _ _ _ => trivial
  · intro grant h
    rw [hlabel] at h
    cases h
  · intro s grant hquiet h
    cases heq : f s.access with
    | error e => exact h
    | ok access => exact h.kept (hf s access grant heq hquiet) fun _ ht => ht

end Code

section Handlers

variable {P : Primitives} {F : Foreign} {g : Option Grant}

theorem meets_read
    (conn : Connection) (request : ReadRequest) (env : Env) :
    (Acting P F).Meets g (read P F conn request env) fun _ _ => True := by
  refine (meets_gate conn .read (some request.path) env.gate).bind ?_
  intro g caller hg
  refine (meets_lookAt _ (hg .read request.path rfl rfl)).mapError.bind ?_
  intro g opened _
  exact (meets_recordOrInternal ..).bind fun _ _ _ => trivial

theorem meets_write
    (conn : Connection) (request : WriteRequest) (draws : WriteDraws) (env : Env) :
    (Acting P F).Meets g (write P F conn request draws env) fun _ _ => True := by
  refine (meets_gate conn .write (some request.path) env.gate).bind ?_
  intro g caller hg
  obtain rfl := hg .write request.path rfl rfl
  cases F.base64Decode request.value with
  | none => trivial
  | some plaintext =>
      have hcommit : (Acting P F).Meets
          (some ⟨caller.tokenId, caller.lookupPrefix, .write, request.path⟩)
          (commitWrite P caller request draws plaintext) fun _ _ => True := by
        refine .atomically (keeps_access ?_) fun _ _ _ => trivial
        intro s
        exact State.grantsKept (.refl s.access) (tagsKept_writeSection _ _ _ _ _ s.db)
      refine hcommit.bind ?_
      intro g version _
      exact (meets_recordOrInternal ..).bind fun _ _ _ => trivial

theorem meets_listSecrets
    (conn : Connection) (request : ListRequest) (env : Env) :
    (Acting P F).Meets g (listSecrets P F conn request env) fun _ _ => True := by
  refine (meets_gate conn .list none env.gate).bind ?_
  intro g caller _
  refine (meets_look _).bind ?_
  intro g summaries _
  refine (meets_look _).bind ?_
  intro g visible _
  exact (meets_recordOrInternal ..).bind fun _ _ _ => trivial

theorem meets_listVersions
    (conn : Connection) (path : SecretPath) (env : Env) :
    (Acting P F).Meets g (listVersions P F conn path env) fun _ _ => True := by
  refine (meets_gate conn .versions (some path) env.gate).bind ?_
  intro g caller hg
  refine (meets_lookAt _ (hg .list path rfl rfl)).bind ?_
  intro g listed _
  exact (meets_recordOrInternal ..).bind fun _ _ _ => trivial

theorem meets_rollback
    (conn : Connection) (request : RollbackRequest) (now : UnixTime) (env : Env) :
    (Acting P F).Meets g (rollback P F conn request now env) fun _ _ => True := by
  refine (meets_gate conn .rollback (some request.path) env.gate).bind ?_
  intro g caller hg
  refine (meets_changeStore (hg .delete request.path rfl rfl) ?_).bind ?_
  · intro st st' _ h
    obtain ⟨st'', hrollback, heq⟩ := map_eq_ok.mp h
    cases heq
    exact tagsKept_rollback hrollback
  · intro g _ _
    exact (meets_recordOrInternal ..).bind fun _ _ _ => trivial

theorem meets_delete
    (conn : Connection) (request : DeleteRequest) (now : UnixTime) (env : Env) :
    (Acting P F).Meets g (delete P F conn request now env) fun _ _ => True := by
  refine (meets_gate conn .delete (some request.path) env.gate).bind ?_
  intro g caller hg
  refine (meets_changeStore (hg .delete request.path rfl rfl) ?_).bind ?_
  · intro st st' _ h
    exact tagsKept_deleteVersion h
  · intro g _ _
    exact (meets_recordOrInternal ..).bind fun _ _ _ => trivial

theorem meets_tagAdd
    (conn : Connection) (request : TagRequest) (now : UnixTime) (env : Env) :
    (Acting P F).Meets g (tagAdd P F conn request now env) fun _ _ => True := by
  refine (meets_gate conn .tagAdd (some request.path) env.gate).bind ?_
  intro g caller hg
  refine (meets_changeStore (hg .write request.path rfl rfl) ?_).bind ?_
  · intro st st' _ h
    obtain ⟨st'', hadd, heq⟩ := map_eq_ok.mp h
    cases heq
    exact tagsKept_addTags hadd
  · intro g _ _
    exact (meets_recordOrInternal ..).bind fun _ _ _ => trivial

theorem meets_tagRemove
    (conn : Connection) (request : TagRemoveRequest) (now : UnixTime) (env : Env) :
    (Acting P F).Meets g (tagRemove P F conn request now env) fun _ _ => True := by
  refine (meets_gate conn .tagRemove (some request.path) env.gate).bind ?_
  intro g caller hg
  refine (meets_untag (hg .write request.path rfl rfl)).bind ?_
  intro g _ _
  exact (meets_recordOrInternal ..).bind fun _ _ _ => trivial

/-- Every round of the loop acts on the grant of its own gate. -/
theorem meets_resolveTargets
    (presented : Except Denied PresentedToken) (peer : PeerCredentials)
    (gates : Nat → GateEnv) (i : Nat) (targets : List ResolveTarget) :
    (Acting P F).Meets g (resolveTargets P F presented peer gates i targets)
      fun _ _ => True := by
  induction targets generalizing i g with
  | nil =>
      trivial
  | cons target targets ih =>
      refine (meets_authorize presented peer ⟨.resolve, some target.path⟩
        (gates i)).mapError.bind ?_
      intro g caller hg
      refine (meets_lookAt _ (hg .read target.path rfl rfl)).bind ?_
      intro g resolved _
      exact (ih (i + 1)).bind fun _ _ _ => trivial

theorem meets_resolveSecrets
    (presented : Except Denied PresentedToken) (peer : PeerCredentials)
    (targets : List ResolveTarget) (env : ResolveEnv) :
    (Acting P F).Meets g (resolveSecrets P F presented peer targets env) fun _ _ => True := by
  refine (meets_authorize presented peer ⟨.resolve, none⟩ env.batch.gate).mapError.bind ?_
  intro g caller _
  refine (meets_resolveTargets presented peer env.targets 0 targets).bind ?_
  intro g resolved _
  exact (meets_record ..).mapError.bind fun _ _ _ => trivial

theorem meets_resolve
    (conn : Connection) (paths : List SecretPath) (env : ResolveEnv) :
    (Acting P F).Meets g (resolve P F conn paths env) fun _ _ => True :=
  (meets_resolveSecrets ..).mapError.bind fun _ _ _ => trivial

theorem meets_handle
    (peer : PeerCredentials) (env : ResolveEnv) (request : ParsedRequest) :
    (Acting P F).Meets g (handle P F peer env request) fun _ _ => True := by
  cases request with
  | disconnected => trivial
  | violation violation =>
      exact (meets_authorize ..).attempt.bind fun _ _ _ => trivial
  | ready token targets =>
      exact (meets_resolveSecrets ..).attempt.bind fun _ _ _ => trivial

theorem meets_tokenCreate
    (conn : Connection) (request : TokenCreateRequest) (draws : IssueDraws)
    (expires now : UnixTime) (env : Env) :
    (Acting P F).Meets g (tokenCreate P F conn request draws expires now env)
      fun _ _ => True := by
  refine (meets_gate conn .tokenCreate none env.gate).mapError.bind ?_
  intro g caller _
  cases issue F.sha256 draws with
  | error e => trivial
  | ok issued =>
      refine (Discipline.Meets.ofExcept _).bind ?_
      intro g expiresAt _
      refine Discipline.Meets.mapError ?_
      refine (meets_changeTokens fun acc acc' h => standingKept_createToken h).bind ?_
      intro g _ _
      exact (meets_recordOrInternal ..).bind fun _ _ _ => trivial

theorem meets_tokenRevoke
    (conn : Connection) (lookup : String) (now : UnixTime) (env : Env) :
    (Acting P F).Meets g (tokenRevoke P F conn lookup now env) fun _ _ => True := by
  refine (meets_gate conn .tokenRevoke none env.gate).bind ?_
  intro g caller _
  cases parseLookupPrefix lookup with
  | error e => trivial
  | ok lookup =>
      refine (meets_changeAccess rfl (fun _ => rfl) ?_).bind ?_
      · intro s access grant h hquiet
        refine standingKept_revokeToken h ?_
        intro r hr hid hlookup
        exact hquiet ⟨r, hr, hid, hlookup⟩
      · intro g _ _
        exact (meets_recordOrInternal ..).bind fun _ _ _ => trivial

theorem meets_policyPut
    (conn : Connection) (document : String) (now : UnixTime) (env : Env) :
    (Acting P F).Meets g (policyPut P F conn document now env) fun _ _ => True := by
  refine (meets_gate conn .policyPut none env.gate).bind ?_
  intro g caller _
  cases Policy.fromJson F.policyJson document with
  | error e => trivial
  | ok policy =>
      refine (meets_changeAccess rfl (fun _ => rfl) ?_).bind ?_
      · intro s access grant h hquiet
        refine standingKept_putPolicy h ?_
        intro hattached
        exact hquiet ⟨policy.name, List.mem_singleton_self _, hattached⟩
      · intro g _ _
        exact (meets_recordOrInternal ..).bind fun _ _ _ => trivial

theorem meets_policyDelete
    (conn : Connection) (name : String) (env : Env) :
    (Acting P F).Meets g (policyDelete P F conn name env) fun _ _ => True := by
  refine (meets_gate conn .policyDelete none env.gate).bind ?_
  intro g caller _
  refine (meets_changeAccess rfl (fun _ => rfl) ?_).bind ?_
  · intro s access grant h hquiet
    exact standingKept_deletePolicy h hquiet
  · intro g _ _
    exact (meets_recordOrInternal ..).bind fun _ _ _ => trivial

theorem meets_rotate
    (draws : RekeyDraws) :
    (Acting P F).Meets g (rotate P draws) fun _ _ => True := by
  have hlog : (Acting P F).Meets g (rekeyLog P draws) fun _ _ => True := by
    refine .atomically (keeps_other ?_) fun _ _ _ => trivial
    intro s
    split
    · exact .refl s
    split
    · exact .refl s
    · exact State.grantsKept (.refl s.access) (.refl _)
  refine hlog.bind ?_
  rintro g ⟨keys, next, entries⟩ _
  have hstore : (Acting P F).Meets g (rekeyStore P draws keys next) fun _ _ => True := by
    refine .atomically (keeps_other ?_) fun _ _ _ => trivial
    intro s
    dsimp only
    split
    · exact .refl s
    · rename_i store report hrekey
      exact State.grantsKept_store (tagsKept_rekeyWith hrekey)
  exact hstore.bind fun _ _ _ => trivial

theorem meets_rekey
    (conn : Connection) (draws : RekeyDraws) (env : Env) :
    (Acting P F).Meets g (rekey P F conn draws env) fun _ _ => True := by
  refine (meets_gate conn .rekey none env.gate).bind ?_
  intro g caller _
  refine (meets_rotate draws).bind ?_
  rintro g ⟨next, rewrapped, entries⟩ _
  have hadopt : (Acting P F).Meets g
      (.atomically (E := ApiError) .other fun s : State P =>
        (.ok (), { s with keys := next.keys })) fun _ _ => True :=
    .atomically (keeps_other fun s => State.grantsKept (.refl s.access) (.refl _))
      fun _ _ _ => trivial
  refine hadopt.bind ?_
  intro g _ _
  exact (meets_recordOrInternal ..).bind fun _ _ _ => trivial

theorem meets_backup
    (conn : Connection) (passphrase : String) (draws : BundleDraws) (now : UnixTime)
    (env : Env) :
    (Acting P F).Meets g (backup P F conn passphrase draws now env) fun _ _ => True := by
  refine (meets_gate conn .backup none env.gate).bind ?_
  intro g caller _
  split
  · trivial
  refine (meets_look _).bind ?_
  intro g sealed _
  exact (meets_recordOrInternal ..).bind fun _ _ _ => trivial

theorem meets_restore
    (conn : Connection) (request : RestoreRequest) (draws : RestoreDraws) (env : Env) :
    (Acting P F).Meets g (restore P F conn request draws env) fun _ _ => True := by
  refine (meets_gate conn .restore none env.gate).bind ?_
  intro g caller _
  refine (Discipline.Meets.ofExcept _).bind ?_
  intro g bundle _
  have himport : (Acting P F).Meets g
      (.atomically (.putPolicies (policyNames F bundle.policies)) fun s =>
        importBundle P F s bundle draws) fun _ _ => True := by
    refine .atomically (keeps_disturbing ?_ (fun _ => rfl) ?_) fun _ _ _ => trivial
    · intro grant h
      cases h
    · intro s grant hquiet h
      exact grants_importBundle hquiet h
  refine himport.bind ?_
  intro g _ _
  exact (meets_recordOrInternal ..).bind fun _ _ _ => trivial

end Handlers

/-- A request to one of the two sockets, with what its handler takes from its surroundings. -/
inductive Handler where
  | status (conn : Connection) (env : Env)
  | read (conn : Connection) (request : ReadRequest) (env : Env)
  | write (conn : Connection) (request : WriteRequest) (draws : WriteDraws) (env : Env)
  | list (conn : Connection) (request : ListRequest) (env : Env)
  | versions (conn : Connection) (path : SecretPath) (env : Env)
  | rollback (conn : Connection) (request : RollbackRequest) (now : UnixTime) (env : Env)
  | delete (conn : Connection) (request : DeleteRequest) (now : UnixTime) (env : Env)
  | tagAdd (conn : Connection) (request : TagRequest) (now : UnixTime) (env : Env)
  | tagRemove (conn : Connection) (request : TagRemoveRequest) (now : UnixTime) (env : Env)
  | resolve (conn : Connection) (paths : List SecretPath) (env : ResolveEnv)
  | socket (peer : PeerCredentials) (env : ResolveEnv) (request : ParsedRequest)
  | tokenCreate (conn : Connection) (request : TokenCreateRequest) (draws : IssueDraws)
      (expires now : UnixTime) (env : Env)
  | tokenList (conn : Connection) (env : Env)
  | tokenRevoke (conn : Connection) (lookup : String) (now : UnixTime) (env : Env)
  | policyPut (conn : Connection) (document : String) (now : UnixTime) (env : Env)
  | policyList (conn : Connection) (env : Env)
  | policyDelete (conn : Connection) (name : String) (env : Env)
  | auditVerify (conn : Connection) (env : Env)
  | rekey (conn : Connection) (draws : RekeyDraws) (env : Env)
  | backup (conn : Connection) (passphrase : String) (draws : BundleDraws) (now : UnixTime)
      (env : Env)
  | restore (conn : Connection) (request : RestoreRequest) (draws : RestoreDraws) (env : Env)

section Runs

variable (P : Primitives) (F : Foreign)

/-- What becomes of a handler once it has answered is of no concern here. -/
def answered {α : Type} (code : Code P ApiError α) : Code P Abort Unit :=
  code.mapError .reply >>= fun _ => pure ()

/-- An answer with what is made of the response. -/
def replied {α β : Type} (reply : α → β) (code : Code P ApiError α) : Code P Abort β :=
  code.mapError .reply >>= fun a => pure (reply a)

/-- The code that serves a request. -/
def Handler.code : Handler → Code P Abort Unit
  | .status conn env => answered P (Service.status P F conn env)
  | .read conn request env => answered P (Service.read P F conn request env)
  | .write conn request draws env => answered P (Service.write P F conn request draws env)
  | .list conn request env => answered P (listSecrets P F conn request env)
  | .versions conn path env => answered P (listVersions P F conn path env)
  | .rollback conn request now env => answered P (Service.rollback P F conn request now env)
  | .delete conn request now env => answered P (Service.delete P F conn request now env)
  | .tagAdd conn request now env => answered P (Service.tagAdd P F conn request now env)
  | .tagRemove conn request now env => answered P (Service.tagRemove P F conn request now env)
  | .resolve conn paths env => answered P (Service.resolve P F conn paths env)
  | .socket peer env request => answered P (handle P F peer env request)
  | .tokenCreate conn request draws expires now env =>
      Service.tokenCreate P F conn request draws expires now env >>= fun _ => pure ()
  | .tokenList conn env => answered P (Service.tokenList P F conn env)
  | .tokenRevoke conn lookup now env => answered P (Service.tokenRevoke P F conn lookup now env)
  | .policyPut conn document now env => answered P (Service.policyPut P F conn document now env)
  | .policyList conn env => answered P (Service.policyList P F conn env)
  | .policyDelete conn name env => answered P (Service.policyDelete P F conn name env)
  | .auditVerify conn env => answered P (Service.auditVerify P F conn env)
  | .rekey conn draws env => answered P (Service.rekey P F conn draws env)
  | .backup conn passphrase draws now env =>
      answered P (Service.backup P F conn passphrase draws now env)
  | .restore conn request draws env => answered P (Service.restore P F conn request draws env)

/-- The daemon in a state, about to serve requests. -/
def serving {ι : Type} (s : State P) (requests : ι → Handler) :
    System Label (State P) Abort Unit (Option Grant) ι where
  shared := s
  knows _ := none
  code i := (requests i).code P F

variable {P F}

theorem answered_eq_replied
    {α β : Type} (reply : α → β) (code : Code P ApiError α) :
    answered P code = replied P reply code >>= fun _ => pure () := by
  unfold answered replied
  rw [Script.sequence_assoc]
  rfl

/-- The result of a request that has ended. -/
def ended {A : Type} : Code P Abort A → Option (Except Abort A)
  | .ret result => some result
  | .sect .. => none

theorem ret_of_ended
    {A : Type} {code : Code P Abort A} {result : Except Abort A}
    (h : ended code = some result) :
    code = .ret result := by
  cases code with
  | ret r => exact congrArg Script.ret (Option.some.inj h)
  | sect label f next => cases h

theorem meets_answered
    {α : Type} {g : Option Grant} {code : Code P ApiError α}
    (h : (Acting P F).Meets g code fun _ _ => True) :
    (Acting P F).Meets g (answered P code) fun _ _ => True :=
  h.mapError.bind fun _ _ _ => trivial

/-- Every handler acts on the grant of its own gate only. -/
theorem meets_code
    {g : Option Grant} (handler : Handler) :
    (Acting P F).Meets g (handler.code P F) fun _ _ => True := by
  cases handler with
  | status conn env =>
      exact meets_answered ((meets_gate ..).bind fun _ _ _ => meets_look _)
  | read conn request env => exact meets_answered (meets_read conn request env)
  | write conn request draws env => exact meets_answered (meets_write conn request draws env)
  | list conn request env => exact meets_answered (meets_listSecrets conn request env)
  | versions conn path env => exact meets_answered (meets_listVersions conn path env)
  | rollback conn request now env => exact meets_answered (meets_rollback conn request now env)
  | delete conn request now env => exact meets_answered (meets_delete conn request now env)
  | tagAdd conn request now env => exact meets_answered (meets_tagAdd conn request now env)
  | tagRemove conn request now env => exact meets_answered (meets_tagRemove conn request now env)
  | resolve conn paths env => exact meets_answered (meets_resolve conn paths env)
  | socket peer env request => exact meets_answered (meets_handle peer env request)
  | tokenCreate conn request draws expires now env =>
      exact (meets_tokenCreate conn request draws expires now env).bind fun _ _ _ => trivial
  | tokenList conn env =>
      refine meets_answered ((meets_gate ..).bind fun _ _ _ => ?_)
      exact (meets_look _).bind fun _ _ _ => trivial
  | tokenRevoke conn lookup now env =>
      exact meets_answered (meets_tokenRevoke conn lookup now env)
  | policyPut conn document now env => exact meets_answered (meets_policyPut conn document now env)
  | policyList conn env =>
      exact meets_answered ((meets_gate ..).bind fun _ _ _ => meets_look _)
  | policyDelete conn name env => exact meets_answered (meets_policyDelete conn name env)
  | auditVerify conn env =>
      exact meets_answered ((meets_gate ..).bind fun _ _ _ => meets_look _)
  | rekey conn draws env => exact meets_answered (meets_rekey conn draws env)
  | backup conn passphrase draws now env =>
      exact meets_answered (meets_backup conn passphrase draws now env)
  | restore conn request draws env => exact meets_answered (meets_restore conn request draws env)

/--
Any requests are served in any interleaving of their sections.  As long as no
section takes away what another thread has been granted and not yet used, and
every gate reads a clock that is not behind the revocations on record, a section
that acts on a grant finds it good in the state that it acts on.
-/
theorem grants_of_undisturbed
    {A ι : Type} [DecidableEq ι] {c₀ : System Label (State P) Abort A (Option Grant) ι}
    {schedule : List ι}
    (hknows : ∀ i, c₀.knows i = none)
    (hcode : ∀ i, (Acting P F).Meets none (c₀.code i) fun _ _ => True)
    (hquiet : along (System.step (Acting P F)) (System.Undisturbed (Acting P F)) c₀ schedule)
    {i : ι} {label : Label} {grant : Grant}
    (hlabel : (run (System.step (Acting P F)) c₀ schedule).label? i = some label)
    (hgrant : label.grant? = some grant) :
    (run (System.step (Acting P F)) c₀ schedule).shared.Grants F grant := by
  have hstart : c₀.Sound (Acting P F) := by
    intro i _
    rw [hknows]
    refine ⟨?_, hcode i⟩
    intro grant h
    cases h
  obtain ⟨hvalid, hallowed⟩ := (System.sound_run hquiet hstart).allowed hlabel
  exact hvalid grant (hallowed grant hgrant)

end Runs

section Samples

/-- One request reads a secret, the other one is `request`. -/
def readBeside (request : Handler) (i : Fin 2) : Handler :=
  if i.val = 0 then .read sampleConnection ⟨samplePath, none⟩ (sampleEnv true) else request

def besideWrite : Handler :=
  .write sampleConnection ⟨samplePath, "AQID", [], none⟩
    ⟨sampleUuid 8, sampleTime 100, sampleDraws, sampleTime 100⟩
    (sampleEnv true)

end Samples

end Service
end Secretbae
