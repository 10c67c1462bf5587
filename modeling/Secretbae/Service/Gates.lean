import Secretbae.Service.State
import Secretbae.Store.TagSets

/-!
# What the gates decide

`check_eq_ok_iff` says what `check` asks for, step by step; the results about
authorization start from it.  The gates read of a token everything but its last
use, so a request that has passed one may be asked again (`check_congr`).
-/

namespace Secretbae
namespace Service

open Lib Proto Core Audit Storage Policies
open Daemon (KeyMaterial Database LookupPrefix PeerCredentials AuthFailure Denied ApiError
  denialEntry)

/-- A policy is attached to the token with this id. -/
def HasPolicy (F : Foreign) (access : Access) (id : Uuid) (policy : Policy) : Prop :=
  ∃ p, access.Attached id p ∧ Policy.fromJson F.policyJson p.document = .ok policy

section Check

variable {F : Foreign} {store : Store} {access : Access}

theorem mem_storedTags
    {path : SecretPath} {tag : Tag} :
    tag ∈ storedTags store path ↔ store.Carries path tag := by
  unfold storedTags Store.Carries
  cases h : store.secretByPath path with
  | none =>
      rw [tags_eq_error h]
      simp
  | some s =>
      rw [tags_eq_ok h]
      simp

/-- Everything that `check` asks for. -/
theorem check_eq_ok_iff
    {presented : Except Denied PresentedToken} {peer : PeerCredentials}
    {requested : Requested} {now : UnixTime} {caller : Authenticated} :
    check F store access presented peer requested now = .ok caller ↔
      ∃ capability token record policies,
        requested.route.requiredCapability = some capability ∧
        presented = .ok token ∧
        tokenByPrefix access token.lookupPrefix = some record ∧
        record.hash = token.hash ∧ record.Usable peer now ∧
        policiesForToken F.policyJson access record.id = .ok policies ∧
        granted policies capability store requested.path = true ∧
        caller = ⟨record.id, record.lookupPrefix, peer⟩ := by
  unfold check
  constructor
  · intro h
    split at h
    · cases h
    rename_i capability hroute
    obtain ⟨token, htoken, h⟩ := bind_eq_ok.mp h
    split at h
    · cases h
    rename_i record hrecord
    obtain ⟨id, hid, h⟩ := bind_eq_ok.mp h
    obtain ⟨policies, hpolicies, h⟩ := bind_eq_ok.mp h
    obtain ⟨rfl, hhash, husable⟩ := authenticate_eq_ok_iff.mp (mapError_eq_ok.mp hid)
    split at h
    · rename_i hgranted
      cases h
      exact ⟨capability, token, record, policies, hroute, htoken, hrecord, hhash, husable,
        mapError_eq_ok.mp hpolicies, hgranted, rfl⟩
    · cases h
  · rintro ⟨capability, token, record, policies, hroute, rfl, hrecord, hhash, husable,
      hpolicies, hgranted, rfl⟩
    have hauth := authenticate_eq_ok_iff.mpr ⟨rfl, hhash, husable⟩
    simp only [hroute, hrecord, hauth, hpolicies, hgranted, bind, Except.bind, Except.mapError,
      if_true]

/-- A path is granted exactly when the policies permit it. -/
theorem granted_some_iff
    {policies : List Policy} {capability : Capability} {path : SecretPath} :
    granted policies capability store (some path) = true ↔
      Permits policies ⟨path, capability, storedTags store path⟩ :=
  evaluate_isAllowed_iff

/-- Without a path a rule that names the capability is enough. -/
theorem granted_none_iff
    {policies : List Policy} {capability : Capability} :
    granted policies capability store none = true ↔
      ∃ policy ∈ policies, ∃ rule ∈ policy.rules, capability ∈ rule.capabilities := by
  simp only [granted, grantsWithoutPath, List.any_eq_true, List.mem_flatMap,
    decide_eq_true_eq]
  constructor
  · rintro ⟨rule, ⟨policy, hpolicy, hrule⟩, hcap⟩
    exact ⟨policy, hpolicy, rule, hrule, hcap⟩
  · rintro ⟨policy, hpolicy, rule, hrule, hcap⟩
    exact ⟨rule, ⟨policy, hpolicy, hrule⟩, hcap⟩

/-- More tags never make a granted request refused. -/
theorem granted_mono
    {store' : Store} {policies : List Policy} {capability : Capability}
    {path : Option SecretPath}
    (htags : ∀ p, path = some p → ∀ t, store.Carries p t → store'.Carries p t)
    (h : granted policies capability store path = true) :
    granted policies capability store' path = true := by
  cases path with
  | none =>
      exact h
  | some p =>
      refine granted_some_iff.mpr ((granted_some_iff.mp h).mono_tags ?_)
      intro t ht
      exact mem_storedTags.mpr (htags p rfl t (mem_storedTags.mp ht))

/-- The gates do not look at the last use of a token. -/
theorem check_congr
    {access' : Access}
    (h : access.SameExceptUse access')
    (presented : Except Denied PresentedToken) (peer : PeerCredentials)
    (requested : Requested) (now : UnixTime) :
    check F store access' presented peer requested now =
      check F store access presented peer requested now := by
  unfold check
  simp only [h.tokenByPrefix_eq, h.policiesForToken_eq]

end Check

section Authorize

variable {P : Primitives} {F : Foreign}

@[simp] theorem State.append_keys
    (s : State P) (writable : Bool) (entry : AuditEntry) :
    (s.append P writable entry).2.keys = s.keys := by
  unfold State.append
  split
  · split <;> rfl
  · rfl

@[simp] theorem State.append_store
    (s : State P) (writable : Bool) (entry : AuditEntry) :
    (s.append P writable entry).2.db.store = s.db.store := by
  unfold State.append
  split
  · split <;> rfl
  · rfl

@[simp] theorem State.append_access
    (s : State P) (writable : Bool) (entry : AuditEntry) :
    (s.append P writable entry).2.access = s.access := by
  unfold State.append
  split
  · split <;> rfl
  · rfl

@[simp] theorem State.touch_keys
    (s : State P) (id : Uuid) (now : UnixTime) :
    (s.touch P id now).keys = s.keys := by
  rfl

@[simp] theorem State.touch_db
    (s : State P) (id : Uuid) (now : UnixTime) :
    (s.touch P id now).db = s.db := by
  rfl

/-- A run of `authorize` without company: the decision, and what it leaves behind. -/
theorem authorize_alone
    (presented : Except Denied PresentedToken) (peer : PeerCredentials)
    (requested : Requested) (env : GateEnv) (s : State P) :
    (authorize P F presented peer requested env).alone s =
      match check F s.db.store s.access presented peer requested env.checked with
      | .ok caller => (.ok caller, s.touch P caller.tokenId env.touched)
      | .error denied =>
          (.error denied,
            (s.append P env.writable
              (denialEntry env.denied.seconds peer requested.path denied)).2) := by
  unfold authorize
  simp only [Script.alone, id_eq]
  cases check F s.db.store s.access presented peer requested env.checked <;> rfl

/-- A run of `gate` without company. -/
theorem gate_alone
    (conn : Connection) (route : Route) (path : Option SecretPath) (env : GateEnv)
    (s : State P) :
    (gate P F conn route path env).alone s =
      match check F s.db.store s.access (extractToken F conn.header) conn.peer ⟨route, path⟩
          env.checked with
      | .ok caller => (.ok caller, s.touch P caller.tokenId env.touched)
      | .error denied =>
          (.error .denied,
            (s.append P env.writable
              (denialEntry env.denied.seconds conn.peer path denied)).2) := by
  unfold gate
  rw [Script.alone_mapError, authorize_alone]
  dsimp only
  cases check F s.db.store s.access (extractToken F conn.header) conn.peer ⟨route, path⟩
    env.checked <;> rfl

/-- The states differ at most in the last use of tokens. -/
structure State.Used (s s' : State P) : Prop where
  keys : s'.keys = s.keys
  backend : s'.backend = s.backend
  db : s'.db = s.db
  access : s.access.SameExceptUse s'.access

theorem State.Used.refl
    (s : State P) :
    s.Used s :=
  ⟨rfl, rfl, rfl, .refl _⟩

theorem State.Used.trans
    {s s' s'' : State P}
    (h : s.Used s')
    (h' : s'.Used s'') :
    s.Used s'' :=
  ⟨h'.keys.trans h.keys, h'.backend.trans h.backend, h'.db.trans h.db,
    h.access.trans h'.access⟩

theorem State.used_touch
    (s : State P) (id : Uuid) (now : UnixTime) :
    s.Used (s.touch P id now) :=
  ⟨rfl, rfl, rfl, touchToken_sameExceptUse _ _ _⟩

/-- After uses of tokens the gates decide as before. -/
theorem State.Used.check_eq
    {s s' : State P}
    (h : s.Used s')
    (presented : Except Denied PresentedToken) (peer : PeerCredentials)
    (requested : Requested) (now : UnixTime) :
    check F s'.db.store s'.access presented peer requested now =
      check F s.db.store s.access presented peer requested now := by
  rw [h.db, check_congr h.access]

/-- An append either writes its one entry or leaves everything as it was. -/
theorem State.append_cases
    (s : State P) (writable : Bool) (entry : AuditEntry) :
    (∃ log record, writable = true ∧
        Audit.append P s.db.log s.keys.auditKey entry = .ok (log, record) ∧
        s.append P writable entry = (.ok (), { s with db := { s.db with log := log } })) ∨
      ∃ e, s.append P writable entry = (.error e, s) := by
  unfold State.append
  cases writable with
  | false =>
      exact .inr ⟨_, rfl⟩
  | true =>
      cases h : Audit.append P s.db.log s.keys.auditKey entry with
      | error e => exact .inr ⟨e, by simp⟩
      | ok result => exact .inl ⟨result.1, result.2, rfl, rfl, by simp⟩

end Authorize

end Service
end Secretbae
