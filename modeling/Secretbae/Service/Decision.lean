import Secretbae.Service.Gates
import Secretbae.Daemon.Rekey

/-!
# Authorization against its specification

For a request that names a path, `check` accepts exactly what `PathAuthorized`
describes, and the consequences administrators rely on follow: the order of
policies and rules does not matter, a deny rule cannot be overruled by a
further policy, and taking tags off a secret never lets anyone in.

A request without a path goes through `grants_without_path`, which looks at
grants only.  `deny_all_rejects_iff` says what this means for a policy that
denies everything.
-/

namespace Secretbae
namespace Service

open Lib Proto Core Audit Storage Policies
open Daemon (LookupPrefix PeerCredentials Denied)

/-- `check` lets the request pass. -/
def Accepts (F : Foreign) (store : Store) (access : Access)
    (presented : Except Denied PresentedToken) (peer : PeerCredentials)
    (requested : Requested) (now : UnixTime) : Prop :=
  ∃ caller, check F store access presented peer requested now = .ok caller

/-- What a request for the path `p` must satisfy. -/
def PathAuthorized (F : Foreign) (store : Store) (access : Access) (text : String)
    (peer : PeerCredentials) (route : Route) (p : SecretPath) (now : UnixTime) : Prop :=
  ∃ capability lookup secret row,
    route.requiredCapability = some capability ∧
    IsToken text lookup secret ∧
    row ∈ access.tokens.rows ∧ row.lookupPrefix = lookup ∧
    row.hash = F.sha256 (utf8 secret) ∧
    (∀ t, row.revokedAt = some t → now.seconds < t.seconds) ∧
    (∀ t, row.expiresAt = some t → now.seconds < t.seconds) ∧
    (∀ uid, row.boundUid = some uid → uid = peer.uid) ∧
    (∃ policy rule, HasPolicy F access row.id policy ∧ rule ∈ policy.rules ∧
      capability ∈ rule.capabilities ∧ rule.path.Denotes p ∧
      ∀ t ∈ rule.requireTags, store.Carries p t) ∧
    ∀ policy rule, HasPolicy F access row.id policy → rule ∈ policy.deny →
      ¬ (rule.Covers capability ∧ rule.path.Denotes p)

/-- The policies attached to `id` in the two tables differ at most in the order of rules. -/
def SamePolicies (F : Foreign) (access access' : Access) (id : Uuid) : Prop :=
  (∀ p, HasPolicy F access id p → ∃ q, HasPolicy F access' id q ∧ p.SameRules q) ∧
    ∀ q, HasPolicy F access' id q → ∃ p, HasPolicy F access id p ∧ p.SameRules q

section PathAuthorization

variable {F : Foreign} {store : Store} {access : Access}

theorem presentText_eq_ok_iff
    {text : String} {token : PresentedToken} :
    presentText F text = .ok token ↔
      ∃ secret, IsToken text token.lookupPrefix secret ∧
        token.hash = F.sha256 (utf8 secret) := by
  rw [presentText, mapError_eq_ok]
  exact PresentedToken.parse_eq_ok_iff

theorem permits_iff
    {id : Uuid} {policies : List Policy} {p : SecretPath} {capability : Capability}
    (h : policiesForToken F.policyJson access id = .ok policies) :
    Permits policies ⟨p, capability, storedTags store p⟩ ↔
      (∃ policy rule, HasPolicy F access id policy ∧ rule ∈ policy.rules ∧
        capability ∈ rule.capabilities ∧ rule.path.Denotes p ∧
        ∀ t ∈ rule.requireTags, store.Carries p t) ∧
      ∀ policy rule, HasPolicy F access id policy → rule ∈ policy.deny →
        ¬ (rule.Covers capability ∧ rule.path.Denotes p) := by
  have hmem : ∀ policy, policy ∈ policies ↔ HasPolicy F access id policy :=
    fun policy => mem_policiesForToken h
  constructor
  · rintro ⟨⟨policy, hpolicy, rule, hrule, hcap, hpath, htags⟩, hallowed⟩
    refine ⟨⟨policy, rule, (hmem policy).mp hpolicy, hrule, hcap, hpath, ?_⟩, ?_⟩
    · intro t ht
      exact mem_storedTags.mp (htags t ht)
    · rintro policy rule hpolicy hrule ⟨hcovers, hdenotes⟩
      exact hallowed policy ((hmem policy).mpr hpolicy) rule hrule ⟨hcovers, hdenotes⟩
  · rintro ⟨⟨policy, rule, hpolicy, hrule, hcap, hpath, htags⟩, hallowed⟩
    refine ⟨⟨policy, (hmem policy).mpr hpolicy, rule, hrule, hcap, hpath, ?_⟩, ?_⟩
    · intro t ht
      exact mem_storedTags.mpr (htags t ht)
    · rintro policy hpolicy rule hrule ⟨hcovers, hdenotes⟩
      exact hallowed policy rule ((hmem policy).mp hpolicy) hrule ⟨hcovers, hdenotes⟩

/-- A request with a path passes exactly when it is authorized. -/
theorem accepts_path_iff
    (hdocs : access.Documents F.policyJson)
    {text : String} {peer : PeerCredentials} {route : Route} {p : SecretPath}
    {now : UnixTime} :
    Accepts F store access (presentText F text) peer ⟨route, some p⟩ now ↔
      PathAuthorized F store access text peer route p now := by
  constructor
  · rintro ⟨caller, h⟩
    obtain ⟨capability, token, record, policies, hroute, htoken, hrecord, hhash, husable,
      hpolicies, hgranted, -⟩ := check_eq_ok_iff.mp h
    obtain ⟨secret, htext, htokenHash⟩ := presentText_eq_ok_iff.mp htoken
    obtain ⟨row, hrow, hlead, rfl⟩ := tokenByPrefix_eq_some_iff.mp hrecord
    obtain ⟨hgrant, hallowed⟩ := (permits_iff hpolicies).mp (granted_some_iff.mp hgranted)
    exact ⟨capability, token.lookupPrefix, secret, row, hroute, htext, hrow, hlead,
      hhash.trans htokenHash, husable.notRevoked, husable.notExpired, husable.bound, hgrant,
      hallowed⟩
  · rintro ⟨capability, lookup, secret, row, hroute, htext, hrow, rfl, hhash, hrevoked,
      hexpired, hbound, hgrant, hallowed⟩
    obtain ⟨policies, hpolicies⟩ := hdocs.policiesForToken row.id
    refine ⟨_, check_eq_ok_iff.mpr ⟨capability, ⟨row.lookupPrefix, row.hash⟩, row.record,
      policies, hroute, presentText_eq_ok_iff.mpr ⟨secret, htext, hhash⟩,
      tokenByPrefix_eq_some_iff.mpr ⟨row, hrow, rfl, rfl⟩, rfl,
      ⟨hrevoked, hexpired, hbound⟩, hpolicies, ?_, rfl⟩⟩
    exact granted_some_iff.mpr ((permits_iff hpolicies).mpr ⟨hgrant, hallowed⟩)

/-- Authorization looks at policies only through their rules. -/
theorem PathAuthorized.of_samePolicies
    {access' : Access}
    (htokens : access'.tokens = access.tokens)
    (hsame : ∀ id, SamePolicies F access access' id)
    {text : String} {peer : PeerCredentials} {route : Route} {p : SecretPath}
    {now : UnixTime}
    (h : PathAuthorized F store access text peer route p now) :
    PathAuthorized F store access' text peer route p now := by
  obtain ⟨capability, lookup, secret, row, hroute, htext, hrow, hlead, hhash, hrevoked,
    hexpired, hbound, ⟨policy, rule, hpolicy, hrule, hgrant⟩, hallowed⟩ := h
  obtain ⟨hleft, hright⟩ := hsame row.id
  obtain ⟨q, hq, hpq⟩ := hleft policy hpolicy
  refine ⟨capability, lookup, secret, row, hroute, htext, htokens ▸ hrow, hlead, hhash,
    hrevoked, hexpired, hbound, ⟨q, rule, hq, (hpq.rules rule).mp hrule, hgrant⟩, ?_⟩
  intro q' rule' hq' hrule'
  obtain ⟨p', hp', hpq'⟩ := hright q' hq'
  exact hallowed p' rule' hp' ((hpq'.deny rule').mpr hrule')

theorem SamePolicies.symm
    {access' : Access} {id : Uuid}
    (h : SamePolicies F access access' id) :
    SamePolicies F access' access id := by
  have hsymm : ∀ {p q : Policy}, p.SameRules q → q.SameRules p := by
    intro p q hpq
    exact ⟨fun rule => (hpq.rules rule).symm, fun rule => (hpq.deny rule).symm⟩
  refine ⟨?_, ?_⟩
  · intro q hq
    obtain ⟨p, hp, hpq⟩ := h.2 q hq
    exact ⟨p, hp, hsymm hpq⟩
  · intro p hp
    obtain ⟨q, hq, hpq⟩ := h.1 p hp
    exact ⟨q, hq, hsymm hpq⟩

/-- A token's text determines its lookup prefix. -/
theorem IsToken.lookup_unique
    (F : Foreign) {text : String} {lookup lookup' : LookupPrefix} {secret secret' : String}
    (h : IsToken text lookup secret)
    (h' : IsToken text lookup' secret') :
    lookup = lookup' := by
  have hparse : presentText F text = .ok ⟨lookup, F.sha256 (utf8 secret)⟩ :=
    presentText_eq_ok_iff.mpr ⟨secret, h, rfl⟩
  have hparse' : presentText F text = .ok ⟨lookup', F.sha256 (utf8 secret')⟩ :=
    presentText_eq_ok_iff.mpr ⟨secret', h', rfl⟩
  have heq := hparse.symm.trans hparse'
  simp only [Except.ok.injEq, PresentedToken.mk.injEq] at heq
  exact heq.1

/--
Path-targeted authorization is its specification; it does not depend on the
order of policies and rules, a further policy never overrules a deny rule, and
taking tags off a secret never turns a rejection into an acceptance.
-/
theorem path_authorization
    (F : Foreign) (store : Store) (access : Access)
    (hdocs : access.Documents F.policyJson)
    (text : String) (peer : PeerCredentials) (route : Route) (p : SecretPath)
    (now : UnixTime) :
    (Accepts F store access (presentText F text) peer ⟨route, some p⟩ now ↔
      PathAuthorized F store access text peer route p now) ∧
    (∀ access' : Access, access'.Documents F.policyJson → access'.tokens = access.tokens →
      (∀ id, SamePolicies F access access' id) →
      (Accepts F store access (presentText F text) peer ⟨route, some p⟩ now ↔
        Accepts F store access' (presentText F text) peer ⟨route, some p⟩ now)) ∧
    (∀ access' : Access, access'.Documents F.policyJson → access'.tokens = access.tokens →
      (∀ id policy, HasPolicy F access id policy → HasPolicy F access' id policy) →
      ∀ capability lookup secret row policy rule,
        route.requiredCapability = some capability → IsToken text lookup secret →
        row ∈ access.tokens.rows → row.lookupPrefix = lookup →
        HasPolicy F access row.id policy → rule ∈ policy.deny → rule.Covers capability →
        rule.path.Denotes p →
        ¬ Accepts F store access' (presentText F text) peer ⟨route, some p⟩ now) ∧
    (∀ (q : SecretPath) (selectors : List TagSelector) (at_ : UnixTime) (store' : Store),
      removeTags store q selectors at_ = .ok store' →
      Accepts F store' access (presentText F text) peer ⟨route, some p⟩ now →
      Accepts F store access (presentText F text) peer ⟨route, some p⟩ now) := by
  refine ⟨accepts_path_iff hdocs, ?_, ?_, ?_⟩
  · intro access' hdocs' htokens hsame
    rw [accepts_path_iff hdocs, accepts_path_iff hdocs']
    constructor
    · exact PathAuthorized.of_samePolicies htokens hsame
    · exact PathAuthorized.of_samePolicies htokens.symm fun id => (hsame id).symm
  · intro access' hdocs' htokens hmore capability lookup secret row policy rule hroute htext
      hrow hlead hpolicy hrule hcovers hdenotes haccepts
    obtain ⟨capability', lookup', secret', row', hroute', htext', hrow', hlead', -, -, -, -,
      -, hallowed⟩ := (accepts_path_iff hdocs').mp haccepts
    cases hroute.symm.trans hroute'
    -- the presented token is the one the denying policy is attached to
    have hlookup := IsToken.lookup_unique F htext htext'
    have hmem : row' ∈ access.tokens.rows := htokens ▸ hrow'
    have hsame : row' = row := by
      refine List.inj_on_of_nodup_map access.prefixes hmem hrow ?_
      rw [hlead', hlead, hlookup]
    subst hsame
    exact hallowed policy rule (hmore _ policy hpolicy) hrule ⟨hcovers, hdenotes⟩
  · rintro q selectors at_ store' hremove ⟨caller, hcheck⟩
    obtain ⟨capability, token, record, policies, hroute, htoken, hrecord, hhash, husable,
      hpolicies, hgranted, -⟩ := check_eq_ok_iff.mp hcheck
    refine ⟨_, check_eq_ok_iff.mpr ⟨capability, token, record, policies, hroute, htoken,
      hrecord, hhash, husable, hpolicies, granted_mono ?_ hgranted, rfl⟩⟩
    intro p _ t ht
    exact ((removeTags_carries hremove p t).mp ht).1

end PathAuthorization

section DenyAll

variable {F : Foreign} {store : Store} {access : Access}

/--
A policy that denies everything is obeyed where a path is named, and elsewhere
exactly if no attached policy grants the capability on any path.  A token that
does not authenticate is rejected in any case.
-/
theorem deny_all_rejects_iff
    (hdocs : access.Documents F.policyJson)
    {row : TokenRow} {presented : PresentedToken} {peer : PeerCredentials}
    {requested : Requested} {now : UnixTime} {capability : Capability}
    {policy : Policy} {rule : DenyRule}
    (hrow : row ∈ access.tokens.rows)
    (hlead : presented.lookupPrefix = row.lookupPrefix)
    (hroute : requested.route.requiredCapability = some capability)
    (hpolicy : HasPolicy F access row.id policy)
    (hrule : rule ∈ policy.deny)
    (hall : rule.path.asStr = "**")
    (hcovers : rule.Covers capability) :
    ¬ Accepts F store access (.ok presented) peer requested now ↔
      requested.path ≠ none ∨
        (∀ policy, HasPolicy F access row.id policy → ∀ rule ∈ policy.rules,
          capability ∉ rule.capabilities) ∨
        row.hash ≠ presented.hash ∨ ¬ row.record.Usable peer now := by
  have hrecord : tokenByPrefix access presented.lookupPrefix = some row.record :=
    tokenByPrefix_eq_some_iff.mpr ⟨row, hrow, hlead.symm, rfl⟩
  obtain ⟨policies, hpolicies⟩ := hdocs.policiesForToken row.id
  have hmem : ∀ policy, policy ∈ policies ↔ HasPolicy F access row.id policy :=
    fun policy => mem_policiesForToken hpolicies
  have haccepts : Accepts F store access (.ok presented) peer requested now ↔
      row.hash = presented.hash ∧ row.record.Usable peer now ∧
        granted policies capability store requested.path = true := by
    constructor
    · rintro ⟨caller, h⟩
      obtain ⟨capability', token, record, policies', hroute', htoken, hrecord', hhash, husable,
        hpolicies', hgranted, -⟩ := check_eq_ok_iff.mp h
      cases htoken
      cases hroute.symm.trans hroute'
      cases hrecord.symm.trans hrecord'
      cases hpolicies.symm.trans hpolicies'
      exact ⟨hhash, husable, hgranted⟩
    · rintro ⟨hhash, husable, hgranted⟩
      exact ⟨_, check_eq_ok_iff.mpr ⟨capability, presented, row.record, policies, hroute, rfl,
        hrecord, hhash, husable, hpolicies, hgranted, rfl⟩⟩
  rw [haccepts]
  by_cases hauth : row.hash = presented.hash ∧ row.record.Usable peer now
  swap
  · have hnot : row.hash ≠ presented.hash ∨ ¬ row.record.Usable peer now := by
      by_cases hhash : row.hash = presented.hash
      · exact .inr fun husable => hauth ⟨hhash, husable⟩
      · exact .inl hhash
    refine iff_of_true ?_ (.inr (.inr hnot))
    rintro ⟨hhash, husable, -⟩
    exact hauth ⟨hhash, husable⟩
  obtain ⟨hhash, husable⟩ := hauth
  cases hpath : requested.path with
  | some p =>
      refine iff_of_true ?_ (.inl (by simp))
      rintro ⟨-, -, hgranted⟩
      exact (granted_some_iff.mp hgranted).allowed policy ((hmem policy).mpr hpolicy) rule
        hrule ⟨hcovers, PathPattern.denotes_all hall p⟩
  | none =>
      rw [granted_none_iff]
      constructor
      · intro hreject
        refine .inr (.inl ?_)
        intro policy' hpolicy' rule' hrule' hcap
        exact hreject ⟨hhash, husable, policy', (hmem policy').mpr hpolicy', rule', hrule',
          hcap⟩
      · rintro (hsome | hnone | hne | hunusable)
        · exact absurd rfl hsome
        · rintro ⟨-, -, policy', hpolicy', rule', hrule', hcap⟩
          exact hnone policy' ((hmem policy').mp hpolicy') rule' hrule' hcap
        · rintro ⟨hhash', -, -⟩
          exact hne hhash'
        · rintro ⟨-, husable', -⟩
          exact hunusable husable'

end DenyAll

section Samples

/-- A codec that knows the pairs of a table and agrees there with the real one. -/
def tableEncode {α β : Type} [DecidableEq α] (table : List (α × β)) (default : β) (a : α) : β :=
  match table.find? (fun e => decide (e.1 = a)) with
  | some e => e.2
  | none => default

def tableDecode {α β : Type} [DecidableEq β] (table : List (α × β)) (b : β) : Option α :=
  (table.find? (fun e => decide (e.2 = b))).map Prod.fst

/-- Every capability on every path. -/
def opsPolicy : Policy where
  name := "ops"
  rules := [⟨everyPath, {.read, .write, .delete, .list, .admin}, []⟩]
  deny := []

def opsDocument : String :=
  "\x7b\n  \"name\": \"ops\",\n  \"rules\": [\n    \x7b\n      \"path\": \"**\",\n      \"capabilities\": [\n        \"read\",\n        \"write\",\n        \"delete\",\n        \"list\",\n        \"admin\"\n      ]\n    \x7d\n  ]\n\x7d"

/-- A grant of `list`, and a prohibition of everything. -/
def lockedPolicy : Policy where
  name := "locked"
  rules := [⟨everyPath, {.list}, []⟩]
  deny := [⟨everyPath, none⟩]

def lockedDocument : String :=
  "\x7b\n  \"name\": \"locked\",\n  \"rules\": [\n    \x7b\n      \"path\": \"**\",\n      \"capabilities\": [\n        \"list\"\n      ]\n    \x7d\n  ],\n  \"deny\": [\n    \x7b\n      \"path\": \"**\"\n    \x7d\n  ]\n\x7d"

/-- The functions of other crates, for concrete runs. -/
def sampleForeign : Foreign where
  sha256 := mixDigest 11
  argon2 passphrase salt := some (mixDigest 13 (passphrase ++ salt.toList))
  base64Encode := tableEncode [([1, 2, 3], "AQID")] ""
  base64Decode := tableDecode [([1, 2, 3], "AQID")]
  policyJson :=
    { render := tableEncode [(opsPolicy, opsDocument), (lockedPolicy, lockedDocument)] ""
      parse := fun document =>
        match tableDecode [(opsPolicy, opsDocument), (lockedPolicy, lockedDocument)] document with
        | some policy => .ok policy
        | none => .error "expected value at line 1 column 1" }
  bundleToJson _ := []
  bundleFromJson _ := none
  rfc3339Format _ := none
  rfc3339Parse _ := none

/-- The text of a token, as `token create` shows it. -/
def sampleTokenText : String :=
  "sbae_ABCDEFGH_AAAAAAAAAAAAAAAAAAAAAAAAAAAAAAAAAAAAAAAAAAAAAAAAAAAA"

def sampleLookup : LookupPrefix :=
  Daemon.sampleCaller.tokenPrefix

/-- What is stored of it. -/
def sampleTokenRow : TokenRow where
  id := sampleUuid 1
  lookupPrefix := sampleLookup
  hash := sampleForeign.sha256 (utf8 "AAAAAAAAAAAAAAAAAAAAAAAAAAAAAAAAAAAAAAAAAAAAAAAAAAAA")
  name := "ci"
  boundUid := none
  createdAt := sampleTime 50
  expiresAt := none
  revokedAt := none
  lastUsedAt := none

/-- One token with one policy. -/
def sampleAccess (policy : Policy) (document : String) : Access where
  tokens := ⟨[sampleTokenRow], List.nodup_singleton _⟩
  prefixes := List.nodup_singleton _
  policies := ⟨[⟨1, policy.name, document, sampleTime 50⟩], List.nodup_singleton _⟩
  policyNames := List.nodup_singleton _
  tokenPolicies := ⟨[⟨sampleUuid 1, 1⟩], List.nodup_singleton _⟩
  tokenPolicyRefs := by
    intro r hr
    obtain rfl := List.mem_singleton.mp hr
    exact ⟨⟨sampleTokenRow, List.mem_singleton_self _, rfl⟩, _, List.mem_singleton_self _, rfl⟩

theorem documents_sampleAccess
    {policy : Policy} {document : String}
    (h : Policy.fromJson sampleForeign.policyJson document = .ok policy) :
    (sampleAccess policy document).Documents sampleForeign.policyJson := by
  intro p hp
  obtain rfl := List.mem_singleton.mp hp
  exact ⟨policy, h, rfl⟩

theorem hasPolicy_sampleAccess
    {policy : Policy} {document : String}
    (h : Policy.fromJson sampleForeign.policyJson document = .ok policy) :
    HasPolicy sampleForeign (sampleAccess policy document) (sampleUuid 1) policy :=
  ⟨_, ⟨List.mem_singleton_self _, _, List.mem_singleton_self _, rfl, rfl⟩, h⟩

def samplePresented : PresentedToken :=
  ⟨sampleLookup, sampleTokenRow.hash⟩

end Samples

section Witnesses

/-- A token with every capability reads a path that does not exist yet. -/
theorem path_authorization_sample :
    PathAuthorized sampleForeign Store.empty (sampleAccess opsPolicy opsDocument)
      sampleTokenText ⟨0, 1⟩ .write samplePath (sampleTime 100) := by
  refine (path_authorization sampleForeign Store.empty (sampleAccess opsPolicy opsDocument)
    (documents_sampleAccess (by decide +kernel)) sampleTokenText ⟨0, 1⟩ .write samplePath
    (sampleTime 100)).1.mp ?_
  exact exists_of_isOk (by decide +kernel)

/-- On a route with a path, the prohibition is obeyed. -/
theorem deny_all_rejects_versions :
    ¬ Accepts sampleForeign Store.empty (sampleAccess lockedPolicy lockedDocument)
      (.ok samplePresented) ⟨0, 1⟩ ⟨.versions, some samplePath⟩ (sampleTime 100) := by
  have hparse : Policy.fromJson sampleForeign.policyJson lockedDocument = .ok lockedPolicy := by
    decide +kernel
  refine (deny_all_rejects_iff (documents_sampleAccess hparse) (List.mem_singleton_self _) rfl
    rfl (hasPolicy_sampleAccess hparse) (List.mem_singleton_self _) rfl ?_).mpr (.inl (by simp))
  intro capabilities h
  cases h

/-- The same token may ask for the status of the daemon. -/
theorem deny_all_passes_status :
    (∃ policy rule, HasPolicy sampleForeign (sampleAccess lockedPolicy lockedDocument)
        sampleTokenRow.id policy ∧ rule ∈ policy.deny ∧ rule.path.asStr = "**" ∧
        rule.Covers .list) ∧
      Route.status.requiredCapability = some .list ∧
      Accepts sampleForeign Store.empty (sampleAccess lockedPolicy lockedDocument)
        (presentText sampleForeign sampleTokenText) ⟨0, 1⟩ ⟨.status, none⟩
        (sampleTime 100) := by
  have hparse : Policy.fromJson sampleForeign.policyJson lockedDocument = .ok lockedPolicy := by
    decide +kernel
  refine ⟨⟨lockedPolicy, _, hasPolicy_sampleAccess hparse, List.mem_singleton_self _, rfl, ?_⟩,
    rfl, exists_of_isOk (by decide +kernel)⟩
  intro capabilities h
  cases h

end Witnesses

end Service
end Secretbae
