import Secretbae.Store.TokenRuns
import Secretbae.Policy.Json

/-!
# The policies of a token over whole runs

A token is given policies by name when it is created, and the tables keep row
ids: a link from a token to a policy survives a new document under the same
name, goes with the policy when that is deleted, and must not come back when a
later policy takes a freed row id.

`Ledger` says what the tables are for, without rows or ids: the policy last put
under each name, and the names each token still has.  `Ledger.describes_run`
shows that every run keeps the tables in step with it.
-/

namespace Secretbae
namespace Storage

open Lib Core Policies
open Daemon (LookupPrefix)

section Creation

variable {acc acc' : Access}

theorem Access.policyByName_eq_none_iff
    {name : String} :
    acc.policyByName name = none ↔ name ∉ acc.policies.rows.map PolicyRow.name := by
  simp [Access.policyByName, List.find?_eq_none]

theorem Access.insertToken_isOk
    {row : TokenRow}
    (h : ∀ r ∈ acc.tokens.rows, r.id ≠ row.id ∧ r.lookupPrefix ≠ row.lookupPrefix) :
    ∃ acc', acc.insertToken row = .ok acc' := by
  obtain ⟨tokens, hins⟩ := Table.insert_ne_none fun r hr => (h r hr).1
  have hlead : row.lookupPrefix ∉ acc.tokens.rows.map TokenRow.lookupPrefix := by
    intro hmem
    obtain ⟨r, hr, heq⟩ := List.mem_map.mp hmem
    exact (h r hr).2 heq
  unfold Access.insertToken
  split
  · rename_i hnone
    cases hins.symm.trans hnone
  · rw [dif_neg hlead]
    exact ⟨_, rfl⟩

/-- A link between rows that are there fails only when it is there already. -/
theorem Access.insertTokenPolicy_isOk_iff
    {row : TokenPolicyRow}
    (htoken : ∃ t ∈ acc.tokens.rows, t.id = row.tokenId)
    (hpolicy : ∃ p ∈ acc.policies.rows, p.id = row.policyId) :
    (∃ acc', acc.insertTokenPolicy row = .ok acc') ↔ row ∉ acc.tokenPolicies.rows := by
  constructor
  · rintro ⟨acc', h⟩ hmem
    unfold Access.insertTokenPolicy at h
    split at h
    · cases h
    · rename_i links hins
      exact (Table.insert_eq_some hins).1 row hmem rfl
  · intro hmem
    have hfresh : ∀ l ∈ acc.tokenPolicies.rows, id l ≠ id row := by
      rintro l hl rfl
      exact hmem hl
    obtain ⟨links, hins⟩ := Table.insert_ne_none hfresh
    unfold Access.insertTokenPolicy
    split
    · rename_i hnone
      cases hins.symm.trans hnone
    · rw [dif_pos ⟨htoken, hpolicy⟩]
      exact ⟨_, rfl⟩

/-- The links that the loop of `create_token` adds. -/
theorem attachPolicies_links
    {id : Uuid} {names : List String}
    (h : attachPolicies id acc names = .ok acc') (l : TokenPolicyRow) :
    l ∈ acc'.tokenPolicies.rows ↔
      l ∈ acc.tokenPolicies.rows ∨
        ∃ p ∈ acc.policies.rows, p.name ∈ names ∧ l = ⟨id, p.id⟩ := by
  induction names generalizing acc with
  | nil =>
      cases h
      simp
  | cons name names ih =>
      unfold attachPolicies at h
      split at h
      · cases h
      rename_i p hp
      obtain ⟨hmem, hname⟩ := Access.policyByName_eq_some_iff.mp hp
      obtain ⟨mid, hmid, h⟩ := bind_eq_ok.mp h
      obtain ⟨-, hpolicies, hlinks⟩ := Access.insertTokenPolicy_eq_ok hmid
      rw [ih h, hpolicies, hlinks, List.mem_append, List.mem_singleton, or_assoc]
      refine or_congr_right ?_
      constructor
      · rintro (rfl | ⟨q, hq, hqname, rfl⟩)
        · exact ⟨p, hmem, by simp [hname], rfl⟩
        · exact ⟨q, hq, by simp [hqname], rfl⟩
      · rintro ⟨q, hq, hqname, rfl⟩
        rcases List.mem_cons.mp hqname with heq | hqname
        · have hrow := List.inj_on_of_nodup_map acc.policyNames hq hmem (heq.trans hname.symm)
          rw [hrow]
          exact .inl rfl
        · exact .inr ⟨q, hq, hqname, rfl⟩

/-- The loop succeeds when each name is stored, is new and is named once. -/
theorem attachPolicies_isOk_iff
    {id : Uuid} {names : List String}
    (htoken : ∃ t ∈ acc.tokens.rows, t.id = id) :
    (∃ acc', attachPolicies id acc names = .ok acc') ↔
      names.Nodup ∧ (∀ name ∈ names, name ∈ acc.policies.rows.map PolicyRow.name) ∧
        ∀ p ∈ acc.policies.rows, p.name ∈ names → ⟨id, p.id⟩ ∉ acc.tokenPolicies.rows := by
  induction names generalizing acc with
  | nil =>
      exact iff_of_true ⟨acc, rfl⟩ (by simp)
  | cons name names ih =>
      unfold attachPolicies
      split
      · rename_i hnone
        refine iff_of_false ?_ ?_
        · rintro ⟨acc', h⟩
          cases h
        · rintro ⟨-, hstored, -⟩
          exact Access.policyByName_eq_none_iff.mp hnone (hstored name List.mem_cons_self)
      rename_i p hp
      obtain ⟨hmem, hname⟩ := Access.policyByName_eq_some_iff.mp hp
      have hinsert : (∃ acc', acc.insertTokenPolicy ⟨id, p.id⟩ = .ok acc') ↔
          ⟨id, p.id⟩ ∉ acc.tokenPolicies.rows :=
        Access.insertTokenPolicy_isOk_iff htoken ⟨p, hmem, rfl⟩
      constructor
      · rintro ⟨acc', h⟩
        obtain ⟨mid, hmid, h⟩ := bind_eq_ok.mp h
        obtain ⟨htokens, hpolicies, hlinks⟩ := Access.insertTokenPolicy_eq_ok hmid
        obtain ⟨hnodup, hstored, hfresh⟩ := (ih (by rw [htokens]; exact htoken)).mp ⟨acc', h⟩
        rw [hpolicies] at hstored hfresh
        simp only [hlinks, List.mem_append, List.mem_singleton, not_or] at hfresh
        refine ⟨List.nodup_cons.mpr ⟨?_, hnodup⟩, ?_, ?_⟩
        · intro hin
          exact (hfresh p hmem (by rwa [hname])).2 rfl
        · intro n hn
          rcases List.mem_cons.mp hn with rfl | hn
          · exact List.mem_map.mpr ⟨p, hmem, hname⟩
          · exact hstored n hn
        · intro q hq hqname
          rcases List.mem_cons.mp hqname with heq | hqname
          · have hrow := List.inj_on_of_nodup_map acc.policyNames hq hmem (heq.trans hname.symm)
            rw [hrow]
            exact hinsert.mp ⟨mid, hmid⟩
          · exact (hfresh q hq hqname).1
      · rintro ⟨hnodup, hstored, hfresh⟩
        obtain ⟨hnotin, hnodup⟩ := List.nodup_cons.mp hnodup
        obtain ⟨mid, hmid⟩ := hinsert.mpr (hfresh p hmem (by simp [hname]))
        obtain ⟨htokens, hpolicies, hlinks⟩ := Access.insertTokenPolicy_eq_ok hmid
        have hfresh' : ∀ q ∈ mid.policies.rows, q.name ∈ names →
            ⟨id, q.id⟩ ∉ mid.tokenPolicies.rows := by
          rw [hpolicies, hlinks]
          intro q hq hqname hlink
          rcases List.mem_append.mp hlink with hlink | hlink
          · exact hfresh q hq (List.mem_cons_of_mem _ hqname) hlink
          · cases acc.policies.eq_of_key_eq hq hmem (by simpa using hlink)
            exact hnotin (by rwa [← hname])
        have hstored' : ∀ n ∈ names, n ∈ mid.policies.rows.map PolicyRow.name := by
          rw [hpolicies]
          intro n hn
          exact hstored n (List.mem_cons_of_mem _ hn)
        have htoken' : ∃ t ∈ mid.tokens.rows, t.id = id := by
          rw [htokens]
          exact htoken
        obtain ⟨acc', h⟩ := (ih htoken').mpr ⟨hnodup, hstored', hfresh'⟩
        exact ⟨acc', bind_eq_ok.mpr ⟨mid, hmid, h⟩⟩

/-- When `create_token` succeeds. -/
theorem createToken_isOk_iff
    {token : NewToken} {now : UnixTime} :
    (∃ acc', createToken acc token now = .ok acc') ↔
      (∀ r ∈ acc.tokens.rows, r.id ≠ token.id ∧ r.lookupPrefix ≠ token.lookupPrefix) ∧
        (∀ name ∈ token.policies, name ∈ acc.policies.rows.map PolicyRow.name) ∧
        token.policies.Nodup := by
  have hmiddle (mid : Access) (hmid : acc.insertToken (token.row now) = .ok mid) :
      (∃ acc', attachPolicies token.id mid token.policies = .ok acc') ↔
        (∀ name ∈ token.policies, name ∈ acc.policies.rows.map PolicyRow.name) ∧
          token.policies.Nodup := by
    obtain ⟨hfresh, hrows, hpolicies, hlinks⟩ := Access.insertToken_eq_ok hmid
    have htoken : ∃ t ∈ mid.tokens.rows, t.id = token.id := by
      rw [hrows]
      exact ⟨token.row now, by simp, rfl⟩
    rw [attachPolicies_isOk_iff htoken, hpolicies, hlinks]
    constructor
    · rintro ⟨hnodup, hstored, -⟩
      exact ⟨hstored, hnodup⟩
    · rintro ⟨hstored, hnodup⟩
      refine ⟨hnodup, hstored, ?_⟩
      -- a link refers to a token, and there was none with this id
      intro p hp _ hlink
      obtain ⟨⟨r, hr, hid⟩, -⟩ := acc.tokenPolicyRefs _ hlink
      exact (hfresh r hr).1 hid
  constructor
  · rintro ⟨acc', h⟩
    obtain ⟨mid, hmid, h⟩ := bind_eq_ok.mp h
    exact ⟨(Access.insertToken_eq_ok hmid).1, (hmiddle mid hmid).mp ⟨acc', h⟩⟩
  · rintro ⟨hfresh, hnames⟩
    have hinsert : ∃ mid, acc.insertToken (token.row now) = .ok mid :=
      Access.insertToken_isOk hfresh
    obtain ⟨mid, hmid⟩ := hinsert
    obtain ⟨acc', h⟩ := (hmiddle mid hmid).mpr hnames
    exact ⟨acc', bind_eq_ok.mpr ⟨mid, hmid, h⟩⟩

end Creation

/-- What the tables are for: the policy last put under each name, the names each token has
been given and not lost since, and the ids and prefixes that are in use. -/
structure Ledger where
  policies : String → Option Policy
  granted : Uuid → List String
  ids : List Uuid
  lookups : List LookupPrefix

namespace Ledger

def empty : Ledger where
  policies _ := none
  granted _ := []
  ids := []
  lookups := []

/-- A token may be created: its id and prefix are new, and it names stored policies, each
of them once. -/
def Admits (l : Ledger) (token : NewToken) : Prop :=
  (token.id ∉ l.ids ∧ token.lookupPrefix ∉ l.lookups) ∧
    (∀ name ∈ token.policies, (l.policies name).isSome = true) ∧ token.policies.Nodup

instance (l : Ledger) (token : NewToken) : Decidable (l.Admits token) :=
  inferInstanceAs (Decidable (_ ∧ _ ∧ _))

def create (l : Ledger) (token : NewToken) : Ledger :=
  { l with
    granted := Function.update l.granted token.id token.policies
    ids := token.id :: l.ids
    lookups := token.lookupPrefix :: l.lookups }

def put (l : Ledger) (policy : Policy) : Ledger :=
  { l with policies := Function.update l.policies policy.name (some policy) }

/-- A policy that is there is not replaced. -/
def ensure (l : Ledger) (policy : Policy) : Ledger :=
  if (l.policies policy.name).isSome then l else l.put policy

/-- Nobody keeps a policy that is deleted. -/
def delete (l : Ledger) (name : String) : Ledger :=
  { l with
    policies := Function.update l.policies name none
    granted := fun id => (l.granted id).filter fun n => decide (n ≠ name) }

theorem put_policies (l : Ledger) (policy : Policy) :
    (l.put policy).policies = Function.update l.policies policy.name (some policy) :=
  rfl

theorem delete_policies (l : Ledger) (name : String) :
    (l.delete name).policies = Function.update l.policies name none :=
  rfl

theorem create_granted (l : Ledger) (token : NewToken) :
    (l.create token).granted = Function.update l.granted token.id token.policies :=
  rfl

def step (l : Ledger) : AccessOp → Ledger
  | .createToken token _ => if l.Admits token then l.create token else l
  | .touchToken _ _ => l
  | .revokeToken _ _ => l
  | .putPolicy policy _ => l.put policy
  | .ensurePolicyExists policy _ => l.ensure policy
  | .deletePolicy name => l.delete name
  | .restart _ => l.ensure unrestrictedPolicy

/-- The tables hold what the ledger says. -/
structure Describes (J : PolicyJson) (l : Ledger) (acc : Access) : Prop where
  ids : ∀ id, id ∈ l.ids ↔ id ∈ acc.tokens.rows.map TokenRow.id
  lookups : ∀ lookup, lookup ∈ l.lookups ↔ lookup ∈ acc.tokens.rows.map TokenRow.lookupPrefix
  stored :
    ∀ name, (l.policies name).isSome = true ↔ name ∈ acc.policies.rows.map PolicyRow.name
  documents :
    ∀ p ∈ acc.policies.rows, ∀ policy, l.policies p.name = some policy →
      policy.name = p.name ∧ p.document = policy.toJson J ∧ policy.Rereads J
  distinct : ∀ id, (l.granted id).Nodup
  present : ∀ id, ∀ name ∈ l.granted id, (l.policies name).isSome = true
  links : ∀ id, ∀ p ∈ acc.policies.rows, acc.Attached id p ↔ p.name ∈ l.granted id

section Steps

variable {J : PolicyJson} {l : Ledger} {acc acc' : Access}

theorem describes_empty :
    empty.Describes J Access.empty := by
  refine ⟨?_, ?_, ?_, ?_, ?_, ?_, ?_⟩ <;> simp [empty, Access.empty, Table.empty]

/-- Only the keys of the tokens matter. -/
theorem Describes.of_map
    (h : l.Describes J acc)
    {f : TokenRow → TokenRow}
    (hf : ∀ r, (f r).id = r.id ∧ (f r).lookupPrefix = r.lookupPrefix)
    (hrows : acc'.tokens.rows = acc.tokens.rows.map f)
    (hpolicies : acc'.policies = acc.policies)
    (hlinks : acc'.tokenPolicies = acc.tokenPolicies) :
    l.Describes J acc' := by
  refine ⟨?_, ?_, ?_, ?_, h.distinct, h.present, ?_⟩
  · intro id
    rw [h.ids, hrows]
    simp [hf]
  · intro lookup
    rw [h.lookups, hrows]
    simp [hf]
  · rw [hpolicies]
    exact h.stored
  · rw [hpolicies]
    exact h.documents
  · unfold Access.Attached
    rw [hpolicies, hlinks]
    exact h.links

/-- A name without a policy is not among those of a token. -/
theorem Describes.notMem_granted
    (h : l.Describes J acc)
    {name : String}
    (hname : name ∉ acc.policies.rows.map PolicyRow.name) (id : Uuid) :
    name ∉ l.granted id := by
  intro hmem
  exact hname ((h.stored name).mp (h.present id name hmem))

theorem Describes.put
    (h : l.Describes J acc)
    {policy : Policy} {now : UnixTime}
    (hpolicy : policy.Rereads J)
    (hput : putPolicy J acc policy now = .ok acc') :
    (l.put policy).Describes J acc' := by
  obtain ⟨htokens, hlinks, hrows⟩ := putPolicy_eq_ok hput
  refine ⟨?_, ?_, ?_, ?_, h.distinct, ?_, ?_⟩
  · rw [htokens]
    exact h.ids
  · rw [htokens]
    exact h.lookups
  · intro name
    rw [putPolicy_names hput, ← h.stored]
    by_cases hname : name = policy.name
    · subst hname
      simp [Ledger.put]
    · simp [Ledger.put, hname]
  · intro p hp policy' hsome
    rcases (hrows p).mp hp with ⟨hold, hname⟩ | ⟨hname, hdocument, -⟩
    · rw [put_policies, Function.update_of_ne hname] at hsome
      exact h.documents p hold policy' hsome
    · rw [put_policies, hname, Function.update_self] at hsome
      cases hsome
      exact ⟨hname.symm, hdocument, hpolicy⟩
  · intro id name hname
    by_cases heq : name = policy.name
    · subst heq
      simp [Ledger.put]
    · rw [put_policies, Function.update_of_ne heq]
      exact h.present id name hname
  · intro id p hp
    have hattached : acc'.Attached id p ↔
        ∃ l ∈ acc.tokenPolicies.rows, l.tokenId = id ∧ l.policyId = p.id := by
      unfold Access.Attached
      rw [hlinks]
      exact and_iff_right hp
    rw [hattached]
    rcases (hrows p).mp hp with ⟨hold, -⟩ | ⟨hname, -, ⟨q, hq, hqname, hid, -⟩ | ⟨hfresh, hid, -⟩⟩
    · rw [← show acc.Attached id p ↔ _ from and_iff_right hold]
      exact h.links id p hold
    · -- a new document keeps the row id, and with it the links
      rw [hid, ← show acc.Attached id q ↔ _ from and_iff_right hq, h.links id q hq, hqname, hname]
      rfl
    · -- no link leads to a row id that was not in use
      refine iff_of_false ?_ ?_
      · rintro ⟨link, hlink, -, hlid⟩
        obtain ⟨-, q, hq, hqid⟩ := acc.tokenPolicyRefs link hlink
        have hlt := Access.lt_nextPolicyId hq
        omega
      · rw [hname]
        exact h.notMem_granted hfresh id

theorem Describes.ensure
    (h : l.Describes J acc)
    {policy : Policy} {now : UnixTime}
    (hpolicy : policy.Rereads J)
    (hensure : ensurePolicyExists J acc policy now = .ok acc') :
    (l.ensure policy).Describes J acc' := by
  unfold Ledger.ensure
  by_cases hname : policy.name ∈ acc.policies.rows.map PolicyRow.name
  · rw [ensurePolicyExists, dif_pos hname] at hensure
    cases hensure
    rw [if_pos ((h.stored policy.name).mpr hname)]
    exact h
  · rw [ensurePolicyExists, dif_neg hname] at hensure
    rw [if_neg (fun hsome => hname ((h.stored policy.name).mp hsome))]
    have hput : putPolicy J acc policy now = .ok acc' := by
      rw [putPolicy, dif_neg hname]
      exact hensure
    exact h.put hpolicy hput

/-- Deleting a name that is not there changes nothing. -/
theorem Describes.delete_absent
    (h : l.Describes J acc)
    {name : String}
    (hname : name ∉ acc.policies.rows.map PolicyRow.name) :
    l.delete name = l := by
  have hpolicies : Function.update l.policies name none = l.policies := by
    refine Function.update_eq_self_iff.mpr ?_
    by_contra hsome
    exact hname ((h.stored name).mp (Option.isSome_iff_ne_none.mpr (Ne.symm hsome)))
  have hgranted : (fun id => (l.granted id).filter fun n => decide (n ≠ name)) = l.granted := by
    funext id
    refine List.filter_eq_self.mpr ?_
    intro n hn
    refine decide_eq_true ?_
    rintro rfl
    exact h.notMem_granted hname id hn
  unfold Ledger.delete
  rw [hpolicies, hgranted]

theorem Describes.delete
    (h : l.Describes J acc) (name : String) :
    (l.delete name).Describes J (acc.dropPolicy name) := by
  have hkept : ∀ p, p ∈ (acc.dropPolicy name).policies.rows ↔
      p ∈ acc.policies.rows ∧ p.name ≠ name := by
    intro p
    simp [Access.dropPolicy]
  refine ⟨h.ids, h.lookups, ?_, ?_, ?_, ?_, ?_⟩
  · intro n
    by_cases hn : n = name
    · subst hn
      simp [Ledger.delete, List.mem_map, hkept]
    · rw [delete_policies, Function.update_of_ne hn, h.stored]
      simp only [List.mem_map, hkept]
      constructor
      · rintro ⟨p, hp, rfl⟩
        exact ⟨p, ⟨hp, hn⟩, rfl⟩
      · rintro ⟨p, ⟨hp, -⟩, rfl⟩
        exact ⟨p, hp, rfl⟩
  · intro p hp policy hsome
    obtain ⟨hmem, hname⟩ := (hkept p).mp hp
    rw [delete_policies, Function.update_of_ne hname] at hsome
    exact h.documents p hmem policy hsome
  · intro id
    exact (h.distinct id).filter _
  · intro id n hn
    obtain ⟨hmem, hne⟩ := List.mem_filter.mp hn
    rw [delete_policies, Function.update_of_ne (of_decide_eq_true hne)]
    exact h.present id n hmem
  · intro id p hp
    obtain ⟨hmem, hname⟩ := (hkept p).mp hp
    have hgranted : p.name ∈ (l.delete name).granted id ↔ p.name ∈ l.granted id := by
      simp [Ledger.delete, hname]
    rw [hgranted, ← h.links id p hmem]
    constructor
    · rintro ⟨-, link, hlink, hid⟩
      exact ⟨hmem, link, (Table.mem_keep.mp hlink).1, hid⟩
    · rintro ⟨-, link, hlink, hlid, hpid⟩
      refine ⟨hp, link, Table.mem_keep.mpr ⟨hlink, ?_⟩, hlid, hpid⟩
      exact List.any_eq_true.mpr ⟨p, hmem, decide_eq_true ⟨hname, hpid.symm⟩⟩

/-- A token is created exactly when the ledger admits it. -/
theorem Describes.admits_iff
    (h : l.Describes J acc) (token : NewToken) (now : UnixTime) :
    l.Admits token ↔ ∃ acc', createToken acc token now = .ok acc' := by
  rw [createToken_isOk_iff, Ledger.Admits, h.ids, h.lookups]
  simp only [h.stored]
  refine and_congr_left' ?_
  simp only [List.mem_map, not_exists, not_and]
  constructor
  · rintro ⟨hids, hlookups⟩ r hr
    exact ⟨hids r hr, hlookups r hr⟩
  · intro hfresh
    exact ⟨fun r hr => (hfresh r hr).1, fun r hr => (hfresh r hr).2⟩

/-- A created token is attached to the policies it names. -/
theorem attached_created
    {token : NewToken} {now : UnixTime} {p : PolicyRow}
    (hcreate : createToken acc token now = .ok acc')
    (hp : p ∈ acc.policies.rows) :
    acc'.Attached token.id p ↔ p.name ∈ token.policies := by
  obtain ⟨hfresh, -, hpolicies, -⟩ := createToken_eq_ok hcreate
  obtain ⟨mid, hmid, hattach⟩ := bind_eq_ok.mp hcreate
  obtain ⟨-, -, hmidPolicies, hmidLinks⟩ := Access.insertToken_eq_ok hmid
  have hlinks := attachPolicies_links hattach
  rw [hmidPolicies, hmidLinks] at hlinks
  unfold Access.Attached
  rw [hpolicies]
  constructor
  · rintro ⟨-, link, hlink, hlid, hpid⟩
    rcases (hlinks link).mp hlink with hold | ⟨q, hq, hqname, rfl⟩
    · -- no link can be older than its token
      obtain ⟨⟨r, hr, hrid⟩, -⟩ := acc.tokenPolicyRefs link hold
      exact absurd (hrid.trans hlid) (hfresh r hr).1
    · rwa [acc.policies.eq_of_key_eq hp hq hpid.symm]
  · intro hname
    exact ⟨hp, _, (hlinks _).mpr (.inr ⟨p, hp, hname, rfl⟩), rfl, rfl⟩

/-- Other tokens stay attached to what they were. -/
theorem attached_other
    {token : NewToken} {now : UnixTime} {id : Uuid} {p : PolicyRow}
    (hcreate : createToken acc token now = .ok acc')
    (hid : id ≠ token.id) :
    acc'.Attached id p ↔ acc.Attached id p := by
  obtain ⟨-, -, hpolicies, hothers⟩ := createToken_eq_ok hcreate
  unfold Access.Attached
  rw [hpolicies]
  refine and_congr_right fun _ => ?_
  constructor
  · rintro ⟨link, hlink, rfl, hpid⟩
    exact ⟨link, (hothers link hid).mp hlink, rfl, hpid⟩
  · rintro ⟨link, hlink, rfl, hpid⟩
    exact ⟨link, (hothers link hid).mpr hlink, rfl, hpid⟩

theorem Describes.create
    (h : l.Describes J acc)
    {token : NewToken} {now : UnixTime}
    (hcreate : createToken acc token now = .ok acc') :
    (l.create token).Describes J acc' := by
  obtain ⟨-, hnames, hnodup⟩ := createToken_isOk_iff.mp ⟨acc', hcreate⟩
  obtain ⟨-, hrows, hpolicies, -⟩ := createToken_eq_ok hcreate
  refine ⟨?_, ?_, ?_, ?_, ?_, ?_, ?_⟩
  · intro id
    rw [hrows, Ledger.create, List.mem_cons, h.ids]
    simp [NewToken.row, or_comm]
  · intro lookup
    rw [hrows, Ledger.create, List.mem_cons, h.lookups]
    simp [NewToken.row, or_comm]
  · rw [hpolicies]
    exact h.stored
  · rw [hpolicies]
    exact h.documents
  · intro id
    by_cases hid : id = token.id
    · subst hid
      rw [create_granted, Function.update_self]
      exact hnodup
    · rw [create_granted, Function.update_of_ne hid]
      exact h.distinct id
  · intro id name hname
    by_cases hid : id = token.id
    · subst hid
      rw [create_granted, Function.update_self] at hname
      exact (h.stored name).mpr (hnames name hname)
    · rw [create_granted, Function.update_of_ne hid] at hname
      exact h.present id name hname
  · intro id p hp
    rw [hpolicies] at hp
    by_cases hid : id = token.id
    · subst hid
      rw [create_granted, Function.update_self]
      exact attached_created hcreate hp
    · rw [create_granted, Function.update_of_ne hid, ← h.links id p hp]
      exact attached_other hcreate hid

/-- Every operation keeps the tables in step with the ledger. -/
theorem describes_step
    {op : AccessOp}
    (hop : op.Rereads J)
    (h : l.Describes J acc) :
    (l.step op).Describes J (op.step J acc) := by
  cases op with
  | createToken token now =>
      have hadmits := h.admits_iff token now
      unfold AccessOp.step Ledger.step
      dsimp only
      cases hcreate : createToken acc token now with
      | error e =>
          rw [if_neg (by simp [hadmits, hcreate])]
          exact h
      | ok acc' =>
          rw [if_pos (hadmits.mpr ⟨acc', hcreate⟩)]
          exact h.create hcreate
  | touchToken id now =>
      exact h.of_map (TokenRow.touch_keys id now) rfl rfl rfl
  | revokeToken lookup now =>
      refine Access.settle_elim (p := fun acc => l.Describes J acc) h ?_
      intro acc' hok
      obtain ⟨-, hrows, hpolicies, hlinks⟩ := revokeToken_eq_ok hok
      exact h.of_map (TokenRow.revoke_keys lookup now) hrows hpolicies hlinks
  | putPolicy policy now =>
      obtain ⟨acc', hput⟩ := putPolicy_isOk J acc policy now
      simp only [AccessOp.step, hput]
      exact h.put hop hput
  | ensurePolicyExists policy now =>
      obtain ⟨acc', hensure⟩ := ensurePolicyExists_isOk J acc policy now
      simp only [AccessOp.step, hensure]
      exact h.ensure hop hensure
  | deletePolicy name =>
      unfold AccessOp.step Ledger.step deletePolicy
      dsimp only
      split
      · exact h.delete name
      · rename_i hname
        rw [h.delete_absent hname]
        exact h
  | restart now =>
      obtain ⟨acc', hensure⟩ := ensurePolicyExists_isOk J acc unrestrictedPolicy now
      simp only [AccessOp.step, seedBuiltinPolicies, hensure]
      exact h.ensure hop hensure

/-- Every run keeps the tables in step with the ledger. -/
theorem describes_run
    {ops : List AccessOp}
    (hops : ∀ op ∈ ops, op.Rereads J)
    (h : l.Describes J acc) :
    (run step l ops).Describes J (run (AccessOp.step J) acc ops) := by
  induction ops generalizing l acc with
  | nil =>
      exact h
  | cons op ops ih =>
      rw [run_cons, run_cons]
      refine ih ?_ (describes_step (hops op (by simp)) h)
      intro op' hop'
      exact hops op' (by simp [hop'])

end Steps

section Reading

variable {J : PolicyJson} {l : Ledger} {acc : Access}

theorem nameLe_trans
    (a b c : String)
    (hab : nameLe a b = true)
    (hbc : nameLe b c = true) :
    nameLe a c = true :=
  decide_eq_true (List.le_trans (of_decide_eq_true hab) (of_decide_eq_true hbc))

theorem nameLe_total
    (a b : String) :
    (nameLe a b || nameLe b a) = true := by
  rcases List.le_total (utf8 a) (utf8 b) with hle | hle <;> simp [nameLe, hle]

/-- The names of the attached rows are those the ledger grants, in order. -/
theorem Describes.policyNames_eq
    (h : l.Describes J acc) (id : Uuid) :
    policyNamesForToken acc id = (l.granted id).mergeSort nameLe := by
  have hsorted : (acc.attachedRows id).Pairwise fun a b => nameLe a.name b.name = true :=
    List.pairwise_mergeSort (fun a b c => nameLe_trans a.name b.name c.name)
      (fun a b => nameLe_total a.name b.name) _
  have hperm := List.mergeSort_perm (acc.policies.rows.filter fun p =>
    acc.tokenPolicies.rows.any fun l => decide (l.tokenId = id ∧ l.policyId = p.id))
    fun a b => nameLe a.name b.name
  have hnodup : ((acc.attachedRows id).map PolicyRow.name).Nodup :=
    (hperm.map PolicyRow.name).nodup_iff.mpr
      (acc.policyNames.sublist (List.filter_sublist.map PolicyRow.name))
  have hmem : ∀ name, name ∈ (acc.attachedRows id).map PolicyRow.name ↔
      name ∈ (l.granted id).mergeSort nameLe := by
    intro name
    rw [List.mem_mergeSort]
    constructor
    · intro hname
      obtain ⟨p, hp, rfl⟩ := List.mem_map.mp hname
      have hattached := Access.mem_attachedRows.mp hp
      exact (h.links id p hattached.1).mp hattached
    · intro hname
      obtain ⟨p, hp, rfl⟩ := List.mem_map.mp ((h.stored name).mp (h.present id name hname))
      exact List.mem_map_of_mem (Access.mem_attachedRows.mpr ((h.links id p hp).mpr hname))
  refine eq_of_pairwise_of_mem (List.pairwise_map.mpr hsorted)
    (List.pairwise_mergeSort nameLe_trans nameLe_total _) hnodup
    ((List.mergeSort_perm _ _).nodup_iff.mpr (h.distinct id)) hmem ?_
  intro a _ b _ hab hba
  exact utf8_inj (List.le_antisymm (of_decide_eq_true hab) (of_decide_eq_true hba))

/-- The policies of a token are those the ledger has under the names it grants. -/
theorem Describes.policiesForToken_eq_ok
    (h : l.Describes J acc) (id : Uuid) :
    ∃ policies, policiesForToken J acc id = .ok policies ∧
      policies.map some = ((l.granted id).mergeSort nameLe).map l.policies ∧
      policies.map Policy.name = policyNamesForToken acc id := by
  have hrow : ∀ p ∈ acc.attachedRows id, ∃ policy,
      Policy.fromJson J p.document = .ok policy ∧ some policy = l.policies p.name ∧
        policy.name = p.name := by
    intro p hp
    obtain ⟨hmem, -⟩ := Access.mem_attachedRows.mp hp
    have hsome := (h.stored p.name).mpr (List.mem_map_of_mem hmem)
    obtain ⟨policy, hpolicy⟩ := Option.isSome_iff_exists.mp hsome
    obtain ⟨hname, hdocument, hrereads⟩ := h.documents p hmem policy hpolicy
    refine ⟨policy, ?_, hpolicy.symm, hname⟩
    rw [hdocument]
    exact hrereads
  obtain ⟨policies, hall⟩ := exists_forall₂ hrow
  refine ⟨policies, mapM_of_forall₂ (hall.imp fun _ _ hp => hp.1), ?_, ?_⟩
  · rw [← h.policyNames_eq, policyNamesForToken, List.map_map]
    exact forall₂_map_eq (fun p policy hp => hp.2.1) hall
  · exact forall₂_map_eq (fun p policy hp => hp.2.2) hall

end Reading

section Loss

variable {l : Ledger} {id : Uuid}

/-- No step gives an existing token a name, and a deletion takes the name away. -/
theorem granted_step
    (hid : id ∈ l.ids) (name : String) (op : AccessOp) :
    id ∈ (l.step op).ids ∧
      (name ∈ (l.step op).granted id → name ∈ l.granted id ∧ op ≠ .deletePolicy name) := by
  have hensure (policy : Policy) : (l.ensure policy).ids = l.ids ∧
      (l.ensure policy).granted = l.granted := by
    unfold Ledger.ensure
    split <;> exact ⟨rfl, rfl⟩
  cases op with
  | createToken token now =>
      unfold Ledger.step
      dsimp only
      split
      · rename_i hadmits
        have hne : id ≠ token.id := by
          rintro rfl
          exact hadmits.1.1 hid
        rw [create_granted, Function.update_of_ne hne]
        exact ⟨List.mem_cons_of_mem _ hid, fun hname => ⟨hname, by simp⟩⟩
      · exact ⟨hid, fun hname => ⟨hname, by simp⟩⟩
  | touchToken id now => exact ⟨hid, fun hname => ⟨hname, by simp⟩⟩
  | revokeToken lookup now => exact ⟨hid, fun hname => ⟨hname, by simp⟩⟩
  | putPolicy policy now => exact ⟨hid, fun hname => ⟨hname, by simp⟩⟩
  | ensurePolicyExists policy now =>
      rw [Ledger.step, (hensure policy).1, (hensure policy).2]
      exact ⟨hid, fun hname => ⟨hname, by simp⟩⟩
  | deletePolicy deleted =>
      refine ⟨hid, ?_⟩
      intro hname
      obtain ⟨hmem, hne⟩ := List.mem_filter.mp hname
      refine ⟨hmem, ?_⟩
      intro heq
      cases heq
      exact of_decide_eq_true hne rfl
  | restart now =>
      rw [Ledger.step, (hensure unrestrictedPolicy).1, (hensure unrestrictedPolicy).2]
      exact ⟨hid, fun hname => ⟨hname, by simp⟩⟩

/-- What a token has later it had before, and it has not been deleted in between. -/
theorem granted_run
    {name : String}
    (hid : id ∈ l.ids) (later : List AccessOp)
    (hname : name ∈ (run step l later).granted id) :
    name ∈ l.granted id ∧ .deletePolicy name ∉ later := by
  induction later generalizing l with
  | nil =>
      exact ⟨hname, List.not_mem_nil⟩
  | cons op later ih =>
      obtain ⟨hid', hstep⟩ := granted_step hid name op
      obtain ⟨hmem, hlater⟩ := ih hid' hname
      obtain ⟨hbefore, hop⟩ := hstep hmem
      refine ⟨hbefore, ?_⟩
      rw [List.mem_cons, not_or]
      exact ⟨Ne.symm hop, hlater⟩

end Loss

end Ledger

section Runs

/-- The text of every policy that an operation stores is read back. -/
def AccessOp.Lossless (text : JsonText) : AccessOp → Prop
  | .putPolicy policy _ => policy.Lossless text
  | .ensurePolicyExists policy _ => policy.Lossless text
  | .restart _ => unrestrictedPolicy.Lossless text
  | _ => True

theorem AccessOp.Lossless.rereads
    {text : JsonText} {op : AccessOp}
    (h : op.Lossless text) :
    op.Rereads text.policies := by
  cases op with
  | putPolicy policy now => exact Policy.rereads_of_lossless h
  | ensurePolicyExists policy now => exact Policy.rereads_of_lossless h
  | restart now => exact Policy.rereads_of_lossless h
  | createToken token now => trivial
  | touchToken id now => trivial
  | revokeToken lookup now => trivial
  | deletePolicy name => trivial

/-- The tables after a run from a fresh database. -/
def accessAfter (text : JsonText) (ops : List AccessOp) : Access :=
  run (AccessOp.step text.policies) Access.empty ops

/-- What a run from a fresh database has granted. -/
def ledgerAfter (ops : List AccessOp) : Ledger :=
  run Ledger.step Ledger.empty ops

theorem describes_after
    {text : JsonText} {ops : List AccessOp}
    (hops : ∀ op ∈ ops, op.Lossless text) :
    (ledgerAfter ops).Describes text.policies (accessAfter text ops) :=
  Ledger.describes_run (fun op hop => (hops op hop).rereads) Ledger.describes_empty

/-- After every run, a token has the policies it was given by name and that were not deleted
since, as last put and in order of name; nothing that is created later reaches it, and a
token that names a missing or a repeated policy is not created. -/
theorem attachments_run
    {text : JsonText} {ops : List AccessOp}
    (hops : ∀ op ∈ ops, op.Lossless text) :
    (∀ id, ∃ policies, policiesForToken text.policies (accessAfter text ops) id = .ok policies ∧
      policies.map some =
        (((ledgerAfter ops).granted id).mergeSort nameLe).map (ledgerAfter ops).policies) ∧
    (∀ before later id, ops = before ++ later →
      id ∈ (accessAfter text before).tokens.rows.map TokenRow.id →
      ∀ policies, policiesForToken text.policies (accessAfter text ops) id = .ok policies →
      ∀ policy ∈ policies, policy.name ∈ policyNamesForToken (accessAfter text before) id ∧
        .deletePolicy policy.name ∉ later) ∧
    ∀ token now,
      ((∃ name ∈ token.policies, name ∉ listPolicyNames (accessAfter text ops)) ∨
        ¬ token.policies.Nodup) →
      (∃ e, createToken (accessAfter text ops) token now = .error e) ∧
        (AccessOp.createToken token now).step text.policies (accessAfter text ops) =
          accessAfter text ops := by
  have hdescribes := describes_after hops
  refine ⟨?_, ?_, ?_⟩
  · intro id
    obtain ⟨policies, hok, hledger, -⟩ := hdescribes.policiesForToken_eq_ok id
    exact ⟨policies, hok, hledger⟩
  · rintro before later id rfl hid policies hok policy hpolicy
    obtain ⟨policies', hok', -, hnames⟩ := hdescribes.policiesForToken_eq_ok id
    cases hok.symm.trans hok'
    have hbefore := describes_after fun op hop => hops op (List.mem_append_left _ hop)
    have hgranted : policy.name ∈ (ledgerAfter (before ++ later)).granted id := by
      have hmem := List.mem_map_of_mem (f := Policy.name) hpolicy
      rwa [hnames, hdescribes.policyNames_eq, List.mem_mergeSort] at hmem
    have hsplit : ledgerAfter (before ++ later) = run Ledger.step (ledgerAfter before) later :=
      List.foldl_append
    rw [hsplit] at hgranted
    obtain ⟨hmem, hdeleted⟩ := Ledger.granted_run ((hbefore.ids id).mpr hid) later hgranted
    refine ⟨?_, hdeleted⟩
    rw [hbefore.policyNames_eq, List.mem_mergeSort]
    exact hmem
  · intro token now hbad
    have hnot : ¬ ∃ acc', createToken (accessAfter text ops) token now = .ok acc' := by
      rw [createToken_isOk_iff]
      rintro ⟨-, hstored, hnodup⟩
      rcases hbad with ⟨name, hname, hmissing⟩ | hrepeated
      · refine hmissing ?_
        rw [listPolicyNames, Access.policiesByName]
        have hrows := List.mergeSort_perm (accessAfter text ops).policies.rows
          fun a b => nameLe a.name b.name
        exact (hrows.map PolicyRow.name).mem_iff.mpr (hstored name hname)
      · exact hrepeated hnodup
    cases hcreate : createToken (accessAfter text ops) token now with
    | ok acc' => exact absurd ⟨acc', hcreate⟩ hnot
    | error e =>
        refine ⟨⟨e, rfl⟩, ?_⟩
        rw [AccessOp.step, hcreate]
        rfl

/-- A prohibition of everything. -/
def barredPolicy : Policy where
  name := "barred"
  rules := []
  deny := [⟨everyPath, none⟩]

/-- A prohibition of nothing. -/
def idlePolicy : Policy where
  name := "idle"
  rules := []
  deny := [⟨everyPath, some ∅⟩]

def barredText : String :=
  "\x7b\n  \"name\": \"barred\",\n  \"deny\": [\n    \x7b\n      \"path\": \"**\"\n    " ++
    "\x7d\n  ]\n\x7d"

def idleText : String :=
  "\x7b\n  \"name\": \"idle\",\n  \"deny\": [\n    \x7b\n      \"path\": \"**\",\n      " ++
    "\"capabilities\": []\n    \x7d\n  ]\n\x7d"

/-- The text of these two policies. -/
def sampleText : JsonText where
  render v :=
    if Policy.deserialize v = some barredPolicy then barredText
    else if Policy.deserialize v = some idlePolicy then idleText
    else ""
  parse document :=
    if document = barredText then some barredPolicy.serialize
    else if document = idleText then some idlePolicy.serialize
    else none
  complaint _ := "expected value at line 1 column 1"

theorem lossless_barredPolicy :
    barredPolicy.Lossless sampleText := by
  simp [Policy.Lossless, sampleText, Policy.deserialize_serialize]

theorem lossless_idlePolicy :
    idlePolicy.Lossless sampleText := by
  have hpolicy : idlePolicy ≠ barredPolicy := by decide
  have htext : idleText ≠ barredText := by decide
  simp [Policy.Lossless, sampleText, Policy.deserialize_serialize, hpolicy, htext]

def sampleGrantee : NewToken where
  id := sampleUuid 1
  lookupPrefix := ⟨"BCDEFGHI", by decide, by decide⟩
  hash := List.Vector.replicate 32 0
  name := "ci"
  boundUid := none
  expiresAt := none
  policies := ["idle", "barred"]

/-- Two policies, a token with both, and one of them deleted and put again. -/
def sampleAttachments : List AccessOp :=
  [.putPolicy idlePolicy ⟨50, by decide⟩, .putPolicy barredPolicy ⟨51, by decide⟩,
    .createToken sampleGrantee ⟨52, by decide⟩, .deletePolicy "barred",
    .putPolicy barredPolicy ⟨53, by decide⟩]

theorem attachments_run_sample :
    (∀ op ∈ sampleAttachments, op.Lossless sampleText) ∧
      policiesForToken sampleText.policies (accessAfter sampleText sampleAttachments)
        (sampleUuid 1) = .ok [idlePolicy] := by
  have hops : ∀ op ∈ sampleAttachments, op.Lossless sampleText := by
    intro op hop
    simp only [sampleAttachments, List.mem_cons, List.not_mem_nil, or_false] at hop
    rcases hop with rfl | rfl | rfl | rfl | rfl
    · exact lossless_idlePolicy
    · exact lossless_barredPolicy
    · trivial
    · trivial
    · exact lossless_barredPolicy
  refine ⟨hops, ?_⟩
  have hgranted : (ledgerAfter sampleAttachments).granted (sampleUuid 1) = ["idle"] ∧
      (ledgerAfter sampleAttachments).policies "idle" = some idlePolicy := by
    decide +kernel
  obtain ⟨policies, hok, hpolicies⟩ := (attachments_run hops).1 (sampleUuid 1)
  rw [hgranted.1, List.mergeSort_singleton, List.map_singleton, hgranted.2] at hpolicies
  have heq : policies = [idlePolicy] :=
    List.map_injective_iff.mpr (Option.some_injective _) hpolicies
  rw [hok, heq]

end Runs

end Storage
end Secretbae
