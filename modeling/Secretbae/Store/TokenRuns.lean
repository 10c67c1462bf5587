import Secretbae.Store.Tokens
import Secretbae.Lib.Runs

/-!
# Runs of token and policy operations

Every operation on tokens and policies, with what it does to the tables, and
two facts about every run of them: stored documents stay policies
(`documents_run`), and a recorded revocation time stays as it is
(`revokedAt_run`).
-/

namespace Secretbae
namespace Storage

open Lib Core Policies
open Daemon (LookupPrefix)

/-- `unrestricted_policy`. -/
def unrestrictedPolicy : Policy where
  name := "unrestricted"
  rules := [⟨everyPath, {.read, .write, .delete, .list}, []⟩]
  deny := []

/-- `seed_builtin_policies`, which every start of the daemon runs. -/
def seedBuiltinPolicies (J : PolicyJson) (acc : Access) (now : UnixTime) :
    Except StoreError Access :=
  ensurePolicyExists J acc unrestrictedPolicy now

/-- The operations on tokens and policies. -/
inductive AccessOp where
  | createToken (token : NewToken) (now : UnixTime)
  | touchToken (id : Uuid) (now : UnixTime)
  | revokeToken (lookup : LookupPrefix) (now : UnixTime)
  | putPolicy (policy : Policy) (now : UnixTime)
  | ensurePolicyExists (policy : Policy) (now : UnixTime)
  | deletePolicy (name : String)
  | restart (now : UnixTime)

/-- The tables after a statement, or as before where it fails. -/
def Access.settle (acc : Access) : Except StoreError Access → Access
  | .ok acc' => acc'
  | .error _ => acc

/-- The tables after an operation, successful or not. -/
def AccessOp.step (J : PolicyJson) (acc : Access) : AccessOp → Access
  | .createToken token now => acc.settle (Storage.createToken acc token now)
  | .touchToken id now => Storage.touchToken acc id now
  | .revokeToken lookup now => acc.settle (Storage.revokeToken acc lookup now)
  | .putPolicy policy now => acc.settle (Storage.putPolicy J acc policy now)
  | .ensurePolicyExists policy now => acc.settle (Storage.ensurePolicyExists J acc policy now)
  | .deletePolicy name => acc.settle (Storage.deletePolicy acc name)
  | .restart now => acc.settle (seedBuiltinPolicies J acc now)

section Specs

variable {J : PolicyJson} {acc acc' : Access}

/-- A fact about an operation that succeeds is one about the tables after it. -/
theorem Access.settle_elim
    {p : Access → Prop} {result : Except StoreError Access}
    (h : p acc)
    (hok : ∀ acc', result = .ok acc' → p acc') :
    p (acc.settle result) := by
  cases result with
  | error e => exact h
  | ok acc' => exact hok acc' rfl

theorem Access.insertToken_eq_ok
    {row : TokenRow}
    (h : acc.insertToken row = .ok acc') :
    (∀ r ∈ acc.tokens.rows, r.id ≠ row.id ∧ r.lookupPrefix ≠ row.lookupPrefix) ∧
      acc'.tokens.rows = acc.tokens.rows ++ [row] ∧ acc'.policies = acc.policies ∧
      acc'.tokenPolicies = acc.tokenPolicies := by
  unfold Access.insertToken at h
  split at h
  · cases h
  rename_i tokens hins
  split at h
  · cases h
  rename_i hlead
  cases h
  obtain ⟨hid, hrows⟩ := Table.insert_eq_some hins
  refine ⟨?_, hrows, rfl, rfl⟩
  intro r hr
  refine ⟨hid r hr, ?_⟩
  intro heq
  exact hlead (List.mem_map.mpr ⟨r, hr, heq⟩)

theorem Access.insertTokenPolicy_eq_ok
    {row : TokenPolicyRow}
    (h : acc.insertTokenPolicy row = .ok acc') :
    acc'.tokens = acc.tokens ∧ acc'.policies = acc.policies ∧
      acc'.tokenPolicies.rows = acc.tokenPolicies.rows ++ [row] := by
  unfold Access.insertTokenPolicy at h
  split at h
  · cases h
  rename_i links hins
  split at h
  · cases h
    exact ⟨rfl, rfl, (Table.insert_eq_some hins).2⟩
  · cases h

/-- The loop of `create_token` only adds links of the new token. -/
theorem attachPolicies_eq_ok
    {id : Uuid} {names : List String}
    (h : attachPolicies id acc names = .ok acc') :
    acc'.tokens = acc.tokens ∧ acc'.policies = acc.policies ∧
      ∀ l : TokenPolicyRow, l.tokenId ≠ id →
        (l ∈ acc'.tokenPolicies.rows ↔ l ∈ acc.tokenPolicies.rows) := by
  induction names generalizing acc with
  | nil =>
      cases h
      exact ⟨rfl, rfl, fun _ _ => Iff.rfl⟩
  | cons name names ih =>
      unfold attachPolicies at h
      split at h
      · cases h
      rename_i p _
      obtain ⟨mid, hmid, h⟩ := bind_eq_ok.mp h
      obtain ⟨htokens, hpolicies, hlinks⟩ := Access.insertTokenPolicy_eq_ok hmid
      obtain ⟨htokens', hpolicies', hlinks'⟩ := ih h
      refine ⟨htokens'.trans htokens, hpolicies'.trans hpolicies, ?_⟩
      intro l hl
      rw [hlinks' l hl, hlinks, List.mem_append, List.mem_singleton]
      refine or_iff_left ?_
      rintro rfl
      exact hl rfl

/-- Everything a successful `create_token` does. -/
theorem createToken_eq_ok
    {token : NewToken} {now : UnixTime}
    (h : createToken acc token now = .ok acc') :
    (∀ r ∈ acc.tokens.rows, r.id ≠ token.id ∧ r.lookupPrefix ≠ token.lookupPrefix) ∧
      acc'.tokens.rows = acc.tokens.rows ++ [token.row now] ∧
      acc'.policies = acc.policies ∧
      ∀ l : TokenPolicyRow, l.tokenId ≠ token.id →
        (l ∈ acc'.tokenPolicies.rows ↔ l ∈ acc.tokenPolicies.rows) := by
  obtain ⟨mid, hmid, h⟩ := bind_eq_ok.mp h
  obtain ⟨hfresh, hrows, hpolicies, hlinks⟩ := Access.insertToken_eq_ok hmid
  obtain ⟨htokens', hpolicies', hlinks'⟩ := attachPolicies_eq_ok h
  refine ⟨hfresh, by rw [htokens', hrows], hpolicies'.trans hpolicies, ?_⟩
  intro l hl
  rw [hlinks' l hl, hlinks]

theorem TokenRow.touch_keys
    (id : Uuid) (now : UnixTime) (r : TokenRow) :
    (r.touch id now).id = r.id ∧ (r.touch id now).lookupPrefix = r.lookupPrefix := by
  unfold TokenRow.touch
  split <;> exact ⟨rfl, rfl⟩

theorem TokenRow.revoke_keys
    (lookup : LookupPrefix) (now : UnixTime) (r : TokenRow) :
    (r.revoke lookup now).id = r.id ∧ (r.revoke lookup now).lookupPrefix = r.lookupPrefix := by
  unfold TokenRow.revoke
  split <;> exact ⟨rfl, rfl⟩

theorem revokeToken_eq_ok
    {lookup : LookupPrefix} {now : UnixTime}
    (h : revokeToken acc lookup now = .ok acc') :
    (∃ r ∈ acc.tokens.rows, r.lookupPrefix = lookup) ∧
      acc'.tokens.rows = acc.tokens.rows.map (TokenRow.revoke lookup now) ∧
      acc'.policies = acc.policies ∧ acc'.tokenPolicies = acc.tokenPolicies := by
  unfold revokeToken at h
  dsimp only at h
  split at h
  · cases h
  rename_i hfound
  cases h
  refine ⟨?_, rfl, rfl, rfl⟩
  by_contra hnone
  refine hfound ⟨?_, ?_⟩
  · rw [List.countP_eq_zero]
    intro r hr hdec
    exact hnone ⟨r, hr, (of_decide_eq_true hdec).1⟩
  · cases hrecord : tokenByPrefix acc lookup with
    | none => rfl
    | some record =>
        obtain ⟨r, hr, hlookup, -⟩ := tokenByPrefix_eq_some_iff.mp hrecord
        exact absurd ⟨r, hr, hlookup⟩ hnone

theorem Access.insertPolicy_eq_ok
    {name document : String} {now : UnixTime}
    {hname : name ∉ acc.policies.rows.map PolicyRow.name}
    (h : acc.insertPolicy name document now hname = .ok acc') :
    acc'.tokens = acc.tokens ∧ acc'.tokenPolicies = acc.tokenPolicies ∧
      acc'.policies.rows =
        acc.policies.rows ++ [⟨acc.nextPolicyId, name, document, now⟩] := by
  unfold Access.insertPolicy at h
  split at h
  · cases h
  rename_i policies hins
  cases h
  exact ⟨rfl, rfl, (Table.insert_eq_some hins).2⟩

/-- The next row id is not in use. -/
theorem Access.lt_nextPolicyId
    {p : PolicyRow}
    (hp : p ∈ acc.policies.rows) :
    p.id < acc.nextPolicyId := by
  have hle := (le_foldl_max (acc.policies.rows.map PolicyRow.id) 0).2 p.id
    (List.mem_map_of_mem hp)
  unfold Access.nextPolicyId
  omega

theorem Access.insertPolicy_isOk
    (acc : Access) {name : String} (document : String) (now : UnixTime)
    (hname : name ∉ acc.policies.rows.map PolicyRow.name) :
    ∃ acc', acc.insertPolicy name document now hname = .ok acc' := by
  have hfresh : ∀ p ∈ acc.policies.rows,
      p.id ≠ (⟨acc.nextPolicyId, name, document, now⟩ : PolicyRow).id :=
    fun p hp => (Access.lt_nextPolicyId hp).ne
  obtain ⟨policies, hins⟩ := Table.insert_ne_none hfresh
  unfold Access.insertPolicy
  split
  · rename_i hnone
    rw [hins] at hnone
    cases hnone
  · exact ⟨_, rfl⟩

/-- Putting a policy always succeeds. -/
theorem putPolicy_isOk
    (J : PolicyJson) (acc : Access) (policy : Policy) (now : UnixTime) :
    ∃ acc', putPolicy J acc policy now = .ok acc' := by
  unfold putPolicy
  split
  · exact ⟨_, rfl⟩
  · exact acc.insertPolicy_isOk _ _ _

theorem ensurePolicyExists_isOk
    (J : PolicyJson) (acc : Access) (policy : Policy) (now : UnixTime) :
    ∃ acc', ensurePolicyExists J acc policy now = .ok acc' := by
  unfold ensurePolicyExists
  split
  · exact ⟨_, rfl⟩
  · exact acc.insertPolicy_isOk _ _ _

/-- What `put_policy` does to the table of policies. -/
theorem putPolicy_eq_ok
    {policy : Policy} {now : UnixTime}
    (h : putPolicy J acc policy now = .ok acc') :
    acc'.tokens = acc.tokens ∧ acc'.tokenPolicies = acc.tokenPolicies ∧
      ∀ p, p ∈ acc'.policies.rows ↔
        (p ∈ acc.policies.rows ∧ p.name ≠ policy.name) ∨
          (p.name = policy.name ∧ p.document = policy.toJson J ∧
            ((∃ q ∈ acc.policies.rows, q.name = policy.name ∧ p.id = q.id ∧
                p.createdAt = q.createdAt) ∨
              (policy.name ∉ acc.policies.rows.map PolicyRow.name ∧
                p.id = acc.nextPolicyId ∧ p.createdAt = now))) := by
  unfold putPolicy at h
  split at h
  · rename_i hmem
    cases h
    refine ⟨rfl, rfl, ?_⟩
    intro p
    simp only [Access.updatePolicy, Table.mem_update]
    constructor
    · rintro ⟨q, hq, rfl⟩
      unfold PolicyRow.redocument
      split
      · rename_i hname
        exact .inr ⟨hname, rfl, .inl ⟨q, hq, hname, rfl, rfl⟩⟩
      · rename_i hname
        exact .inl ⟨hq, hname⟩
    · rintro (⟨hp, hname⟩ | ⟨hname, hdocument, ⟨q, hq, hqname, hid, hcreated⟩ | ⟨hfresh, -⟩⟩)
      · exact ⟨p, hp, by rw [PolicyRow.redocument, if_neg hname]⟩
      · refine ⟨q, hq, ?_⟩
        rw [PolicyRow.redocument, if_pos hqname]
        cases p
        simp_all
      · exact absurd hmem hfresh
  · rename_i hmem
    obtain ⟨htokens, hlinks, hrows⟩ := Access.insertPolicy_eq_ok h
    refine ⟨htokens, hlinks, ?_⟩
    intro p
    rw [hrows, List.mem_append, List.mem_singleton]
    constructor
    · rintro (hp | rfl)
      · refine .inl ⟨hp, ?_⟩
        intro hname
        exact hmem (List.mem_map.mpr ⟨p, hp, hname⟩)
      · exact .inr ⟨rfl, rfl, .inr ⟨hmem, rfl, rfl⟩⟩
    · rintro (⟨hp, -⟩ | ⟨hname, hdocument, ⟨q, hq, hqname, -⟩ | ⟨-, hid, hcreated⟩⟩)
      · exact .inl hp
      · exact absurd (List.mem_map.mpr ⟨q, hq, hqname⟩) hmem
      · refine .inr ?_
        cases p
        simp_all

theorem putPolicy_names
    {policy : Policy} {now : UnixTime}
    (h : putPolicy J acc policy now = .ok acc') (name : String) :
    name ∈ acc'.policies.rows.map PolicyRow.name ↔
      name ∈ acc.policies.rows.map PolicyRow.name ∨ name = policy.name := by
  unfold putPolicy at h
  split at h
  · rename_i hmem
    cases h
    change name ∈ (acc.policies.rows.map (PolicyRow.redocument policy.name
      (policy.toJson J))).map PolicyRow.name ↔ _
    rw [PolicyRow.map_name_redocument]
    refine ⟨.inl, ?_⟩
    rintro (hname | rfl)
    · exact hname
    · exact hmem
  · obtain ⟨-, -, hrows⟩ := Access.insertPolicy_eq_ok h
    simp [hrows]

theorem ensurePolicyExists_eq_ok
    {policy : Policy} {now : UnixTime}
    (h : ensurePolicyExists J acc policy now = .ok acc') :
    acc' = acc ∨
      (acc'.tokens = acc.tokens ∧ acc'.tokenPolicies = acc.tokenPolicies ∧
        acc'.policies.rows =
          acc.policies.rows ++ [⟨acc.nextPolicyId, policy.name, policy.toJson J, now⟩]) := by
  unfold ensurePolicyExists at h
  split at h
  · cases h
    exact .inl rfl
  · exact .inr (Access.insertPolicy_eq_ok h)

theorem deletePolicy_eq_ok
    {name : String}
    (h : deletePolicy acc name = .ok acc') :
    acc' = acc.dropPolicy name := by
  unfold deletePolicy at h
  split at h
  · cases h
    rfl
  · cases h

end Specs

section Documents

variable {J : PolicyJson} {acc acc' : Access}

/-- Every stored document is a policy of its name, and that policy is read back. -/
def Access.Rereadable (J : PolicyJson) (acc : Access) : Prop :=
  ∀ p ∈ acc.policies.rows, ∃ policy, Policy.fromJson J p.document = .ok policy ∧
    policy.name = p.name ∧ policy.Rereads J

/-- The policies that an operation stores are read back. -/
def AccessOp.Rereads (J : PolicyJson) : AccessOp → Prop
  | .putPolicy policy _ => policy.Rereads J
  | .ensurePolicyExists policy _ => policy.Rereads J
  | .restart _ => unrestrictedPolicy.Rereads J
  | _ => True

theorem Access.Rereadable.documents
    (h : acc.Rereadable J) :
    acc.Documents J := by
  intro p hp
  obtain ⟨policy, hparse, hname, -⟩ := h p hp
  exact ⟨policy, hparse, hname⟩

theorem Access.Rereadable.of_policies
    (h : acc.Rereadable J)
    (hpolicies : acc'.policies = acc.policies) :
    acc'.Rereadable J := by
  intro p hp
  rw [hpolicies] at hp
  exact h p hp

theorem rereadable_putPolicy
    {policy : Policy} {now : UnixTime}
    (hpolicy : policy.Rereads J)
    (h : acc.Rereadable J)
    (hput : putPolicy J acc policy now = .ok acc') :
    acc'.Rereadable J := by
  intro p hp
  obtain ⟨-, -, hrows⟩ := putPolicy_eq_ok hput
  rcases (hrows p).mp hp with ⟨hold, -⟩ | ⟨hname, hdocument, -⟩
  · exact h p hold
  · exact ⟨policy, by rw [hdocument, hpolicy], hname.symm, hpolicy⟩

theorem rereadable_ensurePolicyExists
    {policy : Policy} {now : UnixTime}
    (hpolicy : policy.Rereads J)
    (h : acc.Rereadable J)
    (hensure : ensurePolicyExists J acc policy now = .ok acc') :
    acc'.Rereadable J := by
  rcases ensurePolicyExists_eq_ok hensure with rfl | ⟨-, -, hrows⟩
  · exact h
  intro p hp
  rw [hrows] at hp
  rcases List.mem_append.mp hp with hp | hp
  · exact h p hp
  · obtain rfl := List.mem_singleton.mp hp
    exact ⟨policy, hpolicy, rfl, hpolicy⟩

/-- Every operation leaves documents that are policies. -/
theorem rereadable_step
    {op : AccessOp}
    (hop : op.Rereads J)
    (h : acc.Rereadable J) :
    (op.step J acc).Rereadable J := by
  cases op with
  | createToken token now =>
      refine Access.settle_elim h ?_
      intro acc' hok
      exact h.of_policies (createToken_eq_ok hok).2.2.1
  | touchToken id now =>
      exact h.of_policies (touchToken_sameExceptUse acc id now).policies
  | revokeToken lookup now =>
      refine Access.settle_elim h ?_
      intro acc' hok
      exact h.of_policies (revokeToken_eq_ok hok).2.2.1
  | putPolicy policy now =>
      exact Access.settle_elim h fun acc' hok => rereadable_putPolicy hop h hok
  | ensurePolicyExists policy now =>
      exact Access.settle_elim h fun acc' hok => rereadable_ensurePolicyExists hop h hok
  | deletePolicy name =>
      refine Access.settle_elim h ?_
      intro acc' hok p hp
      rw [deletePolicy_eq_ok hok] at hp
      exact h p (Table.mem_keep.mp hp).1
  | restart now =>
      exact Access.settle_elim h fun acc' hok => rereadable_ensurePolicyExists hop h hok

/-- In every run from an empty database, stored documents are policies. -/
theorem documents_run
    {ops : List AccessOp}
    (hops : ∀ op ∈ ops, op.Rereads J) :
    (run (AccessOp.step J) Access.empty ops).Documents J := by
  refine Access.Rereadable.documents ?_
  refine run_invariant (Access.Rereadable J) (AccessOp.Rereads J) ?_ hops ?_
  · intro acc op hop h
    exact rereadable_step hop h
  · intro p hp
    cases hp

end Documents

section Rows

variable {J : PolicyJson} {acc acc' : Access} {p : TokenRow → Prop}

/-- A row with a property that every `UPDATE` of tokens keeps is never lost. -/
theorem exists_row_step
    (htouch : ∀ r id now, p r → p (TokenRow.touch id now r))
    (hrevoke : ∀ r lookup now, p r → p (TokenRow.revoke lookup now r))
    (h : ∃ r ∈ acc.tokens.rows, p r) (op : AccessOp) :
    ∃ r ∈ (op.step J acc).tokens.rows, p r := by
  have hsame :
      ∀ {acc' : Access}, acc'.tokens = acc.tokens → ∃ r ∈ acc'.tokens.rows, p r := by
    intro acc' htokens
    rwa [htokens]
  have hmap :
      ∀ {acc' : Access} {f : TokenRow → TokenRow}, (∀ r, p r → p (f r)) →
        acc'.tokens.rows = acc.tokens.rows.map f → ∃ r ∈ acc'.tokens.rows, p r := by
    intro acc' f hf hrows
    obtain ⟨r, hr, hp⟩ := h
    rw [hrows]
    exact ⟨f r, List.mem_map_of_mem hr, hf r hp⟩
  cases op with
  | createToken token now =>
      refine Access.settle_elim (p := fun acc => ∃ r ∈ acc.tokens.rows, p r) h ?_
      intro acc' hok
      obtain ⟨-, hrows, -⟩ := createToken_eq_ok hok
      obtain ⟨r, hr, hp⟩ := h
      rw [hrows]
      exact ⟨r, List.mem_append_left _ hr, hp⟩
  | touchToken id now =>
      exact hmap (fun r => htouch r id now) rfl
  | revokeToken lookup now =>
      refine Access.settle_elim (p := fun acc => ∃ r ∈ acc.tokens.rows, p r) h ?_
      intro acc' hok
      exact hmap (fun r => hrevoke r lookup now) (revokeToken_eq_ok hok).2.1
  | putPolicy policy now =>
      refine Access.settle_elim (p := fun acc => ∃ r ∈ acc.tokens.rows, p r) h ?_
      intro acc' hok
      exact hsame (putPolicy_eq_ok hok).1
  | ensurePolicyExists policy now =>
      refine Access.settle_elim (p := fun acc => ∃ r ∈ acc.tokens.rows, p r) h ?_
      intro acc' hok
      rcases ensurePolicyExists_eq_ok hok with rfl | ⟨htokens, -⟩
      · exact h
      · exact hsame htokens
  | deletePolicy name =>
      refine Access.settle_elim (p := fun acc => ∃ r ∈ acc.tokens.rows, p r) h ?_
      intro acc' hok
      rw [deletePolicy_eq_ok hok]
      exact hsame rfl
  | restart now =>
      refine Access.settle_elim (p := fun acc => ∃ r ∈ acc.tokens.rows, p r) h ?_
      intro acc' hok
      rcases ensurePolicyExists_eq_ok hok with rfl | ⟨htokens, -⟩
      · exact h
      · exact hsame htokens

theorem exists_row_run
    (htouch : ∀ r id now, p r → p (TokenRow.touch id now r))
    (hrevoke : ∀ r lookup now, p r → p (TokenRow.revoke lookup now r))
    (h : ∃ r ∈ acc.tokens.rows, p r) (ops : List AccessOp) :
    ∃ r ∈ (run (AccessOp.step J) acc ops).tokens.rows, p r :=
  run_invariant (fun acc : Access => ∃ r ∈ acc.tokens.rows, p r) (fun _ => True)
    (fun _ op _ h => exists_row_step htouch hrevoke h op) (fun _ _ => trivial) h

end Rows

section Revocation

variable {J : PolicyJson} {acc acc' : Access} {lookup : LookupPrefix} {t : UnixTime}

/-- The token with this prefix has been revoked at time `t`. -/
def Access.RevokedAt (acc : Access) (lookup : LookupPrefix) (t : UnixTime) : Prop :=
  ∃ r ∈ acc.tokens.rows, r.lookupPrefix = lookup ∧ r.revokedAt = some t

/-- A successful revocation is recorded, now or earlier. -/
theorem revokedAt_revokeToken
    {now : UnixTime}
    (h : revokeToken acc lookup now = .ok acc') :
    ∃ t, acc'.RevokedAt lookup t := by
  obtain ⟨⟨r, hr, hlookup⟩, hrows, -⟩ := revokeToken_eq_ok h
  have hmem : TokenRow.revoke lookup now r ∈ acc'.tokens.rows := by
    rw [hrows]
    exact List.mem_map_of_mem hr
  unfold TokenRow.revoke at hmem
  cases hrevoked : r.revokedAt with
  | none =>
      rw [if_pos ⟨hlookup, hrevoked⟩] at hmem
      exact ⟨now, _, hmem, hlookup, rfl⟩
  | some t =>
      rw [if_neg (by simp [hrevoked])] at hmem
      exact ⟨t, r, hmem, hlookup, hrevoked⟩

/-- No operation changes a recorded revocation time. -/
theorem revokedAt_step
    (h : acc.RevokedAt lookup t) (op : AccessOp) :
    (op.step J acc).RevokedAt lookup t := by
  refine exists_row_step ?_ ?_ h op
  · rintro r id now ⟨hlookup, hrevoked⟩
    unfold TokenRow.touch
    split <;> exact ⟨hlookup, hrevoked⟩
  · rintro r lookup' now ⟨hlookup, hrevoked⟩
    unfold TokenRow.revoke
    rw [if_neg (by simp [hrevoked])]
    exact ⟨hlookup, hrevoked⟩

theorem revokedAt_run
    (h : acc.RevokedAt lookup t) (ops : List AccessOp) :
    (run (AccessOp.step J) acc ops).RevokedAt lookup t :=
  run_invariant (fun acc : Access => acc.RevokedAt lookup t) (fun _ => True)
    (fun _ op _ h => revokedAt_step h op) (fun _ _ => trivial) h

end Revocation

end Storage
end Secretbae
