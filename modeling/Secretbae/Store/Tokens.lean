import Secretbae.Policy.Token
import Secretbae.Store.Secrets

/-!
# Token and policy persistence

The `tokens`, `policies` and `token_policies` tables.  Their keys and foreign
keys are fields of `Access`, as those of the other tables are fields of `Store`.
A column of a token that the source decodes when it reads it has the decoded
type here: nothing else is ever written there.

A policy is stored as its rendered document and parsed again by every reader.
`Access.Documents` says that this succeeds for every stored document; each
operation keeps it (`rereadable_step` in the module of their runs).
-/

namespace Secretbae
namespace Storage

open Lib Core Policies
open Daemon (LookupPrefix)

/-- A row of `tokens`. -/
structure TokenRow where
  id : Uuid
  lookupPrefix : LookupPrefix
  hash : Digest
  name : String
  boundUid : Option UInt32
  createdAt : UnixTime
  expiresAt : Option UnixTime
  revokedAt : Option UnixTime
  lastUsedAt : Option UnixTime
deriving DecidableEq

/-- A row of `policies`. -/
structure PolicyRow where
  id : Nat
  name : String
  document : String
  createdAt : UnixTime
deriving DecidableEq

/-- A row of `token_policies`. -/
structure TokenPolicyRow where
  tokenId : Uuid
  policyId : Nat
deriving DecidableEq

/-- Tokens and policies as `sbae-store` sees them. -/
structure Access where
  tokens : Table TokenRow.id
  prefixes : (tokens.rows.map TokenRow.lookupPrefix).Nodup
  policies : Table PolicyRow.id
  policyNames : (policies.rows.map PolicyRow.name).Nodup
  tokenPolicies : Table (id : TokenPolicyRow → TokenPolicyRow)
  tokenPolicyRefs :
    ∀ r ∈ tokenPolicies.rows,
      (∃ t ∈ tokens.rows, t.id = r.tokenId) ∧ ∃ p ∈ policies.rows, p.id = r.policyId

/-- The tables of a freshly migrated database. -/
def Access.empty : Access where
  tokens := Table.empty
  prefixes := List.nodup_nil
  policies := Table.empty
  policyNames := List.nodup_nil
  tokenPolicies := Table.empty
  tokenPolicyRefs := by
    intro r hr
    cases hr

/-- `SELECT … FROM tokens WHERE lookup_prefix = ?`. -/
def Access.rowByPrefix (acc : Access) (lookup : LookupPrefix) : Option TokenRow :=
  acc.tokens.rows.find? (fun r => decide (r.lookupPrefix = lookup))

/-- The record of a row. -/
def TokenRow.record (r : TokenRow) : TokenRecord where
  id := r.id
  lookupPrefix := r.lookupPrefix
  hash := r.hash
  name := r.name
  boundUid := r.boundUid
  expiresAt := r.expiresAt
  revokedAt := r.revokedAt

/-- `Store::token_by_prefix`. -/
def tokenByPrefix (acc : Access) (lookup : LookupPrefix) : Option TokenRecord :=
  (acc.rowByPrefix lookup).map TokenRow.record

/-- The row of `policies` with a name. -/
def Access.policyByName (acc : Access) (name : String) : Option PolicyRow :=
  acc.policies.rows.find? (fun p => decide (p.name = name))

/-- `INSERT INTO tokens`. -/
def Access.insertToken (acc : Access) (row : TokenRow) : Except StoreError Access :=
  match hins : acc.tokens.insert row with
  | none => .error (.sqlite .constraint)
  | some tokens =>
      if hlead : row.lookupPrefix ∈ acc.tokens.rows.map TokenRow.lookupPrefix then
        .error (.sqlite .constraint)
      else
        .ok
          { acc with
            tokens := tokens
            prefixes := by
              rw [(Table.insert_eq_some hins).2]
              exact nodup_map_concat acc.prefixes hlead
            tokenPolicyRefs := by
              intro r hr
              obtain ⟨⟨t, ht, hid⟩, hp⟩ := acc.tokenPolicyRefs r hr
              refine ⟨⟨t, ?_, hid⟩, hp⟩
              rw [(Table.insert_eq_some hins).2]
              exact List.mem_append_left _ ht }

/-- `INSERT INTO token_policies`. -/
def Access.insertTokenPolicy (acc : Access) (row : TokenPolicyRow) : Except StoreError Access :=
  match hins : acc.tokenPolicies.insert row with
  | none => .error (.sqlite .constraint)
  | some tokenPolicies =>
      if href : (∃ t ∈ acc.tokens.rows, t.id = row.tokenId) ∧
          ∃ p ∈ acc.policies.rows, p.id = row.policyId then
        .ok
          { acc with
            tokenPolicies := tokenPolicies
            tokenPolicyRefs := by
              intro r hr
              rw [(Table.insert_eq_some hins).2] at hr
              rcases List.mem_append.mp hr with hr | hr
              · exact acc.tokenPolicyRefs r hr
              · obtain rfl := List.mem_singleton.mp hr
                exact href }
      else .error (.sqlite .constraint)

/-- `UPDATE tokens`, of columns other than the keys. -/
def Access.updateTokens (acc : Access) (f : TokenRow → TokenRow)
    (hid : ∀ r, (f r).id = r.id) (hlead : ∀ r, (f r).lookupPrefix = r.lookupPrefix) :
    Access :=
  { acc with
    tokens := acc.tokens.update f hid
    prefixes := by
      have hkeys : (acc.tokens.rows.map f).map TokenRow.lookupPrefix =
          acc.tokens.rows.map TokenRow.lookupPrefix := by
        simp [List.map_map, Function.comp_def, hlead]
      rw [Table.update, hkeys]
      exact acc.prefixes
    tokenPolicyRefs := by
      intro r hr
      obtain ⟨⟨t, ht, hid'⟩, hp⟩ := acc.tokenPolicyRefs r hr
      exact ⟨⟨f t, Table.mem_update.mpr ⟨t, ht, rfl⟩, (hid t).trans hid'⟩, hp⟩ }

/-- Everything needed to persist a newly issued token. -/
structure NewToken where
  id : Uuid
  lookupPrefix : LookupPrefix
  hash : Digest
  name : String
  boundUid : Option UInt32
  expiresAt : Option UnixTime
  policies : List String

/-- The row that `create_token` inserts. -/
def NewToken.row (token : NewToken) (now : UnixTime) : TokenRow where
  id := token.id
  lookupPrefix := token.lookupPrefix
  hash := token.hash
  name := token.name
  boundUid := token.boundUid
  createdAt := now
  expiresAt := token.expiresAt
  revokedAt := none
  lastUsedAt := none

/-- The loop of `create_token`: a policy that is absent fails the whole transaction. -/
def attachPolicies (id : Uuid) : Access → List String → Except StoreError Access
  | acc, [] => .ok acc
  | acc, name :: names =>
      match acc.policyByName name with
      | none => .error .notFound
      | some p => do
          let acc ← acc.insertTokenPolicy ⟨id, p.id⟩
          attachPolicies id acc names

/-- `Store::create_token`. -/
def createToken (acc : Access) (token : NewToken) (now : UnixTime) :
    Except StoreError Access := do
  let acc ← acc.insertToken (token.row now)
  attachPolicies token.id acc token.policies

/-- The order of `ORDER BY name`. -/
def nameLe (a b : String) : Bool :=
  decide (utf8 a ≤ utf8 b)

/-- The policies attached to a token, in order of name. -/
def Access.attachedRows (acc : Access) (id : Uuid) : List PolicyRow :=
  (acc.policies.rows.filter fun p =>
    acc.tokenPolicies.rows.any fun l => decide (l.tokenId = id ∧ l.policyId = p.id)).mergeSort
      fun a b => nameLe a.name b.name

/-- `Store::policies_for_token`. -/
def policiesForToken (J : PolicyJson) (acc : Access) (id : Uuid) :
    Except PolicyError (List Policy) :=
  (acc.attachedRows id).mapM fun p => Policy.fromJson J p.document

/-- `UPDATE tokens SET last_used_at = … WHERE id = …`. -/
def TokenRow.touch (id : Uuid) (now : UnixTime) (r : TokenRow) : TokenRow :=
  if r.id = id then { r with lastUsedAt := some now } else r

/-- `Store::touch_token`. -/
def touchToken (acc : Access) (id : Uuid) (now : UnixTime) : Access :=
  acc.updateTokens (TokenRow.touch id now)
    (by intro r; unfold TokenRow.touch; split <;> rfl)
    (by intro r; unfold TokenRow.touch; split <;> rfl)

/-- `UPDATE tokens SET revoked_at = … WHERE lookup_prefix = … AND revoked_at IS NULL`. -/
def TokenRow.revoke (lookup : LookupPrefix) (now : UnixTime) (r : TokenRow) : TokenRow :=
  if r.lookupPrefix = lookup ∧ r.revokedAt = none then { r with revokedAt := some now } else r

/-- `Store::revoke_token`. -/
def revokeToken (acc : Access) (lookup : LookupPrefix) (now : UnixTime) :
    Except StoreError Access :=
  let changed := acc.tokens.rows.countP fun r =>
    decide (r.lookupPrefix = lookup ∧ r.revokedAt = none)
  if changed = 0 ∧ tokenByPrefix acc lookup = none then .error .notFound
  else
    .ok (acc.updateTokens (TokenRow.revoke lookup now)
      (by intro r; unfold TokenRow.revoke; split <;> rfl)
      (by intro r; unfold TokenRow.revoke; split <;> rfl))

/-- A token as shown by `token list`. -/
structure TokenSummary where
  record : TokenRecord
  policies : List String
  createdAt : UnixTime
  lastUsedAt : Option UnixTime

/-- `Store::policy_names_for_token`. -/
def policyNamesForToken (acc : Access) (id : Uuid) : List String :=
  (acc.attachedRows id).map PolicyRow.name

/-- `Store::list_tokens`. -/
def listTokens (acc : Access) : Except StoreError (List TokenSummary) :=
  (acc.tokens.rows.mergeSort
    (fun a b => decide (a.createdAt.seconds ≤ b.createdAt.seconds))).mapM fun r => do
      let record ← okOr (tokenByPrefix acc r.lookupPrefix) .notFound
      .ok
        { record, policies := policyNamesForToken acc record.id
          createdAt := r.createdAt, lastUsedAt := r.lastUsedAt }

/-- The row id SQLite gives to the next policy. -/
def Access.nextPolicyId (acc : Access) : Nat :=
  (acc.policies.rows.map PolicyRow.id).foldl max 0 + 1

/-- `INSERT INTO policies`, of a name that is not there. -/
def Access.insertPolicy (acc : Access) (name document : String) (now : UnixTime)
    (hname : name ∉ acc.policies.rows.map PolicyRow.name) : Except StoreError Access :=
  match hins : acc.policies.insert ⟨acc.nextPolicyId, name, document, now⟩ with
  | none => .error (.sqlite .constraint)
  | some policies =>
      .ok
        { acc with
          policies := policies
          policyNames := by
            rw [(Table.insert_eq_some hins).2]
            exact nodup_map_concat acc.policyNames hname
          tokenPolicyRefs := by
            intro r hr
            obtain ⟨ht, p, hp, hid⟩ := acc.tokenPolicyRefs r hr
            refine ⟨ht, p, ?_, hid⟩
            rw [(Table.insert_eq_some hins).2]
            exact List.mem_append_left _ hp }

/-- `SET document = …`, for the policy with a name. -/
def PolicyRow.redocument (name document : String) (p : PolicyRow) : PolicyRow :=
  if p.name = name then { p with document := document } else p

theorem PolicyRow.map_name_redocument
    (name document : String) (rows : List PolicyRow) :
    (rows.map (PolicyRow.redocument name document)).map PolicyRow.name =
      rows.map PolicyRow.name := by
  rw [List.map_map]
  refine List.map_congr_left ?_
  intro p _
  unfold Function.comp PolicyRow.redocument
  split <;> rfl

/-- `UPDATE policies SET document = … WHERE name = …`. -/
def Access.updatePolicy (acc : Access) (name document : String) : Access :=
  { acc with
    policies :=
      acc.policies.update (PolicyRow.redocument name document)
        (by intro p; unfold PolicyRow.redocument; split <;> rfl)
    policyNames := by
      rw [Table.update, PolicyRow.map_name_redocument]
      exact acc.policyNames
    tokenPolicyRefs := by
      intro r hr
      obtain ⟨ht, p, hp, hid⟩ := acc.tokenPolicyRefs r hr
      refine ⟨ht, _, Table.mem_update.mpr ⟨p, hp, rfl⟩, ?_⟩
      rw [← hid]
      unfold PolicyRow.redocument
      split <;> rfl }

/-- `Store::put_policy`: insert, or replace the document. -/
def putPolicy (J : PolicyJson) (acc : Access) (policy : Policy) (now : UnixTime) :
    Except StoreError Access :=
  if h : policy.name ∈ acc.policies.rows.map PolicyRow.name then
    .ok (acc.updatePolicy policy.name (policy.toJson J))
  else acc.insertPolicy policy.name (policy.toJson J) now h

/-- `Store::ensure_policy_exists`: an existing policy is left alone. -/
def ensurePolicyExists (J : PolicyJson) (acc : Access) (policy : Policy) (now : UnixTime) :
    Except StoreError Access :=
  if h : policy.name ∈ acc.policies.rows.map PolicyRow.name then .ok acc
  else acc.insertPolicy policy.name (policy.toJson J) now h

/-- `DELETE FROM policies WHERE name = ?`, which cascades to `token_policies`. -/
def Access.dropPolicy (acc : Access) (name : String) : Access :=
  { acc with
    policies := acc.policies.keep fun p => decide (p.name ≠ name)
    policyNames := acc.policyNames.sublist (List.filter_sublist.map PolicyRow.name)
    tokenPolicies :=
      acc.tokenPolicies.keep fun l =>
        acc.policies.rows.any fun p => decide (p.name ≠ name ∧ p.id = l.policyId)
    tokenPolicyRefs := by
      intro r hr
      obtain ⟨hmem, hany⟩ := Table.mem_keep.mp hr
      obtain ⟨p, hp, hkeep⟩ := List.any_eq_true.mp hany
      obtain ⟨hname, hid⟩ := of_decide_eq_true hkeep
      exact ⟨(acc.tokenPolicyRefs r hmem).1, p,
        Table.mem_keep.mpr ⟨hp, decide_eq_true hname⟩, hid⟩ }

/-- `Store::delete_policy`. -/
def deletePolicy (acc : Access) (name : String) : Except StoreError Access :=
  if name ∈ acc.policies.rows.map PolicyRow.name then .ok (acc.dropPolicy name)
  else .error .notFound

/-- The policies in order of name. -/
def Access.policiesByName (acc : Access) : List PolicyRow :=
  acc.policies.rows.mergeSort fun a b => nameLe a.name b.name

/-- `Store::all_policy_documents`. -/
def allPolicyDocuments (acc : Access) : List String :=
  acc.policiesByName.map PolicyRow.document

/-- `Store::list_policy_names`. -/
def listPolicyNames (acc : Access) : List String :=
  acc.policiesByName.map PolicyRow.name

section Specs

theorem Access.rowByPrefix_eq_some_iff
    {acc : Access} {lookup : LookupPrefix} {r : TokenRow} :
    acc.rowByPrefix lookup = some r ↔ r ∈ acc.tokens.rows ∧ r.lookupPrefix = lookup :=
  find?_key_eq_some_iff acc.prefixes

theorem tokenByPrefix_eq_some_iff
    {acc : Access} {lookup : LookupPrefix} {record : TokenRecord} :
    tokenByPrefix acc lookup = some record ↔
      ∃ r ∈ acc.tokens.rows, r.lookupPrefix = lookup ∧ r.record = record := by
  simp only [tokenByPrefix, Option.map_eq_some_iff, Access.rowByPrefix_eq_some_iff, and_assoc]

theorem Access.policyByName_eq_some_iff
    {acc : Access} {name : String} {p : PolicyRow} :
    acc.policyByName name = some p ↔ p ∈ acc.policies.rows ∧ p.name = name :=
  find?_key_eq_some_iff acc.policyNames

/-- The policy in a row is attached to a token. -/
def Access.Attached (acc : Access) (id : Uuid) (p : PolicyRow) : Prop :=
  p ∈ acc.policies.rows ∧ ∃ l ∈ acc.tokenPolicies.rows, l.tokenId = id ∧ l.policyId = p.id

theorem Access.mem_attachedRows
    {acc : Access} {id : Uuid} {p : PolicyRow} :
    p ∈ acc.attachedRows id ↔ acc.Attached id p := by
  simp [Access.attachedRows, Access.Attached]

/-- The policies of a token are those its attached documents contain. -/
theorem mem_policiesForToken
    {J : PolicyJson} {acc : Access} {id : Uuid} {policies : List Policy} {policy : Policy}
    (h : policiesForToken J acc id = .ok policies) :
    policy ∈ policies ↔
      ∃ p, acc.Attached id p ∧ Policy.fromJson J p.document = .ok policy := by
  have hall := mapM_eq_ok h
  constructor
  · intro hpolicy
    obtain ⟨p, hp, hparse⟩ := forall₂_mem_right hall hpolicy
    exact ⟨p, Access.mem_attachedRows.mp hp, hparse⟩
  · rintro ⟨p, hp, hparse⟩
    obtain ⟨policy', hmem, hparse'⟩ := forall₂_mem_left hall (Access.mem_attachedRows.mpr hp)
    cases hparse.symm.trans hparse'
    exact hmem

/-- Every stored document is a policy of the name it is stored under. -/
def Access.Documents (J : PolicyJson) (acc : Access) : Prop :=
  ∀ p ∈ acc.policies.rows, ∃ policy, Policy.fromJson J p.document = .ok policy ∧
    policy.name = p.name

theorem Access.Documents.policiesForToken
    {J : PolicyJson} {acc : Access}
    (h : acc.Documents J) (id : Uuid) :
    ∃ policies, policiesForToken J acc id = .ok policies := by
  refine exists_mapM_eq_ok ?_
  intro p hp
  obtain ⟨policy, hparse, -⟩ := h p (Access.mem_attachedRows.mp hp).1
  exact ⟨policy, hparse⟩

/-- A token as if it had never been used. -/
def TokenRow.unused (r : TokenRow) : TokenRow :=
  { r with lastUsedAt := none }

/-- The tables differ at most in `last_used_at`. -/
structure Access.SameExceptUse (acc acc' : Access) : Prop where
  tokens : acc'.tokens.rows.map TokenRow.unused = acc.tokens.rows.map TokenRow.unused
  policies : acc'.policies = acc.policies
  links : acc'.tokenPolicies = acc.tokenPolicies

theorem Access.SameExceptUse.refl
    (acc : Access) :
    acc.SameExceptUse acc :=
  ⟨rfl, rfl, rfl⟩

theorem Access.SameExceptUse.trans
    {acc acc' acc'' : Access}
    (h : acc.SameExceptUse acc')
    (h' : acc'.SameExceptUse acc'') :
    acc.SameExceptUse acc'' :=
  ⟨h'.tokens.trans h.tokens, h'.policies.trans h.policies, h'.links.trans h.links⟩

theorem touchToken_sameExceptUse
    (acc : Access) (id : Uuid) (now : UnixTime) :
    acc.SameExceptUse (touchToken acc id now) := by
  refine ⟨?_, rfl, rfl⟩
  simp only [touchToken, Access.updateTokens, Table.update, List.map_map]
  refine List.map_congr_left ?_
  intro r _
  unfold Function.comp TokenRow.touch TokenRow.unused
  split <;> rfl

/-- What is read of a token when it is presented does not depend on its last use. -/
theorem Access.SameExceptUse.tokenByPrefix_eq
    {acc acc' : Access}
    (h : acc.SameExceptUse acc') (lookup : LookupPrefix) :
    tokenByPrefix acc' lookup = tokenByPrefix acc lookup := by
  have hunused : ∀ acc : Access, tokenByPrefix acc lookup =
      ((acc.tokens.rows.map TokenRow.unused).find?
        (fun r => decide (r.lookupPrefix = lookup))).map TokenRow.record := by
    intro acc
    rw [List.find?_map, Option.map_map]
    rfl
  rw [hunused, hunused, h.tokens]

theorem Access.SameExceptUse.policiesForToken_eq
    {acc acc' : Access}
    (h : acc.SameExceptUse acc') (J : PolicyJson) (id : Uuid) :
    policiesForToken J acc' id = policiesForToken J acc id := by
  unfold policiesForToken Access.attachedRows
  rw [h.policies, h.links]

end Specs

end Storage
end Secretbae
