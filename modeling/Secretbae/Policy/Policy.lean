import Secretbae.Proto.Types
import Secretbae.Lib.Glob
import Mathlib.Data.Finset.Insert

/-!
# Policy documents and access decisions

`evaluate` decides a request against every policy attached to a token: a deny
rule of any of them wins, and only then is a grant looked for.

`Permits` is what the decision means.  It speaks of the policies only through
membership and of a pattern through the language of its segments, so that the
order of policies and rules, a longer list of tags and a further policy can be
reasoned about without looking at the loops (`evaluate_isAllowed_iff`).
-/

namespace Secretbae
namespace Policies

open Lib Proto

/-- An action a policy rule can grant on a path. -/
inductive Capability where
  | read
  | write
  | delete
  | list
  | admin
deriving DecidableEq

inductive PolicyError where
  | malformedToken
  | invalidPattern (pattern : String)
  | malformed (text : String)
  | entropy
deriving DecidableEq

/-- The text of an error, as a rejected caller may see it. -/
def PolicyError.message : PolicyError → String
  | .malformedToken => "malformed token"
  | .invalidPattern pattern =>
      "invalid path pattern " ++ pattern.quote ++
        ": segments must be a literal, '*' or '**'"
  | .malformed text => "malformed policy document: " ++ text
  | .entropy => "the OS entropy source is unavailable"

/-- A segment of a pattern: `**`, `*` or a literal. -/
def pieceOf (segment : Bytes) : Piece Bytes :=
  if segment = [42, 42] then .many
  else if segment = [42] then .one
  else .literal segment

/-- `glob::is_valid_pattern`. -/
def isValidPattern (pattern : String) : Bool :=
  decide (pattern ≠ "") &&
    (pathSegments pattern).all fun segment =>
      decide (segment = [42]) || decide (segment = [42, 42]) ||
        (decide (segment ≠ []) && decide (segment ≠ [46]) && decide (segment ≠ [46, 46]) &&
          segment.all isNameByte)

/-- A validated path glob. -/
structure PathPattern where
  asStr : String
  valid : isValidPattern asStr = true
deriving DecidableEq

/-- The pattern that every path matches. -/
def everyPath : PathPattern :=
  ⟨"**", by decide⟩

/-- `PathPattern::new`. -/
def PathPattern.new (pattern : String) : Except PolicyError PathPattern :=
  if h : isValidPattern pattern = true then .ok ⟨pattern, h⟩
  else .error (.invalidPattern pattern)

/-- The pieces of a pattern. -/
def PathPattern.pieces (pattern : PathPattern) : List (Piece Bytes) :=
  (pathSegments pattern.asStr).map pieceOf

/-- `PathPattern::matches`. -/
def PathPattern.matches (pattern : PathPattern) (path : SecretPath) : Bool :=
  globMatches pattern.pieces (pathSegments path.asStr)

/-- A grant. -/
structure Rule where
  path : PathPattern
  capabilities : Finset Capability
  requireTags : List Tag
deriving DecidableEq

/-- A prohibition; without capabilities it covers every one. -/
structure DenyRule where
  path : PathPattern
  capabilities : Option (Finset Capability)
deriving DecidableEq

def DenyRule.covers (rule : DenyRule) (capability : Capability) : Bool :=
  match rule.capabilities with
  | none => true
  | some capabilities => decide (capability ∈ capabilities)

/-- A named set of grants and prohibitions. -/
structure Policy where
  name : String
  rules : List Rule
  deny : List DenyRule
deriving DecidableEq

/-- The JSON form of policies, which another crate reads and writes. -/
structure PolicyJson where
  render : Policy → String
  parse : String → Except String Policy

/-- `Policy::from_json`. -/
def Policy.fromJson (J : PolicyJson) (document : String) : Except PolicyError Policy :=
  (J.parse document).mapError .malformed

/-- `Policy::to_json`; writing a policy cannot fail. -/
def Policy.toJson (J : PolicyJson) (policy : Policy) : String :=
  J.render policy

/-- A policy is read back from what it is rendered to. -/
def Policy.Rereads (J : PolicyJson) (policy : Policy) : Prop :=
  Policy.fromJson J (policy.toJson J) = .ok policy

/-- What a caller is trying to do; the tags are those the secret carries. -/
structure AccessRequest where
  path : SecretPath
  capability : Capability
  tags : List Tag

inductive Decision where
  | allow (matched : String)
  | deny
deriving DecidableEq

def Decision.isAllowed : Decision → Bool
  | .allow _ => true
  | .deny => false

/-- `evaluate`: deny wins over every grant. -/
def evaluate (policies : List Policy) (request : AccessRequest) : Decision :=
  let denied := (policies.flatMap Policy.deny).any fun rule =>
    rule.covers request.capability && rule.path.matches request.path
  if denied then .deny
  else
    let granting := (policies.flatMap Policy.rules).find? fun rule =>
      decide (request.capability ∈ rule.capabilities) && rule.path.matches request.path &&
        rule.requireTags.all fun required => request.tags.contains required
    match granting with
    | some rule => .allow rule.path.asStr
    | none => .deny

section Meaning

/-- The paths a pattern stands for. -/
def PathPattern.Denotes (pattern : PathPattern) (path : SecretPath) : Prop :=
  pathSegments path.asStr ∈ patternLanguage pattern.pieces

/-- What a grant asks for. -/
structure Rule.Grants (rule : Rule) (request : AccessRequest) : Prop where
  capability : request.capability ∈ rule.capabilities
  path : rule.path.Denotes request.path
  tags : ∀ t ∈ rule.requireTags, t ∈ request.tags

/-- A prohibition names the capability, or none at all. -/
def DenyRule.Covers (rule : DenyRule) (capability : Capability) : Prop :=
  ∀ capabilities, rule.capabilities = some capabilities → capability ∈ capabilities

/-- What a prohibition excludes. -/
structure DenyRule.Forbids (rule : DenyRule) (path : SecretPath) (capability : Capability) :
    Prop where
  capability : rule.Covers capability
  path : rule.path.Denotes path

/-- Some rule grants the request and no rule of any policy forbids it. -/
structure Permits (policies : List Policy) (request : AccessRequest) : Prop where
  granted : ∃ policy ∈ policies, ∃ rule ∈ policy.rules, rule.Grants request
  allowed :
    ∀ policy ∈ policies, ∀ rule ∈ policy.deny,
      ¬ rule.Forbids request.path request.capability

theorem PathPattern.matches_iff
    {pattern : PathPattern} {path : SecretPath} :
    pattern.matches path = true ↔ pattern.Denotes path :=
  globMatches_iff

theorem DenyRule.covers_iff
    {rule : DenyRule} {capability : Capability} :
    rule.covers capability = true ↔ rule.Covers capability := by
  unfold DenyRule.covers DenyRule.Covers
  cases rule.capabilities with
  | none => simp
  | some capabilities => simp

/-- The decision is the meaning. -/
theorem evaluate_isAllowed_iff
    {policies : List Policy} {request : AccessRequest} :
    (evaluate policies request).isAllowed = true ↔ Permits policies request := by
  have hdeny :
      ((policies.flatMap Policy.deny).any fun rule =>
          rule.covers request.capability && rule.path.matches request.path) = true ↔
        ∃ policy ∈ policies, ∃ rule ∈ policy.deny,
          rule.Forbids request.path request.capability := by
    simp only [List.any_eq_true, List.mem_flatMap, Bool.and_eq_true, DenyRule.covers_iff,
      PathPattern.matches_iff]
    constructor
    · rintro ⟨rule, ⟨policy, hpolicy, hrule⟩, hcovers, hpath⟩
      exact ⟨policy, hpolicy, rule, hrule, hcovers, hpath⟩
    · rintro ⟨policy, hpolicy, rule, hrule, hcovers, hpath⟩
      exact ⟨rule, ⟨policy, hpolicy, hrule⟩, hcovers, hpath⟩
  have hgrant (rule : Rule) :
      (decide (request.capability ∈ rule.capabilities) && rule.path.matches request.path &&
          rule.requireTags.all fun required => request.tags.contains required) = true ↔
        rule.Grants request := by
    simp only [Bool.and_eq_true, decide_eq_true_eq, PathPattern.matches_iff,
      List.all_eq_true, List.contains_iff_mem]
    constructor
    · rintro ⟨⟨hcap, hpath⟩, htags⟩
      exact ⟨hcap, hpath, htags⟩
    · rintro ⟨hcap, hpath, htags⟩
      exact ⟨⟨hcap, hpath⟩, htags⟩
  unfold evaluate
  dsimp only
  split
  · rename_i hdenied
    obtain ⟨policy, hpolicy, rule, hrule, hforbids⟩ := hdeny.mp hdenied
    constructor
    · intro h
      cases h
    · intro h
      exact absurd hforbids (h.allowed policy hpolicy rule hrule)
  · rename_i hdenied
    have hallowed : ∀ policy ∈ policies, ∀ rule ∈ policy.deny,
        ¬ rule.Forbids request.path request.capability := by
      intro policy hpolicy rule hrule hforbids
      exact hdenied (hdeny.mpr ⟨policy, hpolicy, rule, hrule, hforbids⟩)
    split
    · rename_i rule hfind
      obtain ⟨policy, hpolicy, hrule⟩ := List.mem_flatMap.mp (List.mem_of_find?_eq_some hfind)
      have hsome := List.find?_some hfind
      have hgrants := (hgrant rule).mp hsome
      exact iff_of_true rfl ⟨⟨policy, hpolicy, rule, hrule, hgrants⟩, hallowed⟩
    · rename_i hfind
      refine iff_of_false Bool.false_ne_true ?_
      rintro ⟨⟨policy, hpolicy, rule, hrule, hgrants⟩, -⟩
      have hmem : rule ∈ policies.flatMap Policy.rules :=
        List.mem_flatMap.mpr ⟨policy, hpolicy, hrule⟩
      exact List.find?_eq_none.mp hfind rule hmem ((hgrant rule).mpr hgrants)

/-- More tags only ever permit more. -/
theorem Permits.mono_tags
    {policies : List Policy} {path : SecretPath} {capability : Capability}
    {tags tags' : List Tag}
    (h : Permits policies ⟨path, capability, tags⟩)
    (htags : ∀ t ∈ tags, t ∈ tags') :
    Permits policies ⟨path, capability, tags'⟩ := by
  obtain ⟨⟨policy, hpolicy, rule, hrule, hcap, hpath, hreq⟩, hallowed⟩ := h
  refine ⟨⟨policy, hpolicy, rule, hrule, hcap, hpath, ?_⟩, hallowed⟩
  intro t ht
  exact htags t (hreq t ht)

/-- Two policies with the same rules and the same prohibitions. -/
structure Policy.SameRules (p q : Policy) : Prop where
  rules : ∀ rule, rule ∈ p.rules ↔ rule ∈ q.rules
  deny : ∀ rule, rule ∈ p.deny ↔ rule ∈ q.deny

/-- Each policy of the one list has a counterpart in the other. -/
def SameGrants (policies policies' : List Policy) : Prop :=
  (∀ p ∈ policies, ∃ q ∈ policies', p.SameRules q) ∧
    ∀ q ∈ policies', ∃ p ∈ policies, p.SameRules q

/-- Neither the order of the policies nor that of their rules matters. -/
theorem Permits.congr
    {policies policies' : List Policy} {request : AccessRequest}
    (hsame : SameGrants policies policies') :
    Permits policies request ↔ Permits policies' request := by
  obtain ⟨hleft, hright⟩ := hsame
  constructor
  · rintro ⟨⟨p, hp, rule, hrule, hgrants⟩, hallowed⟩
    obtain ⟨q, hq, hpq⟩ := hleft p hp
    refine ⟨⟨q, hq, rule, (hpq.rules rule).mp hrule, hgrants⟩, ?_⟩
    intro q' hq' rule' hrule'
    obtain ⟨p', hp', hpq'⟩ := hright q' hq'
    exact hallowed p' hp' rule' ((hpq'.deny rule').mpr hrule')
  · rintro ⟨⟨q, hq, rule, hrule, hgrants⟩, hallowed⟩
    obtain ⟨p, hp, hpq⟩ := hright q hq
    refine ⟨⟨p, hp, rule, (hpq.rules rule).mpr hrule, hgrants⟩, ?_⟩
    intro p' hp' rule' hrule'
    obtain ⟨q', hq', hpq'⟩ := hleft p' hp'
    exact hallowed q' hq' rule' ((hpq'.deny rule').mp hrule')

/-- The pattern `**` stands for every path. -/
theorem PathPattern.denotes_all
    {pattern : PathPattern}
    (h : pattern.asStr = "**") (path : SecretPath) :
    pattern.Denotes path := by
  have hpieces : pattern.pieces = [.many] := by
    rw [PathPattern.pieces, h]
    decide
  rw [PathPattern.Denotes, hpieces]
  exact mem_patternLanguage_many _

end Meaning

end Policies
end Secretbae
