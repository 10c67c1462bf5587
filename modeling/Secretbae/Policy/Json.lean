import Secretbae.Policy.Policy
import Secretbae.Proto.Text
import Secretbae.Lib.Json

/-!
# The JSON form of a policy

What the derived serializers write for a policy, and what the derived
deserializers accept.  Empty lists of rules, prohibitions and tags are left out
and are their own defaults; a prohibition without capabilities is one whose
member is left out, which is not the same as one with an empty list.

Only the text of a JSON value is another crate's: `JsonText`.  A policy is read
back from its value (`Policy.deserialize_serialize`), so it is read back from
its document as soon as that value is read back from its text
(`Policy.rereads_of_lossless`).
-/

namespace Secretbae
namespace Policies

open Lib Proto

/-- `Capability::as_str`, which is also what `rename_all = "lowercase"` gives. -/
def Capability.asStr : Capability → String
  | .read => "read"
  | .write => "write"
  | .delete => "delete"
  | .list => "list"
  | .admin => "admin"

/-- `Capability::ALL`, in the order of the type. -/
def Capability.all : List Capability :=
  [.read, .write, .delete, .list, .admin]

/-- The capability with a name. -/
def Capability.named (name : String) : Option Capability :=
  Capability.all.find? fun capability => decide (capability.asStr = name)

/-- A unit variant: its name, or an object with its name and `null`. -/
def Capability.deserialize : Json → Option Capability
  | .string name => Capability.named name
  | .object [(name, .null)] => Capability.named name
  | _ => none

def Capability.serialize (capability : Capability) : Json :=
  .string capability.asStr

/-- A `BTreeSet` is written in the order of its elements. -/
def serializeCapabilities (capabilities : Finset Capability) : Json :=
  .array ((Capability.all.filter fun c => decide (c ∈ capabilities)).map Capability.serialize)

def deserializeCapabilities (v : Json) : Option (Finset Capability) := do
  let items ← v.items
  let capabilities ← items.mapM Capability.deserialize
  some capabilities.toFinset

/-- `try_from = "String"` of a pattern. -/
def PathPattern.deserialize : Json → Option PathPattern
  | .string pattern => (PathPattern.new pattern).toOption
  | _ => none

def PathPattern.serialize (pattern : PathPattern) : Json :=
  .string pattern.asStr

/-- `try_from = "String"` of a tag. -/
def deserializeTag : Json → Option Tag
  | .string raw => (Tag.parse raw).toOption
  | _ => none

def serializeTag (tag : Tag) : Json :=
  .string tag.toText

/-- A `Vec`. -/
def deserializeVec {α : Type} (decode : Json → Option α) (v : Json) : Option (List α) := do
  let items ← v.items
  items.mapM decode

def Rule.serialize (rule : Rule) : Json :=
  .object
    (("path", rule.path.serialize) ::
      ("capabilities", serializeCapabilities rule.capabilities) ::
      Json.unlessEmpty "require_tags" serializeTag rule.requireTags)

def Rule.deserialize (v : Json) : Option Rule := do
  let field ← v.fields ["path", "capabilities", "require_tags"]
  let path ← field "path" >>= PathPattern.deserialize
  let capabilities ← field "capabilities" >>= deserializeCapabilities
  let requireTags ← Json.defaulted [] (deserializeVec deserializeTag) (field "require_tags")
  some { path, capabilities, requireTags }

def DenyRule.serialize (rule : DenyRule) : Json :=
  .object
    (("path", rule.path.serialize) ::
      match rule.capabilities with
      | none => []
      | some capabilities => [("capabilities", serializeCapabilities capabilities)])

def DenyRule.deserialize (v : Json) : Option DenyRule := do
  let field ← v.fields ["path", "capabilities"]
  let path ← field "path" >>= PathPattern.deserialize
  let capabilities ←
    Json.defaulted none (Json.nullable deserializeCapabilities) (field "capabilities")
  some { path, capabilities }

def Policy.serialize (policy : Policy) : Json :=
  .object
    (("name", .string policy.name) ::
      (Json.unlessEmpty "rules" Rule.serialize policy.rules ++
        Json.unlessEmpty "deny" DenyRule.serialize policy.deny))

def deserializeString : Json → Option String
  | .string s => some s
  | _ => none

def Policy.deserialize (v : Json) : Option Policy := do
  let field ← v.fields ["name", "rules", "deny"]
  let name ← field "name" >>= deserializeString
  let rules ← Json.defaulted [] (deserializeVec Rule.deserialize) (field "rules")
  let deny ← Json.defaulted [] (deserializeVec DenyRule.deserialize) (field "deny")
  some { name, rules, deny }

/-- The text of a JSON value, and what is said of a document that is refused. -/
structure JsonText where
  render : Json → String
  parse : String → Option Json
  complaint : String → String

/-- The documents of policies in such a text. -/
def JsonText.policies (text : JsonText) : PolicyJson where
  render policy := text.render policy.serialize
  parse document :=
    match text.parse document >>= Policy.deserialize with
    | some policy => .ok policy
    | none => .error (text.complaint document)

section RoundTrip

theorem Capability.deserialize_serialize
    (capability : Capability) :
    Capability.deserialize capability.serialize = some capability := by
  cases capability <;> decide

theorem Capability.mem_all
    (capability : Capability) :
    capability ∈ Capability.all := by
  cases capability <;> decide

theorem deserializeCapabilities_serialize
    (capabilities : Finset Capability) :
    deserializeCapabilities (serializeCapabilities capabilities) = some capabilities := by
  have hset : (Capability.all.filter fun c => decide (c ∈ capabilities)).toFinset =
      capabilities := by
    ext c
    simp [Capability.mem_all]
  simp only [deserializeCapabilities, serializeCapabilities, Json.items, Option.bind_eq_bind,
    Option.bind_some, Json.mapM_encoded Capability.deserialize_serialize, hset]

theorem PathPattern.deserialize_serialize
    (pattern : PathPattern) :
    PathPattern.deserialize pattern.serialize = some pattern := by
  have hnew : PathPattern.new pattern.asStr = .ok pattern := by
    rw [PathPattern.new, dif_pos pattern.valid]
  rw [PathPattern.serialize, PathPattern.deserialize, hnew]
  rfl

theorem deserializeTag_serializeTag
    (tag : Tag) :
    deserializeTag (serializeTag tag) = some tag := by
  rw [serializeTag, deserializeTag, Tag.parse_toText]
  rfl

theorem deserializeVec_encoded
    {α : Type} {encode : α → Json} {decode : Json → Option α}
    (h : ∀ a, decode (encode a) = some a) (as : List α) :
    deserializeVec decode (.array (as.map encode)) = some as := by
  simp [deserializeVec, Json.items, Json.mapM_encoded h]

theorem Rule.deserialize_serialize
    (rule : Rule) :
    Rule.deserialize rule.serialize = some rule := by
  have hfields := Json.fields_object
    (("path", rule.path.serialize) ::
      ("capabilities", serializeCapabilities rule.capabilities) ::
      Json.unlessEmpty "require_tags" serializeTag rule.requireTags)
    (((Json.map_fst_unlessEmpty "require_tags" serializeTag rule.requireTags).cons_cons
      "capabilities").cons_cons "path") (by decide)
  have htags := Json.defaulted_unlessEmpty
    (deserializeVec_encoded deserializeTag_serializeTag) rule.requireTags
    (List.lookup_nil : [].lookup "require_tags" = none)
  rw [List.append_nil] at htags
  rw [Rule.deserialize, Rule.serialize, hfields]
  simp [List.lookup_cons, PathPattern.deserialize_serialize, deserializeCapabilities_serialize,
    htags]

/-- Absent and empty capabilities stay apart. -/
theorem DenyRule.deserialize_serialize
    (rule : DenyRule) :
    DenyRule.deserialize rule.serialize = some rule := by
  obtain ⟨path, capabilities⟩ := rule
  cases capabilities with
  | none =>
      simp [DenyRule.deserialize, DenyRule.serialize, Json.fields, List.lookup_cons,
        PathPattern.deserialize_serialize, Json.defaulted]
  | some capabilities =>
      have hnullable : Json.nullable deserializeCapabilities
          (serializeCapabilities capabilities) = some (some capabilities) := by
        rw [← Option.map_some, ← deserializeCapabilities_serialize capabilities]
        rfl
      simp [DenyRule.deserialize, DenyRule.serialize, Json.fields, List.lookup_cons,
        PathPattern.deserialize_serialize, Json.defaulted, hnullable]

/-- A policy is read back from its value. -/
theorem Policy.deserialize_serialize
    (policy : Policy) :
    Policy.deserialize policy.serialize = some policy := by
  have hnames : ((Json.unlessEmpty "rules" Rule.serialize policy.rules ++
      Json.unlessEmpty "deny" DenyRule.serialize policy.deny).map Prod.fst).Sublist
        ["rules", "deny"] := by
    rw [List.map_append]
    exact (Json.map_fst_unlessEmpty "rules" Rule.serialize policy.rules).append
      (Json.map_fst_unlessEmpty "deny" DenyRule.serialize policy.deny)
  have hfields := Json.fields_object
    (("name", .string policy.name) ::
      (Json.unlessEmpty "rules" Rule.serialize policy.rules ++
        Json.unlessEmpty "deny" DenyRule.serialize policy.deny))
    (hnames.cons_cons "name") (by decide)
  have hdeny := Json.defaulted_unlessEmpty
    (deserializeVec_encoded DenyRule.deserialize_serialize) policy.deny
    (List.lookup_nil : [].lookup "deny" = none)
  have habsent := Json.lookup_unlessEmpty_ne DenyRule.serialize policy.deny []
    (show "rules" ≠ "deny" by decide)
  rw [List.append_nil] at hdeny habsent
  have hrules := Json.defaulted_unlessEmpty
    (deserializeVec_encoded Rule.deserialize_serialize) policy.rules habsent
  have hother := Json.lookup_unlessEmpty_ne Rule.serialize policy.rules
    (Json.unlessEmpty "deny" DenyRule.serialize policy.deny) (show "deny" ≠ "rules" by decide)
  rw [Policy.deserialize, Policy.serialize, hfields]
  simp [List.lookup_cons, deserializeString, hrules, hother, hdeny]

/-- The value of a policy is read back from its text. -/
def Policy.Lossless (text : JsonText) (policy : Policy) : Prop :=
  text.parse (text.render policy.serialize) = some policy.serialize

theorem Policy.rereads_of_lossless
    {text : JsonText} {policy : Policy}
    (h : policy.Lossless text) :
    policy.Rereads text.policies := by
  unfold Policy.Rereads Policy.fromJson Policy.toJson JsonText.policies
  unfold Policy.Lossless at h
  simp only [h, Option.bind_eq_bind, Option.bind_some, Policy.deserialize_serialize]
  rfl

end RoundTrip

end Policies
end Secretbae
