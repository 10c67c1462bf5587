import Secretbae.Proto.Codecs
import Secretbae.Service.RoundTrip

/-!
# The messages of the wire contract

The requests and responses as structs of JSON.  A route has at most one body;
`body_read_iff` says which values the daemon reads as a given body: those that
have its members, in any order, except that a member with its default may be
left out or spelled out.  Nothing unknown is accepted, nothing repeated and
nothing twice under different spellings.
-/

namespace Secretbae
namespace Service

open Lib Proto Core Audit Storage Policies

section Fields

variable {α : Type}

theorem notNull_string : Codec.string.NotNull :=
  rfl

theorem notNull_u32Codec : u32Codec.NotNull :=
  rfl

theorem notNull_u64Codec : u64Codec.NotNull :=
  rfl

theorem notNull_versionCodec : versionCodec.NotNull :=
  rfl

/-- `default, skip_serializing_if = "Option::is_none"`. -/
def orNone (name : String) (c : Codec α) (h : c.NotNull) : Record (Option α) :=
  .field (.defaulted name (c.nullable h) none Option.isNone fun _ => Option.isNone_iff_eq_none.mp)

/-- `default, skip_serializing_if = "Vec::is_empty"`. -/
def orEmpty (name : String) (c : Codec α) : Record (List α) :=
  .field (.defaulted name c.list [] List.isEmpty fun _ => List.isEmpty_iff.mp)

/-- A field without attributes. -/
def plainly (name : String) (c : Codec α) : Record α :=
  .field (.required name c)

theorem exact_orNone
    {name : String} {c : Codec α} {h : c.NotNull}
    (hc : c.Exact) :
    (orNone name c h).Exact :=
  Record.exact_field (Field.exact_defaulted hc.nullable)

theorem exact_orEmpty
    {name : String} {c : Codec α}
    (hc : c.Exact) :
    (orEmpty name c).Exact :=
  Record.exact_field (Field.exact_defaulted hc.list)

theorem exact_plainly
    {name : String} {c : Codec α}
    (hc : c.Exact) :
    (plainly name c).Exact :=
  Record.exact_field (Field.exact_required hc)

end Fields

namespace Api

section Requests

/-- `api::PathRequest`. -/
def pathRequest : Record SecretPath :=
  plainly "path" pathCodec

/-- `api::ReadRequest`. -/
def readRequest : Record ReadRequest :=
  ((plainly "path" pathCodec).and (orNone "version" versionCodec notNull_versionCodec)
    (by decide)).map
    ⟨fun p => ⟨p.1, p.2⟩, fun r => (r.path, r.version), fun _ => rfl, fun _ => rfl⟩

/-- `api::WriteRequest`. -/
def writeRequest : Record WriteRequest :=
  ((plainly "path" pathCodec).and ((plainly "value" Codec.string).and
    ((orEmpty "tags" tagCodec).and (orNone "comment" Codec.string notNull_string)
      (by decide)) (by decide)) (by decide)).map
    ⟨fun p => ⟨p.1, p.2.1, p.2.2.1, p.2.2.2⟩, fun r => (r.path, r.value, r.tags, r.comment),
      fun _ => rfl, fun _ => rfl⟩

/-- `api::ListRequest`. -/
def listRequest : Record ListRequest :=
  ((orNone "prefix" Codec.string notNull_string).and (orEmpty "tags" tagCodec) (by decide)).map
    ⟨fun p => ⟨p.1, p.2⟩, fun r => (r.pathPrefix, r.tags), fun _ => rfl, fun _ => rfl⟩

/-- `api::RollbackRequest`. -/
def rollbackRequest : Record RollbackRequest :=
  ((plainly "path" pathCodec).and (plainly "to" versionCodec) (by decide)).map
    ⟨fun p => ⟨p.1, p.2⟩, fun r => (r.path, r.target), fun _ => rfl, fun _ => rfl⟩

/-- `api::DeleteRequest`; `destroy` is written even where it is the default. -/
def deleteRequest : Record DeleteRequest :=
  ((plainly "path" pathCodec).and ((orNone "version" versionCodec notNull_versionCodec).and
    (.field (.defaulted "destroy" Codec.bool false (fun _ => false) nofun)) (by decide))
      (by decide)).map
    ⟨fun p => ⟨p.1, p.2.1, p.2.2⟩, fun r => (r.path, r.version, r.destroy), fun _ => rfl,
      fun _ => rfl⟩

/-- `api::TagRequest`. -/
def tagRequest : Record TagRequest :=
  ((plainly "path" pathCodec).and (plainly "tags" tagCodec.list) (by decide)).map
    ⟨fun p => ⟨p.1, p.2⟩, fun r => (r.path, r.tags), fun _ => rfl, fun _ => rfl⟩

/-- `api::TagRemoveRequest`, with selectors that a text can name. -/
def tagRemoveRequest : Record (SecretPath × List NamedSelector) :=
  (plainly "path" pathCodec).and (plainly "tags" selectorCodec.list) (by decide)

/-- `api::ResolveRequest`. -/
def resolveRequest : Record (List SecretPath) :=
  plainly "paths" pathCodec.list

/-- `api::TokenCreateRequest`. -/
def tokenCreateRequest : Record TokenCreateRequest :=
  ((plainly "name" Codec.string).and ((plainly "policies" Codec.string.list).and
    ((orNone "bind_uid" u32Codec notNull_u32Codec).and
      (orNone "ttl_seconds" u64Codec notNull_u64Codec) (by decide)) (by decide)) (by decide)).map
    ⟨fun p => ⟨p.1, p.2.1, p.2.2.1, p.2.2.2⟩,
      fun r => (r.name, r.policies, r.bindUid, r.ttlSeconds), fun _ => rfl, fun _ => rfl⟩

/-- `api::TokenRevokeRequest`. -/
def tokenRevokeRequest : Record String :=
  plainly "prefix" Codec.string

/-- `api::PolicyPutRequest`. -/
def policyPutRequest : Record String :=
  plainly "document" Codec.string

/-- `api::NameRequest`. -/
def nameRequest : Record String :=
  plainly "name" Codec.string

/-- `api::BackupRequest`. -/
def backupRequest : Record String :=
  plainly "passphrase" Codec.string

/-- `api::RestoreRequest`. -/
def restoreRequest : Record RestoreRequest :=
  ((plainly "passphrase" Codec.string).and (plainly "bundle" Codec.string) (by decide)).map
    ⟨fun p => ⟨p.1, p.2⟩, fun r => (r.passphrase, r.bundle), fun _ => rfl, fun _ => rfl⟩

end Requests

section Responses

/-- `api::ReadResponse`. -/
def readResponse : Record ReadResponse :=
  ((plainly "path" pathCodec).and ((plainly "version" versionCodec).and
    (plainly "value" Codec.string) (by decide)) (by decide)).map
    ⟨fun p => ⟨p.1, p.2.1, p.2.2⟩, fun r => (r.path, r.version, r.value), fun _ => rfl,
      fun _ => rfl⟩

/-- `api::ErrorResponse`, which has no `deny_unknown_fields`. -/
def errorResponse : Codec String where
  encode message := .object [("error", .string message)]
  decode
    | .object members =>
        match members.filter fun member => decide (member.1 = "error") with
        | [(_, .string message)] => some message
        | _ => none
    | .array [.string message] => some message
    | _ => none
  decode_encode _ := rfl

end Responses

section Bundle

/-- `api::BackupVersion`. -/
def backupVersionRecord : Record BackupVersion :=
  ((plainly "version" versionCodec).and ((plainly "state" stateCodec).and
    ((plainly "created_at" Codec.string).and
      ((Record.field (.optional "created_by" Codec.string notNull_string)).and
        ((Record.field (.optional "comment" Codec.string notNull_string)).and
          (.field (.optional "value" Codec.string notNull_string)) (by decide)) (by decide))
            (by decide)) (by decide)) (by decide)).map
    ⟨fun p => ⟨p.1, p.2.1, p.2.2.1, p.2.2.2.1, p.2.2.2.2.1, p.2.2.2.2.2⟩,
      fun v => (v.version, v.state, v.createdAt, v.createdBy, v.comment, v.value),
      fun _ => rfl, fun _ => rfl⟩

/-- `api::BackupSecret`. -/
def backupSecretRecord : Record BackupSecret :=
  ((plainly "path" pathCodec).and ((plainly "tags" tagCodec.list).and
    ((plainly "max_versions" u32Codec).and
      ((Record.field (.optional "current_version" versionCodec notNull_versionCodec)).and
        (plainly "versions" backupVersionRecord.codec.list) (by decide)) (by decide))
          (by decide)) (by decide)).map
    ⟨fun p => ⟨p.1, p.2.1, p.2.2.1, p.2.2.2.1, p.2.2.2.2⟩,
      fun s => (s.path, s.tags, s.maxVersions, s.currentVersion, s.versions), fun _ => rfl,
      fun _ => rfl⟩

/-- `api::BackupBundle`. -/
def backupBundleRecord : Record BackupBundle :=
  ((plainly "created_at" Codec.string).and ((plainly "secrets" backupSecretRecord.codec.list).and
    (plainly "policies" Codec.string.list) (by decide)) (by decide)).map
    ⟨fun p => ⟨p.1, p.2.1, p.2.2⟩, fun b => (b.createdAt, b.secrets, b.policies),
      fun _ => rfl, fun _ => rfl⟩

end Bundle

end Api

/-- Bundles in a format of JSON. -/
def Foreign.withBundles (F : Foreign) (T : JsonBytes) : Foreign :=
  { F with
    bundleToJson := T.encode Api.backupBundleRecord.codec
    bundleFromJson := T.decode Api.backupBundleRecord.codec }

/-- A bundle is read back as soon as its value is. -/
theorem CodecsReread.withBundles
    {F : Foreign} {T : JsonBytes} {P : Primitives} {s : State P} {now : UnixTime}
    (hbase64 : ∀ bytes, F.base64Decode (F.base64Encode bytes) = some bytes)
    (htimes : ∀ r ∈ s.db.store.versions.rows, TimeRereads F r)
    (hbundle : ∀ bundle, backupBundle P (F.withBundles T) s.keys s.db.store s.access now =
      .ok bundle → T.Rereads (Api.backupBundleRecord.codec.encode bundle)) :
    CodecsReread (F.withBundles T) s now where
  base64 := hbase64
  json bundle h := JsonBytes.decode_encode (hbundle bundle h)
  times := htimes

/-- What the handler of a route takes from the body of a request. -/
inductive BodyFormat (α : Type) where
  | json (record : Record α) (exact : record.Exact)
  /-- The handler does not look at the body; the client sends an empty object. -/
  | ignored (a : α) (only : ∀ b, b = a)

namespace BodyFormat

variable {α : Type}

def encode : BodyFormat α → α → Json
  | .json record _, a => record.codec.encode a
  | .ignored _ _, _ => .object []

def decode : BodyFormat α → Json → Option α
  | .json record _, v => record.codec.decode v
  | .ignored a _, _ => some a

/-- The value has the members of the body, up to their order and to defaults. -/
def Accepts : BodyFormat α → α → Json → Prop
  | .json record _, a, v => record.Accepts a v
  | .ignored _ _, _, _ => True

theorem decode_iff
    (format : BodyFormat α) (a : α) (v : Json) :
    format.decode v = some a ↔ format.Accepts a v := by
  cases format with
  | json record exact => exact Record.decode_iff exact
  | ignored b only => simp [decode, Accepts, only a]

theorem decode_encode
    (format : BodyFormat α) (a : α) :
    format.decode (format.encode a) = some a := by
  cases format with
  | json record exact => exact record.codec.decode_encode a
  | ignored b only => exact congrArg some (only a).symm

end BodyFormat

/-- The type of the body. -/
def Route.Body : Route → Type
  | .read => ReadRequest
  | .write => WriteRequest
  | .list => ListRequest
  | .versions => SecretPath
  | .rollback => RollbackRequest
  | .delete => DeleteRequest
  | .tagAdd => TagRequest
  | .tagRemove => SecretPath × List NamedSelector
  | .resolve => List SecretPath
  | .tokenCreate => TokenCreateRequest
  | .tokenRevoke | .policyPut | .policyDelete | .backup => String
  | .restore => RestoreRequest
  | .status | .tokenList | .policyList | .auditVerify | .rekey | .other _ => Unit

/-- The `Json` extractor of the handler. -/
def Route.format : (route : Route) → BodyFormat route.Body
  | .read => .json Api.readRequest
      ((exact_plainly exact_pathCodec).and (exact_orNone exact_versionCodec)).map
  | .write => .json Api.writeRequest
      ((exact_plainly exact_pathCodec).and ((exact_plainly Codec.exact_string).and
        ((exact_orEmpty exact_tagCodec).and (exact_orNone Codec.exact_string)))).map
  | .list => .json Api.listRequest
      ((exact_orNone Codec.exact_string).and (exact_orEmpty exact_tagCodec)).map
  | .versions => .json Api.pathRequest (exact_plainly exact_pathCodec)
  | .rollback => .json Api.rollbackRequest
      ((exact_plainly exact_pathCodec).and (exact_plainly exact_versionCodec)).map
  | .delete => .json Api.deleteRequest
      ((exact_plainly exact_pathCodec).and ((exact_orNone exact_versionCodec).and
        (Record.exact_field (Field.exact_defaulted Codec.exact_bool)))).map
  | .tagAdd => .json Api.tagRequest
      ((exact_plainly exact_pathCodec).and (exact_plainly exact_tagCodec.list)).map
  | .tagRemove => .json Api.tagRemoveRequest
      ((exact_plainly exact_pathCodec).and (exact_plainly exact_selectorCodec.list))
  | .resolve => .json Api.resolveRequest (exact_plainly exact_pathCodec.list)
  | .tokenCreate => .json Api.tokenCreateRequest
      ((exact_plainly Codec.exact_string).and ((exact_plainly Codec.exact_string.list).and
        ((exact_orNone exact_u32Codec).and (exact_orNone exact_u64Codec)))).map
  | .tokenRevoke => .json Api.tokenRevokeRequest (exact_plainly Codec.exact_string)
  | .policyPut => .json Api.policyPutRequest (exact_plainly Codec.exact_string)
  | .policyDelete => .json Api.nameRequest (exact_plainly Codec.exact_string)
  | .backup => .json Api.backupRequest (exact_plainly Codec.exact_string)
  | .restore => .json Api.restoreRequest
      ((exact_plainly Codec.exact_string).and (exact_plainly Codec.exact_string)).map
  | .status | .tokenList | .policyList | .auditVerify | .rekey | .other _ =>
      .ignored () fun _ => rfl

/--
The daemon reads a body from the value that the client writes for it, and from
no other value but those that order its members differently or spell defaults
out or leave them out.
-/
theorem body_read_iff
    (route : Route) (body : route.Body) :
    route.format.decode (route.format.encode body) = some body ∧
      ∀ v, route.format.decode v = some body ↔ route.format.Accepts body v :=
  ⟨route.format.decode_encode body, route.format.decode_iff body⟩

end Service
end Secretbae
