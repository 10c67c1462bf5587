import Secretbae.Audit.Entry

/-!
# The audit entries the daemon writes

Four places in `sbae-daemon` build audit entries: `record` after an operation,
`record_denial` for a caller turned away, and the two start-up entries.  All
their texts are bounded: a token's lookup prefix has 8 characters, a path is a
`SecretPath`, a detail is one of the strings below.

`DaemonBuilt.canonical_short` draws the consequence that the chain needs: the
encoding of such an entry is short enough to be unambiguous.
-/

namespace Secretbae
namespace Daemon

open Lib Proto Audit

def prefixChars : Nat := 8

/-- `A`-`Z` and `2`-`7`, the alphabet of `BASE32_NOPAD`. -/
def isBase32Byte (b : UInt8) : Bool :=
  (65 ≤ b && b ≤ 90) || (50 ≤ b && b ≤ 55)

/-- The public, indexed half of a token. -/
structure LookupPrefix where
  asStr : String
  size : asStr.utf8ByteSize = prefixChars
  base32 : (utf8 asStr).all isBase32Byte = true

/-- `SO_PEERCRED` of the connection. -/
structure PeerCredentials where
  uid : UInt32
  pid : Int32

/-- `i32::unsigned_abs`. -/
def unsignedAbs (x : Int32) : UInt32 :=
  UInt32.ofNat x.toInt.natAbs

inductive AuthFailure where
  | unknownToken
  | expired
  | revoked
  | peerMismatch (expected actual : UInt32)

/-- The framing rules of the resolve socket a request can break. -/
inductive Violation where
  | malformedRequestLine
  | unknownVerb
  | malformedProtocolVersion
  | unsupportedProtocolVersion
  | malformedPathCount
  | tooManyPaths
  | requestTruncated
  | malformedPath
  | malformedVersion
  | lineTooLong
  | timedOut

def Violation.reason : Violation → String
  | .malformedRequestLine => "malformed request line"
  | .unknownVerb => "unknown verb"
  | .malformedProtocolVersion => "malformed protocol version"
  | .unsupportedProtocolVersion => "unsupported protocol version"
  | .malformedPathCount => "malformed path count"
  | .tooManyPaths => "too many paths requested"
  | .requestTruncated => "request truncated"
  | .malformedPath => "malformed path"
  | .malformedVersion => "malformed version"
  | .lineTooLong => "line too long or not valid UTF-8"
  | .timedOut => "timed out waiting for the client"

/-- Every way a request can be turned away. -/
inductive Denied where
  | missingToken
  | malformedToken
  | authentication (failure : AuthFailure)
  | noGrant
  | unknownRoute
  | protocolViolation (violation : Violation)

/-- `Denied::audit_detail`. -/
def Denied.auditDetail : Denied → String
  | .missingToken => "no token presented"
  | .malformedToken => "malformed token"
  | .authentication .unknownToken => "unknown token or wrong secret"
  | .authentication .expired => "token expired"
  | .authentication .revoked => "token revoked"
  | .authentication (.peerMismatch _ _) => "token is bound to a different uid"
  | .noGrant => "no policy grants this capability on this path"
  | .unknownRoute => "unknown route"
  | .protocolViolation violation => violation.reason

theorem Denied.auditDetail_size
    (d : Denied) :
    d.auditDetail.utf8ByteSize ≤ 45 := by
  cases d with
  | authentication failure =>
      cases failure <;> simp only [Denied.auditDetail] <;> decide
  | protocolViolation violation =>
      cases violation <;> decide
  | missingToken => decide
  | malformedToken => decide
  | noGrant => decide
  | unknownRoute => decide

def LookupPrefix.text (p : LookupPrefix) : Text :=
  ⟨p.asStr, by rw [p.size]; decide⟩

/-- A path as an audit entry stores it. -/
def auditPath (p : SecretPath) : Text :=
  ⟨p.asStr, by
    have hle : p.asStr.utf8ByteSize ≤ 512 := p.utf8ByteSize_le
    omega⟩

def Denied.text (d : Denied) : Text :=
  ⟨d.auditDetail, by have := d.auditDetail_size; omega⟩

/-- The entry that `record` appends. -/
def recordEntry (ts : Int64) (tokenPrefix : LookupPrefix) (peer : PeerCredentials)
    (action : Action) (result : AuditResult) (path : Option SecretPath)
    (version : Option Version) : AuditEntry :=
  { AuditEntry.new ts action result with
    tokenPrefix := some tokenPrefix.text
    peerUid := some peer.uid
    peerPid := some (unsignedAbs peer.pid)
    path := path.map auditPath
    version := version }

/-- The entry that `record_denial` appends. -/
def denialEntry (ts : Int64) (peer : PeerCredentials) (path : Option SecretPath)
    (denied : Denied) : AuditEntry :=
  { AuditEntry.new ts .authFailure .denied with
    peerUid := some peer.uid
    peerPid := some (unsignedAbs peer.pid)
    detail := some denied.text
    path := path.map auditPath }

/-- The entry that `record_unseal` appends at every start. -/
def unsealEntry (ts : Int64) (uid : UInt32) : AuditEntry :=
  { AuditEntry.new ts .unseal .success with peerUid := some uid }

/-- The entry that `initialise` appends. -/
def initEntry (ts : Int64) : AuditEntry :=
  AuditEntry.new ts .init .success

/-- An entry built by one of the daemon's functions. -/
inductive DaemonBuilt : AuditEntry → Prop
  | recorded (ts tokenPrefix peer action result path version) :
      DaemonBuilt (recordEntry ts tokenPrefix peer action result path version)
  | denied (ts peer path denied) :
      DaemonBuilt (denialEntry ts peer path denied)
  | unsealed (ts uid) :
      DaemonBuilt (unsealEntry ts uid)
  | initialised (ts) :
      DaemonBuilt (initEntry ts)

theorem auditPath_length
    (path : Option SecretPath) :
    ((path.map auditPath).elim 1 (fun t => 4 + t.bytes.length)) ≤ 516 := by
  cases path with
  | none =>
      simp
  | some p =>
      have hle : p.asStr.utf8ByteSize ≤ 512 := p.utf8ByteSize_le
      simp only [Option.map_some, Option.elim_some, Text.bytes, auditPath, utf8_length]
      omega

/-- The daemon's entries have short encodings. -/
theorem DaemonBuilt.canonical_short
    {e : AuditEntry}
    (h : DaemonBuilt e) :
    e.canonical.length < 1279 := by
  have ha := e.action.asStr_size
  have hr := e.result.asStr_size
  rw [e.canonical_length]
  cases h with
  | recorded ts tokenPrefix peer action result path version =>
      have hpath := auditPath_length path
      have hlead : tokenPrefix.asStr.utf8ByteSize = 8 := tokenPrefix.size
      have hversion : version.elim 1 (fun _ => 8) ≤ 8 := by
        cases version <;> simp
      simp only [recordEntry, AuditEntry.new, Option.elim_some, Option.elim_none,
        Text.bytes, LookupPrefix.text, utf8_length] at ha hr hpath ⊢
      omega
  | denied ts peer path denied =>
      have hpath := auditPath_length path
      have hdetail := denied.auditDetail_size
      simp only [denialEntry, AuditEntry.new, Option.elim_some, Option.elim_none,
        Text.bytes, Denied.text, utf8_length] at ha hr hpath ⊢
      omega
  | unsealed ts uid =>
      simp only [unsealEntry, AuditEntry.new, Option.elim_some, Option.elim_none] at ha hr ⊢
      omega
  | initialised ts =>
      simp only [initEntry, AuditEntry.new, Option.elim_none] at ha hr ⊢
      omega

end Daemon
end Secretbae
