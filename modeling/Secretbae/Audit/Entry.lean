import Secretbae.Proto.Types

/-!
# Audit entries and their canonical encoding

An audit entry is encoded field by field: a mandatory field is a 4-byte
little-endian length followed by its bytes, an absent optional field is the
single byte `0xFF`.

The marker of an absent field is also the low byte of the length of a field of
255, 511, 767, ... bytes, so the encoding is read back only with the help of
the byte after it.  `canonical_inj_of_short` makes this precise: an entry whose
encoding has fewer than 1279 bytes shares it with no other entry of any size.
The bound is exact in the sense that 1279 is the first length whose prefix
`FF 04 00 00` can be taken for an absent field followed by a 4-byte one.
-/

namespace Secretbae
namespace Audit

open Lib Proto

/-- A string whose length fits the 4-byte prefix; longer ones abort the encoder. -/
structure Text where
  str : String
  fits : str.utf8ByteSize < 2 ^ 32
deriving DecidableEq

def Text.bytes (t : Text) : Bytes :=
  utf8 t.str

theorem Text.bytes_inj
    {s t : Text}
    (h : s.bytes = t.bytes) :
    s = t := by
  obtain ⟨s, hs⟩ := s
  obtain ⟨t, ht⟩ := t
  have : s = t := utf8_inj h
  subst this
  rfl

theorem Text.bytes_length_lt
    (t : Text) :
    t.bytes.length < 256 ^ 4 :=
  t.fits

/-- Action performed by a caller or system component. -/
inductive Action where
  | init
  | unseal
  | read
  | write
  | delete
  | rollback
  | list
  | tag
  | tokenCreate
  | tokenRevoke
  | policyWrite
  | resolve
  | authFailure
  | rekey
  | backup
  | restore
deriving DecidableEq

def Action.asStr : Action → String
  | .init => "init"
  | .unseal => "unseal"
  | .read => "read"
  | .write => "write"
  | .delete => "delete"
  | .rollback => "rollback"
  | .list => "list"
  | .tag => "tag"
  | .tokenCreate => "token_create"
  | .tokenRevoke => "token_revoke"
  | .policyWrite => "policy_write"
  | .resolve => "resolve"
  | .authFailure => "auth_failure"
  | .rekey => "rekey"
  | .backup => "backup"
  | .restore => "restore"

/-- `Action::parse`; `none` is `UnknownAction`. -/
def Action.parse : String → Option Action
  | "init" => some .init
  | "unseal" => some .unseal
  | "read" => some .read
  | "write" => some .write
  | "delete" => some .delete
  | "rollback" => some .rollback
  | "list" => some .list
  | "tag" => some .tag
  | "token_create" => some .tokenCreate
  | "token_revoke" => some .tokenRevoke
  | "policy_write" => some .policyWrite
  | "resolve" => some .resolve
  | "auth_failure" => some .authFailure
  | "rekey" => some .rekey
  | "backup" => some .backup
  | "restore" => some .restore
  | _ => none

/-- Outcome of an audited operation. -/
inductive AuditResult where
  | success
  | denied
  | notFound
  | error
deriving DecidableEq

def AuditResult.asStr : AuditResult → String
  | .success => "success"
  | .denied => "denied"
  | .notFound => "not_found"
  | .error => "error"

/-- `AuditResult::parse`; `none` is `UnknownResult`. -/
def AuditResult.parse : String → Option AuditResult
  | "success" => some .success
  | "denied" => some .denied
  | "not_found" => some .notFound
  | "error" => some .error
  | _ => none

@[simp] theorem Action.parse_asStr
    (a : Action) :
    Action.parse a.asStr = some a := by
  cases a <;> rfl

@[simp] theorem AuditResult.parse_asStr
    (r : AuditResult) :
    AuditResult.parse r.asStr = some r := by
  cases r <;> rfl

/-- Only the stored representation of an action parses to it. -/
theorem Action.parse_eq_some
    {s : String} {a : Action}
    (h : Action.parse s = some a) :
    s = a.asStr := by
  unfold Action.parse at h
  split at h <;> cases h <;> rfl

theorem AuditResult.parse_eq_some
    {s : String} {r : AuditResult}
    (h : AuditResult.parse s = some r) :
    s = r.asStr := by
  unfold AuditResult.parse at h
  split at h <;> cases h <;> rfl

theorem Action.asStr_size
    (a : Action) :
    3 ≤ a.asStr.utf8ByteSize ∧ a.asStr.utf8ByteSize ≤ 12 := by
  cases a <;> decide

theorem AuditResult.asStr_size
    (r : AuditResult) :
    5 ≤ r.asStr.utf8ByteSize ∧ r.asStr.utf8ByteSize ≤ 9 := by
  cases r <;> decide

/-- An event to be appended to the audit log. -/
structure AuditEntry where
  ts : Int64
  tokenPrefix : Option Text
  peerUid : Option UInt32
  peerPid : Option UInt32
  action : Action
  path : Option Text
  version : Option Version
  result : AuditResult
  detail : Option Text
deriving DecidableEq

/-- `AuditEntry::new` at the time `ts`. -/
def AuditEntry.new (ts : Int64) (action : Action) (result : AuditResult) :
    AuditEntry where
  ts := ts
  tokenPrefix := none
  peerUid := none
  peerPid := none
  action := action
  path := none
  version := none
  result := result
  detail := none

/-- `encode_field`. -/
def encodeField (bytes : Bytes) : Bytes :=
  leBytes 4 bytes.length ++ bytes

/-- `encode_opt_field`: `0xFF` distinguishes absence from an empty value. -/
def encodeOptField : Option Bytes → Bytes
  | some bytes => encodeField bytes
  | none => [0xFF]

/-- `i64::to_le_bytes`. -/
def i64Bytes (x : Int64) : Bytes :=
  leBytes 8 x.toUInt64.toNat

/-- `u32::to_le_bytes`. -/
def u32Bytes (x : UInt32) : Bytes :=
  leBytes 4 x.toNat

/-- `AuditEntry::canonical`. -/
def AuditEntry.canonical (e : AuditEntry) : Bytes :=
  encodeField (i64Bytes e.ts) ++
    (encodeOptField (e.tokenPrefix.map Text.bytes) ++
    (encodeOptField (e.peerUid.map u32Bytes) ++
    (encodeOptField (e.peerPid.map u32Bytes) ++
    (encodeField (utf8 e.action.asStr) ++
    (encodeOptField (e.path.map Text.bytes) ++
    (encodeOptField (e.version.map (fun v => u32Bytes v.get)) ++
    (encodeField (utf8 e.result.asStr) ++
    encodeOptField (e.detail.map Text.bytes))))))))

theorem i64Bytes_inj
    {x y : Int64}
    (h : i64Bytes x = i64Bytes y) :
    x = y := by
  have hnat : x.toUInt64.toNat = y.toUInt64.toNat :=
    leBytes_inj x.toUInt64.toNat_lt y.toUInt64.toNat_lt h
  have hu : x.toUInt64 = y.toUInt64 := UInt64.toNat_inj.mp hnat
  cases x
  cases y
  cases hu
  rfl

theorem u32Bytes_inj
    {x y : UInt32}
    (h : u32Bytes x = u32Bytes y) :
    x = y :=
  UInt32.toNat_inj.mp (leBytes_inj x.toNat_lt y.toNat_lt h)

@[simp] theorem i64Bytes_length (x : Int64) :
    (i64Bytes x).length = 8 :=
  leBytes_length 8 _

@[simp] theorem u32Bytes_length (x : UInt32) :
    (u32Bytes x).length = 4 :=
  leBytes_length 4 _

@[simp] theorem encodeField_length
    (b : Bytes) :
    (encodeField b).length = 4 + b.length := by
  simp [encodeField]

theorem encodeOptField_length
    (b : Option Bytes) :
    (encodeOptField b).length = b.elim 1 (fun bs => 4 + bs.length) := by
  cases b <;> simp [encodeOptField]

/-- A length-prefixed field is taken off the front unambiguously. -/
theorem encodeField_append_inj
    {x y r s : Bytes}
    (hx : x.length < 256 ^ 4)
    (hy : y.length < 256 ^ 4)
    (h : encodeField x ++ r = encodeField y ++ s) :
    x = y ∧ r = s := by
  simp only [encodeField, List.append_assoc] at h
  obtain ⟨hlen, hrest⟩ := List.append_inj h (by simp)
  exact List.append_inj hrest (leBytes_inj hx hy hlen)

/-- An optional field of a fixed width of 4 bytes is taken off unambiguously. -/
theorem encodeOptField_u32_append_inj
    {x y : Option UInt32} {r s : Bytes}
    (h :
      encodeOptField (x.map u32Bytes) ++ r =
        encodeOptField (y.map u32Bytes) ++ s) :
    x = y ∧ r = s := by
  have hfirst :
      ∀ (u : UInt32) (t : Bytes),
        encodeOptField (some (u32Bytes u)) ++ t = 4 :: 0 :: 0 :: 0 :: (u32Bytes u ++ t) := by
    intro u t
    simp [encodeOptField, encodeField]
    rfl
  cases x with
  | none =>
      cases y with
      | none =>
          exact ⟨rfl, by simpa [encodeOptField] using h⟩
      | some v =>
          rw [Option.map_some, hfirst] at h
          simp [encodeOptField] at h
  | some u =>
      cases y with
      | none =>
          rw [Option.map_some, hfirst] at h
          simp [encodeOptField] at h
      | some v =>
          simp only [Option.map_some, encodeOptField] at h
          obtain ⟨huv, hrs⟩ :=
            encodeField_append_inj (by simp) (by simp) h
          exact ⟨by rw [u32Bytes_inj huv], hrs⟩

/-- What follows an optional string starts with a byte of at least 4. -/
def StartsHigh (r : Bytes) : Prop :=
  ∃ b t, r = b :: t ∧ 4 ≤ b.toNat

theorem startsHigh_optU32
    (x : Option UInt32) (r : Bytes) :
    StartsHigh (encodeOptField (x.map u32Bytes) ++ r) := by
  cases x with
  | none =>
      exact ⟨0xFF, r, rfl, by decide⟩
  | some u =>
      refine ⟨4, 0 :: 0 :: 0 :: (u32Bytes u ++ r), ?_, by decide⟩
      simp [encodeOptField, encodeField]
      rfl

/-- A field taken for an absent one has at least 1279 bytes. -/
theorem length_of_absent_eq_field
    {y r s : Bytes}
    (hy : y.length < 256 ^ 4)
    (hr : StartsHigh r)
    (h : 0xFF :: r = encodeField y ++ s) :
    1279 ≤ y.length := by
  obtain ⟨b, t, rfl, hb⟩ := hr
  simp only [encodeField, leBytes, List.cons_append, List.cons.injEq] at h
  obtain ⟨h0, h1, _⟩ := h
  have h0' : y.length % 256 = 255 := by
    have := congrArg UInt8.toNat h0
    simpa [UInt8.toNat_ofNat'] using this.symm
  have h1' : b.toNat = y.length / 256 % 256 := by
    have := congrArg UInt8.toNat h1
    simpa [UInt8.toNat_ofNat'] using this
  omega

/--
An optional string is taken off unambiguously when a high byte follows, unless
it is a long one that the other side does not have.
-/
theorem encodeOptField_append_inj
    {x y : Option Text} {r s : Bytes}
    (hx : ∀ t ∈ x, y = none → t.bytes.length < 1279)
    (hy : ∀ t ∈ y, x = none → t.bytes.length < 1279)
    (hr : StartsHigh r)
    (hs : StartsHigh s)
    (h :
      encodeOptField (x.map Text.bytes) ++ r =
        encodeOptField (y.map Text.bytes) ++ s) :
    x = y ∧ r = s := by
  cases x with
  | none =>
      cases y with
      | none =>
          exact ⟨rfl, by simpa [encodeOptField] using h⟩
      | some v =>
          have hlong := length_of_absent_eq_field v.bytes_length_lt hr h
          have := hy v rfl rfl
          omega
  | some u =>
      cases y with
      | none =>
          have hlong := length_of_absent_eq_field u.bytes_length_lt hs h.symm
          have := hx u rfl rfl
          omega
      | some v =>
          obtain ⟨huv, hrs⟩ :=
            encodeField_append_inj u.bytes_length_lt v.bytes_length_lt h
          exact ⟨by rw [Text.bytes_inj huv], hrs⟩

/-- The last optional string is read back whatever its length. -/
theorem encodeOptField_inj
    {x y : Option Text}
    (h :
      encodeOptField (x.map Text.bytes) =
        encodeOptField (y.map Text.bytes)) :
    x = y := by
  have hlen := congrArg List.length h
  cases x with
  | none =>
      cases y with
      | none =>
          rfl
      | some v =>
          simp [encodeOptField_length] at hlen
          omega
  | some u =>
      cases y with
      | none =>
          simp [encodeOptField_length] at hlen
          omega
      | some v =>
          simp only [Option.map_some, encodeOptField] at h
          obtain ⟨huv, _⟩ :=
            encodeField_append_inj (r := []) (s := [])
              u.bytes_length_lt v.bytes_length_lt (by simpa using h)
          rw [Text.bytes_inj huv]

theorem AuditEntry.canonical_length
    (e : AuditEntry) :
    e.canonical.length =
      (e.tokenPrefix.elim 1 (fun t => 4 + t.bytes.length)) +
      (e.peerUid.elim 1 (fun _ => 8)) +
      (e.peerPid.elim 1 (fun _ => 8)) +
      (e.path.elim 1 (fun t => 4 + t.bytes.length)) +
      (e.version.elim 1 (fun _ => 8)) +
      (e.detail.elim 1 (fun t => 4 + t.bytes.length)) +
      e.action.asStr.utf8ByteSize + e.result.asStr.utf8ByteSize + 20 := by
  obtain ⟨ts, tp, uid, pid, a, p, v, r, d⟩ := e
  have htp : (encodeOptField (tp.map Text.bytes)).length =
      tp.elim 1 (fun t => 4 + t.bytes.length) := by
    cases tp <;> simp [encodeOptField_length]
  have huid : (encodeOptField (uid.map u32Bytes)).length =
      uid.elim 1 (fun _ => 8) := by
    cases uid <;> simp [encodeOptField_length]
  have hpid : (encodeOptField (pid.map u32Bytes)).length =
      pid.elim 1 (fun _ => 8) := by
    cases pid <;> simp [encodeOptField_length]
  have hp : (encodeOptField (p.map Text.bytes)).length =
      p.elim 1 (fun t => 4 + t.bytes.length) := by
    cases p <;> simp [encodeOptField_length]
  have hv : (encodeOptField (v.map (fun v => u32Bytes v.get))).length =
      v.elim 1 (fun _ => 8) := by
    cases v <;> simp [encodeOptField_length]
  have hd : (encodeOptField (d.map Text.bytes)).length =
      d.elim 1 (fun t => 4 + t.bytes.length) := by
    cases d <;> simp [encodeOptField_length]
  simp only [AuditEntry.canonical, List.length_append, encodeField_length,
    i64Bytes_length, utf8_length, htp, huid, hpid, hp, hv, hd]
  omega

/-- Every canonical encoding has at least 34 bytes. -/
theorem AuditEntry.canonical_length_ge
    (e : AuditEntry) :
    34 ≤ e.canonical.length := by
  have ha := e.action.asStr_size
  have hr := e.result.asStr_size
  have hopt : ∀ (o : Option Text), 1 ≤ o.elim 1 (fun t => 4 + t.bytes.length) := by
    intro o
    cases o <;> simp
    omega
  have hu : ∀ (o : Option UInt32), 1 ≤ o.elim 1 (fun _ => 8) := by
    intro o
    cases o <;> simp
  have hv : ∀ (o : Option Version), 1 ≤ o.elim 1 (fun _ => 8) := by
    intro o
    cases o <;> simp
  rw [e.canonical_length]
  have h1 := hopt e.tokenPrefix
  have h2 := hopt e.path
  have h3 := hopt e.detail
  have h4 := hu e.peerUid
  have h5 := hu e.peerPid
  have h6 := hv e.version
  omega

/-- In a short encoding every optional string is short. -/
theorem AuditEntry.short_fields
    {e : AuditEntry}
    (h : e.canonical.length < 1279) :
    (∀ t ∈ e.tokenPrefix, t.bytes.length < 1279) ∧
    (∀ t ∈ e.path, t.bytes.length < 1279) := by
  rw [e.canonical_length] at h
  constructor
  · intro t ht
    rw [Option.mem_def] at ht
    rw [ht] at h
    simp only [Option.elim_some] at h
    omega
  · intro t ht
    rw [Option.mem_def] at ht
    rw [ht] at h
    simp only [Option.elim_some] at h
    omega

/--
A token prefix or path that only one of two entries has is too short for its
length prefix to be taken for an absent field.
-/
structure AuditEntry.Separable (d e : AuditEntry) : Prop where
  tokenPrefix : ∀ t ∈ d.tokenPrefix, e.tokenPrefix = none → t.bytes.length < 1279
  tokenPrefix' : ∀ t ∈ e.tokenPrefix, d.tokenPrefix = none → t.bytes.length < 1279
  path : ∀ t ∈ d.path, e.path = none → t.bytes.length < 1279
  path' : ∀ t ∈ e.path, d.path = none → t.bytes.length < 1279

/-- Separable entries do not share an encoding. -/
theorem AuditEntry.canonical_inj_of_separable
    {d e : AuditEntry}
    (hsep : d.Separable e)
    (h : d.canonical = e.canonical) :
    d = e := by
  obtain ⟨hdtp, hetp, hdp, hep⟩ := hsep
  have hutf :
      ∀ s : String, s.utf8ByteSize ≤ 12 → (utf8 s).length < 256 ^ 4 := by
    intro s hs
    simp only [utf8_length]
    omega
  have hda := d.action.asStr_size.2
  have hea := e.action.asStr_size.2
  have hdr := d.result.asStr_size.2
  have her := e.result.asStr_size.2
  obtain ⟨dts, dtp, duid, dpid, da, dp, dv, dr, dd⟩ := d
  obtain ⟨ets, etp, euid, epid, ea, ep, ev, er, ed⟩ := e
  dsimp only at hdtp hetp hdp hep hda hea hdr her
  have hver :
      ∀ v : Option Version,
        v.map (fun v => u32Bytes v.get) = (v.map Version.get).map u32Bytes := by
    intro v
    cases v <;> rfl
  simp only [AuditEntry.canonical, hver] at h
  obtain ⟨hts, h1⟩ := encodeField_append_inj (by simp) (by simp) h
  obtain ⟨htp, h2⟩ :=
    encodeOptField_append_inj hdtp hetp
      (startsHigh_optU32 _ _) (startsHigh_optU32 _ _) h1
  obtain ⟨huid, h3⟩ := encodeOptField_u32_append_inj h2
  obtain ⟨hpid, h4⟩ := encodeOptField_u32_append_inj h3
  obtain ⟨ha, h5⟩ := encodeField_append_inj (hutf _ hda) (hutf _ hea) h4
  obtain ⟨hp, h6⟩ :=
    encodeOptField_append_inj hdp hep
      (startsHigh_optU32 _ _) (startsHigh_optU32 _ _) h5
  obtain ⟨hv, h7⟩ := encodeOptField_u32_append_inj h6
  obtain ⟨hr, h8⟩ :=
    encodeField_append_inj (hutf _ (by omega)) (hutf _ (by omega)) h7
  have hd := encodeOptField_inj h8
  have hts' := i64Bytes_inj hts
  have ha' : da = ea := by
    have := congrArg Action.parse (utf8_inj ha)
    simpa using this
  have hr' : dr = er := by
    have := congrArg AuditResult.parse (utf8_inj hr)
    simpa using this
  have hv' : dv = ev := by
    apply Option.map_injective (f := Version.get) _ hv
    intro v w hvw
    exact Version.toNat_inj.mp (congrArg UInt32.toNat hvw)
  subst hts' htp huid hpid ha' hp hv' hr' hd
  rfl

/-- An entry with a short encoding shares it with no other entry. -/
theorem AuditEntry.canonical_inj_of_short
    {d e : AuditEntry}
    (hshort : e.canonical.length < 1279)
    (h : d.canonical = e.canonical) :
    d = e := by
  obtain ⟨hetp, hep⟩ := AuditEntry.short_fields hshort
  obtain ⟨hdtp, hdp⟩ := AuditEntry.short_fields (h ▸ hshort)
  refine AuditEntry.canonical_inj_of_separable ⟨?_, ?_, ?_, ?_⟩ h
  · exact fun t ht _ => hdtp t ht
  · exact fun t ht _ => hetp t ht
  · exact fun t ht _ => hdp t ht
  · exact fun t ht _ => hep t ht

end Audit
end Secretbae
