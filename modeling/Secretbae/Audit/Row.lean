import Secretbae.Core.Primitives
import Secretbae.Audit.Entry

/-!
# Rows of the audit table

The `audit` table as SQLite stores it: integer columns are 64-bit, text
columns may hold bytes that are not UTF-8, and the hash columns hold blobs of
any length.  `parseAndValidateRow` is the parser that `verify` and
`read_entry` share.

`parseAndValidateRow_eq_valid_iff` is its specification: a row is accepted
exactly when it is the row an insertion of the decoded entry would have
written.  In particular decoding loses nothing.
-/

namespace Secretbae
namespace Audit

open Lib Proto Core

/-- Contents of a text column. -/
inductive SqlText where
  | str (text : Text)
  | malformed (raw : Bytes)
deriving DecidableEq

/-- Errors of the SQLite layer. -/
inductive SqliteError where
  | utf8 (column : Nat)
  | integralValueOutOfRange (column : Nat) (value : Int64)
  | full
  | constraint
  | failure
deriving DecidableEq

inductive AuditError where
  | refusingToRekeyBrokenChain (reason : String)
  | invalidHashLength (expected found : Nat)
  | corrupt (what : String)
  | sqlite (error : SqliteError)
deriving DecidableEq

/-- One row of the `audit` table. -/
structure AuditRow where
  seq : Int64
  ts : Int64
  tokenPrefix : Option SqlText
  peerUid : Option Int64
  peerPid : Option Int64
  action : SqlText
  path : Option SqlText
  version : Option Int64
  result : SqlText
  detail : Option SqlText
  prevHash : Bytes
  entryHash : Bytes
deriving DecidableEq

/-- `u32` as SQLite stores it. -/
def i64OfU32 (u : UInt32) : Int64 :=
  Int64.ofNat u.toNat

/-- `u32::try_from(i64)`. -/
def u32OfI64 (x : Int64) : Option UInt32 :=
  if 0 ≤ x.toInt ∧ x.toInt < 2 ^ 32 then some (UInt32.ofNat x.toInt.toNat)
  else none

theorem toInt_i64OfU32
    (u : UInt32) :
    (i64OfU32 u).toInt = u.toNat := by
  have hu := u.toNat_lt
  exact Int64.toInt_ofNat_of_lt (by omega)

theorem u32OfI64_eq_some_iff
    {x : Int64} {u : UInt32} :
    u32OfI64 x = some u ↔ x = i64OfU32 u := by
  constructor
  · intro h
    unfold u32OfI64 at h
    split at h
    · rename_i hx
      cases h
      apply Int64.toInt_inj.mp
      rw [toInt_i64OfU32]
      have : (UInt32.ofNat x.toInt.toNat).toNat = x.toInt.toNat := by
        rw [UInt32.toNat_ofNat']
        omega
      omega
    · cases h
  · rintro rfl
    have hu := u.toNat_lt
    unfold u32OfI64
    rw [toInt_i64OfU32]
    rw [if_pos ⟨by omega, by omega⟩]
    simp

/-- `row.get::<_, String>`. -/
def getText (column : Nat) : SqlText → Except SqliteError Text
  | .str t => .ok t
  | .malformed _ => .error (.utf8 column)

/-- `row.get::<_, Option<String>>`. -/
def getOptText (column : Nat) : Option SqlText → Except SqliteError (Option Text)
  | none => .ok none
  | some t => (getText column t).map some

/-- `row.get::<_, Option<u32>>`. -/
def getOptU32 (column : Nat) : Option Int64 → Except SqliteError (Option UInt32)
  | none => .ok none
  | some x =>
      match u32OfI64 x with
      | some u => .ok (some u)
      | none => .error (.integralValueOutOfRange column x)

theorem getText_eq_ok_iff
    {column : Nat} {s : SqlText} {t : Text} :
    getText column s = .ok t ↔ s = .str t := by
  cases s <;> simp [getText]

theorem getOptText_eq_ok_iff
    (column : Nat) {s : Option SqlText} {t : Option Text} :
    getOptText column s = .ok t ↔ s = t.map SqlText.str := by
  cases s with
  | none =>
      cases t <;> simp [getOptText]
  | some s =>
      cases s <;> cases t <;> simp [getOptText, getText, Except.map]

theorem getOptU32_eq_ok_iff
    (column : Nat) {x : Option Int64} {u : Option UInt32} :
    getOptU32 column x = .ok u ↔ x = u.map i64OfU32 := by
  cases x with
  | none =>
      cases u <;> simp [getOptU32]
  | some x =>
      cases hx : u32OfI64 x with
      | none =>
          have hne : ∀ v, x ≠ i64OfU32 v := by
            intro v hv
            rw [u32OfI64_eq_some_iff.mpr hv] at hx
            cases hx
          cases u <;> simp [getOptU32, hx, hne]
      | some v =>
          obtain rfl := u32OfI64_eq_some_iff.mp hx
          cases u with
          | none =>
              simp [getOptU32, hx]
          | some w =>
              simp only [getOptU32, hx, Except.ok.injEq, Option.some.injEq,
                Option.map_some]
              constructor
              · rintro rfl
                rfl
              · intro h
                rw [u32OfI64_eq_some_iff.mpr h] at hx
                exact (Option.some.inj hx).symm

/-- Outcome of decoding one row. -/
inductive RowValidation where
  | valid (seq : Nat) (prevHash entryHash : Digest) (entry : AuditEntry)
  | corrupt (seq : Nat) (what : String)
deriving DecidableEq

/-- A version column, where zero is not a version. -/
def parseVersion : Option UInt32 → Option (Option Version)
  | none => some none
  | some v =>
      match Version.new v with
      | .ok version => some (some version)
      | .error _ => none

theorem parseVersion_eq_some_iff
    {raw : Option UInt32} {v : Option Version} :
    parseVersion raw = some v ↔ raw = v.map Version.get := by
  cases raw with
  | none =>
      cases v <;> simp [parseVersion]
  | some x =>
      cases hx : Version.new x with
      | ok w =>
          obtain rfl := Version.new_eq_ok.mp hx
          cases v with
          | none =>
              simp [parseVersion]
          | some v =>
              simp only [parseVersion, hx, Option.some.injEq, Option.map_some]
              constructor
              · rintro rfl
                rfl
              · intro h
                exact Version.toNat_inj.mp (congrArg UInt32.toNat h)
      | error err =>
          cases v with
          | none =>
              simp [parseVersion, hx]
          | some v =>
              simp only [parseVersion, hx, reduceCtorEq, Option.map_some,
                Option.some.injEq, false_iff]
              rintro rfl
              rw [Version.new_get] at hx
              cases hx

/-- `parse_and_validate_row`. -/
def parseAndValidateRow (row : AuditRow) (fallbackSeq : Nat) :
    Except SqliteError RowValidation :=
  if row.seq.toInt < 0 then
    .ok (.corrupt fallbackSeq "negative sequence number in row")
  else
    let currentSeq := row.seq.toInt.toNat
    match fixed? 32 row.prevHash with
    | none => .ok (.corrupt currentSeq "invalid prev_hash length")
    | some prevHash =>
    match fixed? 32 row.entryHash with
    | none => .ok (.corrupt currentSeq "invalid entry_hash length")
    | some entryHash => do
      let tokenPrefix ← getOptText 2 row.tokenPrefix
      let uid ← getOptU32 3 row.peerUid
      let pid ← getOptU32 4 row.peerPid
      let actionStr ← getText 5 row.action
      match Action.parse actionStr.str with
      | none => .ok (.corrupt currentSeq "unknown action variant")
      | some action =>
        let path ← getOptText 6 row.path
        let rawVersion ← getOptU32 7 row.version
        match parseVersion rawVersion with
        | none => .ok (.corrupt currentSeq "invalid version number")
        | some version =>
          let resultStr ← getText 8 row.result
          match AuditResult.parse resultStr.str with
          | none => .ok (.corrupt currentSeq "unknown result variant")
          | some result =>
            let detail ← getOptText 9 row.detail
            .ok (.valid currentSeq prevHash entryHash
              { ts := row.ts, tokenPrefix, peerUid := uid, peerPid := pid,
                action, path, version, result, detail })

def Action.text (a : Action) : Text :=
  ⟨a.asStr, by have := a.asStr_size; omega⟩

def AuditResult.text (r : AuditResult) : Text :=
  ⟨r.asStr, by have := r.asStr_size; omega⟩

/-- The row that `append` inserts for an entry. -/
def encodeRow (seq : Int64) (prevHash entryHash : Digest) (entry : AuditEntry) :
    AuditRow where
  seq := seq
  ts := entry.ts
  tokenPrefix := entry.tokenPrefix.map .str
  peerUid := entry.peerUid.map i64OfU32
  peerPid := entry.peerPid.map i64OfU32
  action := .str entry.action.text
  path := entry.path.map .str
  version := entry.version.map (fun v => i64OfU32 v.get)
  result := .str entry.result.text
  detail := entry.detail.map .str
  prevHash := prevHash.toList
  entryHash := entryHash.toList

/-- Decoding an inserted row gives back the entry. -/
theorem parseAndValidateRow_encodeRow
    {seq : Int64}
    (hseq : 0 ≤ seq.toInt)
    (prevHash entryHash : Digest) (entry : AuditEntry) (fallbackSeq : Nat) :
    parseAndValidateRow (encodeRow seq prevHash entryHash entry) fallbackSeq =
      .ok (.valid seq.toInt.toNat prevHash entryHash entry) := by
  obtain ⟨ts, tp, uid, pid, action, path, version, result, detail⟩ := entry
  have hver :
      version.map (fun v => i64OfU32 v.get) =
        (version.map Version.get).map i64OfU32 := by
    cases version <;> rfl
  have htp := (getOptText_eq_ok_iff 2 (t := tp)).mpr rfl
  have hpath := (getOptText_eq_ok_iff 6 (t := path)).mpr rfl
  have hdetail := (getOptText_eq_ok_iff 9 (t := detail)).mpr rfl
  have huid := (getOptU32_eq_ok_iff 3 (u := uid)).mpr rfl
  have hpid := (getOptU32_eq_ok_iff 4 (u := pid)).mpr rfl
  have hrawv :=
    (getOptU32_eq_ok_iff 7 (u := version.map Version.get)).mpr hver
  have hversion := (parseVersion_eq_some_iff (v := version)).mpr rfl
  simp [parseAndValidateRow, encodeRow, not_lt.mpr hseq, htp, hpath, hdetail,
    huid, hpid, hrawv, hversion, getText, Action.text, AuditResult.text, bind,
    Except.bind]

/-- A text that parses as an action is that action's text. -/
theorem Action.eq_text_of_parse
    {t : Text} {a : Action}
    (h : Action.parse t.str = some a) :
    t = a.text := by
  obtain ⟨str, hfits⟩ := t
  have hstr : str = a.asStr := Action.parse_eq_some h
  subst hstr
  rfl

theorem AuditResult.eq_text_of_parse
    {t : Text} {r : AuditResult}
    (h : AuditResult.parse t.str = some r) :
    t = r.text := by
  obtain ⟨str, hfits⟩ := t
  have hstr : str = r.asStr := AuditResult.parse_eq_some h
  subst hstr
  rfl

/-- Only an inserted row decodes to a valid entry. -/
theorem eq_encodeRow_of_valid
    {row : AuditRow} {fallbackSeq seq : Nat} {prevHash entryHash : Digest}
    {entry : AuditEntry}
    (h :
      parseAndValidateRow row fallbackSeq =
        .ok (.valid seq prevHash entryHash entry)) :
    0 ≤ row.seq.toInt ∧ seq = row.seq.toInt.toNat ∧
      row = encodeRow row.seq prevHash entryHash entry := by
  unfold parseAndValidateRow at h
  split at h
  · cases h
  rename_i hseq
  dsimp only at h
  split at h
  · cases h
  rename_i prev hprev
  split at h
  · cases h
  rename_i hash hhash
  obtain ⟨tp, htp, h⟩ := bind_eq_ok.mp h
  obtain ⟨uid, huid, h⟩ := bind_eq_ok.mp h
  obtain ⟨pid, hpid, h⟩ := bind_eq_ok.mp h
  obtain ⟨actionStr, hactionStr, h⟩ := bind_eq_ok.mp h
  split at h
  · cases h
  rename_i action haction
  obtain ⟨path, hpath, h⟩ := bind_eq_ok.mp h
  obtain ⟨rawv, hrawv, h⟩ := bind_eq_ok.mp h
  split at h
  · cases h
  rename_i version hversion
  obtain ⟨resultStr, hresultStr, h⟩ := bind_eq_ok.mp h
  split at h
  · cases h
  rename_i result hresult
  obtain ⟨detail, hdetail, h⟩ := bind_eq_ok.mp h
  cases h
  refine ⟨not_lt.mp hseq, rfl, ?_⟩
  have hactionText : actionStr = action.text := Action.eq_text_of_parse haction
  have hresultText : resultStr = result.text := AuditResult.eq_text_of_parse hresult
  have hver :
      version.map (fun v => i64OfU32 v.get) =
        (version.map Version.get).map i64OfU32 := by
    cases version <;> rfl
  obtain ⟨rseq, rts, rtp, ruid, rpid, ract, rpath, rver, rres, rdet, rprev, rhash⟩ := row
  simp only [encodeRow, AuditRow.mk.injEq, true_and]
  refine ⟨(getOptText_eq_ok_iff _).mp htp, (getOptU32_eq_ok_iff _).mp huid,
    (getOptU32_eq_ok_iff _).mp hpid, ?_, (getOptText_eq_ok_iff _).mp hpath, ?_, ?_,
    (getOptText_eq_ok_iff _).mp hdetail, fixed?_eq_some_iff.mp hprev,
    fixed?_eq_some_iff.mp hhash⟩
  · rw [← hactionText]
    exact getText_eq_ok_iff.mp hactionStr
  · rw [hver, ← parseVersion_eq_some_iff.mp hversion]
    exact (getOptU32_eq_ok_iff _).mp hrawv
  · rw [← hresultText]
    exact getText_eq_ok_iff.mp hresultStr

/-- The parser accepts exactly the rows that insertions write. -/
theorem parseAndValidateRow_eq_valid_iff
    {row : AuditRow} {fallbackSeq seq : Nat} {prevHash entryHash : Digest}
    {entry : AuditEntry} :
    parseAndValidateRow row fallbackSeq =
        .ok (.valid seq prevHash entryHash entry) ↔
      0 ≤ row.seq.toInt ∧ seq = row.seq.toInt.toNat ∧
        row = encodeRow row.seq prevHash entryHash entry := by
  constructor
  · exact eq_encodeRow_of_valid
  · rintro ⟨hseq, rfl, hrow⟩
    rw [hrow]
    exact parseAndValidateRow_encodeRow hseq prevHash entryHash entry fallbackSeq

end Audit
end Secretbae
