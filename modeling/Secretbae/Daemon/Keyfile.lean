import Secretbae.Daemon.State
import Secretbae.Lib.Script
import Secretbae.Policy.Token
import Secretbae.Store.TokenRuns

/-!
# The keyfile

Hexadecimal contents, the permissions a keyfile must have, and how a fresh one
comes to be: looked for, created empty with its mode, and then written.  What
the operating system answers is an argument of the code, and every change that
stays when the process is killed is a section of its own.
-/

namespace Secretbae
namespace Daemon

open Lib Core Audit Storage Policies

/-- A digit of `hex::encode`. -/
def hexDigit (n : Nat) : Char :=
  Char.ofNat (if n < 10 then 48 + n else 87 + n)

/-- `hex::encode`. -/
def hexEncode (bs : Bytes) : List Char :=
  bs.flatMap fun b => [hexDigit (b.toNat / 16), hexDigit (b.toNat % 16)]

/-- The value of a digit, of either case. -/
def hexValue (b : UInt8) : Option Nat :=
  let n := b.toNat
  if 48 ≤ n ∧ n ≤ 57 then some (n - 48)
  else if 97 ≤ n ∧ n ≤ 102 then some (n - 87)
  else if 65 ≤ n ∧ n ≤ 70 then some (n - 55)
  else none

/-- `hex::decode`. -/
def hexDecode : Bytes → Option Bytes
  | [] => some []
  | [_] => none
  | high :: low :: rest => do
      let h ← hexValue high
      let l ← hexValue low
      let bs ← hexDecode rest
      some (UInt8.ofNat (16 * h + l) :: bs)

/-- `KeyfileSeal::HEX_LEN`. -/
def hexLen : Nat := 64

/-- `KeyfileSeal::from_hex`. -/
def KeyfileSeal.fromHex (contents : String) : Except Core.Error KeyfileSeal :=
  let trimmed := String.ofList (trim contents.toList)
  if trimmed.utf8ByteSize ≠ hexLen then
    .error (.malformed "keyfile (expected 64 hex characters)" hexLen trimmed.utf8ByteSize)
  else
    match (hexDecode (utf8 trimmed)).bind (fixed? 32) with
    | some key => .ok ⟨key⟩
    | none => .error (.malformed "keyfile (not valid hex)" hexLen trimmed.utf8ByteSize)

/-- `KeyfileSeal::generate_hex`. -/
def generateHex (draw : Option Key32) : Except Core.Error String :=
  (Key32.generate draw).map fun key => String.ofList (hexEncode key.toList)

/-- The text of an error of the cryptographic core. -/
def errorText : Core.Error → String
  | .decrypt => "decryption failed"
  | .entropy => "the OS entropy source is unavailable"
  | .kdf => "key derivation failed"
  | .malformed what expected found =>
      s!"malformed {what}: expected {expected} bytes, found {found}"
  | .unsupportedSeal message => "unsupported seal backend " ++ message.quote
  | .sealVersion found supported =>
      s!"sealed master key is from format version {found}, this build supports {supported}"

/-- Why a start or an initialisation stops; texts of the operating system are its own. -/
inductive StartupError where
  | notRoot
  | harden (call reason : String)
  | unknownUser (name : String)
  | keyfile (path reason : String)
  | io (reason : String)
  | store (error : StoreError)
  | crypto (error : Core.Error)
  | policy (error : PolicyError)
  | audit (error : AuditError)

/-- A keyfile as it stands on disk. -/
structure Keyfile where
  mode : UInt32
  uid : UInt32
  contents : Bytes
deriving DecidableEq

/-- `ALLOWED_MODE_BITS`. -/
def allowedModeBits : UInt32 := 0o600

/-- `{:04o}`. -/
def octal (n : UInt32) : String :=
  let digits := Nat.toDigits 8 n.toNat
  String.ofList (List.replicate (4 - digits.length) '0' ++ digits)

/-- `check_permissions`. -/
def checkPermissions (path : String) (mode uid : UInt32) : Except StartupError Unit :=
  let permissions := mode &&& 0o777
  if permissions &&& ~~~allowedModeBits ≠ 0 then
    .error (.keyfile path
      (s!"has mode {octal permissions}; it must not be readable or writable by group or " ++
        s!"other. Run: chmod 0400 {path}"))
  else if uid ≠ 0 then
    .error (.keyfile path s!"is owned by uid {uid.toNat}; it must be owned by root")
  else .ok ()

/-- What the operating system answers to `keyfile::load`. -/
structure LoadEnv where
  stat : Except String Unit
  read : Except String Unit

/-- `keyfile::load`, of the file that stands at `path`. -/
def loadKeyfile (env : LoadEnv) (path : String) (file : Option Keyfile) :
    Except StartupError KeyfileSeal := do
  let unreadable (reason : String) : StartupError := .keyfile path s!"cannot be read: {reason}"
  env.stat.mapError unreadable
  let file ← file.elim (.error (unreadable "No such file or directory (os error 2)")) .ok
  checkPermissions path file.mode file.uid
  env.read.mapError unreadable
  let contents ← (ofUtf8 file.contents).elim
    (.error (unreadable "stream did not contain valid UTF-8")) .ok
  (KeyfileSeal.fromHex contents).mapError fun e => .keyfile path (errorText e)

/-- What is on disk: the keyfile, and the tables of the store. -/
structure Deployment where
  keyfile : Option Keyfile
  store : Store
  access : Access
  log : AuditLog

/-- The sections of `initialise`. -/
inductive InitSection where
  | checkKeyfile
  | createKeyfile
  | writeByte
  | readKeyfile
  | initialiseMasterKey
  | putRootPolicy
  | seedPolicies
  | createToken
  | appendInit
deriving DecidableEq

abbrev InitCode := Script InitSection Deployment StartupError

/-- What the operating system answers to `keyfile::create`. -/
structure CreateEnv where
  uid : UInt32
  umask : UInt32
  createParent : Except String Unit
  material : Option Key32
  openNew : Except String Unit
  /-- After how many bytes writing fails, and why; `none` where it does not. -/
  writeFails : Option (Nat × String)
  sync : Except String Unit

/-- `path.exists()`. -/
def keyfileIsThere (s : Deployment) : Except StartupError Bool × Deployment :=
  (.ok s.keyfile.isSome, s)

/-- `OpenOptions::open` with `create_new`. -/
def openNew (env : CreateEnv) (s : Deployment) : Except StartupError Unit × Deployment :=
  match env.openNew, s.keyfile with
  | .error reason, _ => (.error (.io reason), s)
  | .ok (), some _ => (.error (.io "File exists (os error 17)"), s)
  | .ok (), none => (.ok (), { s with keyfile := some ⟨0o400 &&& ~~~env.umask, env.uid, []⟩ })

/-- One byte reaches the file. -/
def Deployment.appendByte (s : Deployment) (b : UInt8) : Deployment :=
  { s with keyfile := s.keyfile.map fun f => { f with contents := f.contents ++ [b] } }

/-- Bytes that are written one after another, so that any part of them may be all there is. -/
def writeBytes : Bytes → InitCode Unit
  | [] => pure ()
  | b :: bs => do
      Script.atomically .writeByte fun s => (.ok (), s.appendByte b)
      writeBytes bs

/-- `write_all`. -/
def writeAll (fails : Option (Nat × String)) (bytes : Bytes) : InitCode Unit :=
  match fails with
  | none => writeBytes bytes
  | some (n, reason) => do
      writeBytes (bytes.take n)
      Script.fail (.io reason)

/-- `keyfile::create`, from the file on. -/
def writeNew (env : CreateEnv) (material : String) : InitCode Unit := do
  writeAll env.writeFails (utf8 material)
  Script.ofExcept (env.sync.mapError .io)

/-- The refusal of `keyfile::create`. -/
def keyfileExists (path : String) : StartupError :=
  .keyfile path
    ("already exists; refusing to overwrite it, which would make every secret " ++
      "in the store permanently unreadable")

/-- `keyfile::create`. -/
def createKeyfile (env : CreateEnv) (path : String) : InitCode Unit := do
  let present ← Script.atomically .checkKeyfile keyfileIsThere
  if present then Script.fail (keyfileExists path)
  else do
    Script.ofExcept (env.createParent.mapError .io)
    let material ←
      Script.ofExcept ((generateHex env.material).mapError fun e => .keyfile path (errorText e))
    Script.atomically .createKeyfile (openNew env)
    writeNew env material

section Hex

theorem hexValue_hexDigit
    {n : Nat}
    (hn : n < 16) :
    hexValue (UInt8.ofNat (hexDigit n).toNat) = some n := by
  have hall : ∀ k < 16, hexValue (UInt8.ofNat (hexDigit k).toNat) = some k := by
    decide
  exact hall n hn

/-- The digits are ASCII, and none of them is white space. -/
theorem hexDigit_ascii
    {n : Nat}
    (hn : n < 16) :
    (hexDigit n).toNat < 128 ∧ isWhiteSpace (hexDigit n) = false := by
  have hall : ∀ k < 16, (hexDigit k).toNat < 128 ∧ isWhiteSpace (hexDigit k) = false := by
    decide
  exact hall n hn

theorem mem_hexEncode
    {bs : Bytes} {c : Char}
    (hc : c ∈ hexEncode bs) :
    ∃ n < 16, c = hexDigit n := by
  obtain ⟨b, -, hc⟩ := List.mem_flatMap.mp hc
  have hb := b.toNat_lt
  rcases List.mem_pair.mp hc with rfl | rfl
  · exact ⟨_, by omega, rfl⟩
  · exact ⟨_, by omega, rfl⟩

/-- What is written in digits is read back. -/
theorem hexDecode_hexEncode
    (bs : Bytes) :
    hexDecode ((hexEncode bs).map fun c => UInt8.ofNat c.toNat) = some bs := by
  induction bs with
  | nil =>
      rfl
  | cons b bs ih =>
      have hb := b.toNat_lt
      have hhigh := hexValue_hexDigit (n := b.toNat / 16) (by omega)
      have hlow := hexValue_hexDigit (n := b.toNat % 16) (by omega)
      have hbyte : UInt8.ofNat (16 * (b.toNat / 16) + b.toNat % 16) = b := by
        rw [Nat.div_add_mod]
        exact UInt8.ofNat_toNat
      change (do
        let h ← hexValue (UInt8.ofNat (hexDigit (b.toNat / 16)).toNat)
        let l ← hexValue (UInt8.ofNat (hexDigit (b.toNat % 16)).toNat)
        let tail ← hexDecode ((hexEncode bs).map fun c => UInt8.ofNat c.toNat)
        some (UInt8.ofNat (16 * h + l) :: tail)) = some (b :: bs)
      rw [hhigh, hlow, ih]
      simp only [Option.bind_eq_bind, Option.bind_some, hbyte]

theorem hexEncode_length
    (bs : Bytes) :
    (hexEncode bs).length = 2 * bs.length := by
  induction bs with
  | nil =>
      rfl
  | cons b bs ih =>
      rw [List.length_cons, Nat.mul_add, ← ih, hexEncode, List.flatMap_cons, List.length_append]
      exact Nat.add_comm _ _

/-- A fresh keyfile holds the key it was drawn for. -/
theorem fromHex_generateHex
    {key : Key32} {contents : String}
    (h : generateHex (some key) = .ok contents) :
    KeyfileSeal.fromHex contents = .ok ⟨key⟩ := by
  cases h
  have hascii : ∀ c ∈ hexEncode key.toList, c.toNat < 128 := by
    intro c hc
    obtain ⟨n, hn, rfl⟩ := mem_hexEncode hc
    exact (hexDigit_ascii hn).1
  have hblank : ∀ c ∈ hexEncode key.toList, isWhiteSpace c = false := by
    intro c hc
    obtain ⟨n, hn, rfl⟩ := mem_hexEncode hc
    exact (hexDigit_ascii hn).2
  have hlength := hexEncode_length key.toList
  rw [key.toList_length] at hlength
  have htrim : trim (hexEncode key.toList) = hexEncode key.toList :=
    trim_eq_self (List.ne_nil_of_length_pos (by omega))
      (fun c hc => hblank c (List.mem_of_mem_head? hc))
      (fun c hc => hblank c (List.mem_of_mem_getLast? hc))
  have hutf8 := utf8_ofList_ascii hascii
  have hsize : (String.ofList (hexEncode key.toList)).utf8ByteSize = hexLen := by
    rw [← utf8_length, hutf8, List.length_map, hlength]
    rfl
  unfold KeyfileSeal.fromHex
  simp only [String.toList_ofList, htrim, hsize, hutf8, hexDecode_hexEncode, Option.bind_some,
    fixed?_toList, ne_eq, not_true_eq_false, if_false]

end Hex

end Daemon
end Secretbae
