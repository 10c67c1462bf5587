import Secretbae.Daemon.Entries
import Secretbae.Policy.Policy
import Secretbae.Store.Schema
import Secretbae.Lib.Text

/-!
# Tokens

Issuing, parsing and authenticating tokens.  A token is `sbae_<prefix>_<secret>`;
both halves are unpadded base32, the first one of 5 random bytes, the second one
of 32.  SHA-256 comes from another crate and is an argument.

`PresentedToken.parse_eq_ok_iff` says which texts are tokens, and
`authenticate_eq_ok_iff` what a token must be to authenticate.
-/

namespace Secretbae
namespace Policies

open Lib Core Storage
open Daemon (LookupPrefix PeerCredentials AuthFailure prefixChars isBase32Byte)

deriving instance DecidableEq for LookupPrefix
deriving instance DecidableEq for PeerCredentials
deriving instance DecidableEq for AuthFailure

def tokenPrefix : List Char := ['s', 'b', 'a', 'e', '_']

def secretChars : Nat := 52

/-- The value of a base32 symbol. -/
def base32Value (b : UInt8) : Nat :=
  if 65 ≤ b then b.toNat - 65 else b.toNat - 24

/-- The bits of the last symbol that carry no data must be zero. -/
def trailingBitsZero (bs : Bytes) : Bool :=
  match bs.getLast? with
  | none => true
  | some b => base32Value b % 2 ^ (5 * bs.length % 8) == 0

/-- Whether `BASE32_NOPAD.decode` accepts a text. -/
def base32Decodes (bs : Bytes) : Bool :=
  bs.all isBase32Byte && !([1, 3, 6].contains (bs.length % 8)) && trailingBitsZero bs

/-- A symbol of the alphabet `A`-`Z`, `2`-`7`. -/
def base32Symbol (n : Nat) : Char :=
  if n % 32 < 26 then Char.ofNat (65 + n % 32) else Char.ofNat (24 + n % 32)

/-- Big-endian bytes as a number. -/
def ofBe (bs : Bytes) : Nat :=
  bs.foldl (fun acc b => acc * 256 + b.toNat) 0

/-- `BASE32_NOPAD.encode`: groups of five bits, the last one filled up with zeros. -/
def base32Encode (bs : Bytes) : List Char :=
  let symbols := (8 * bs.length + 4) / 5
  let value := ofBe bs * 2 ^ (5 * symbols - 8 * bs.length)
  (List.range symbols).map fun i => base32Symbol (value / 32 ^ (symbols - 1 - i))

/-- `LookupPrefix::parse`. -/
def parseLookupPrefix (raw : String) : Except PolicyError LookupPrefix :=
  if h : raw.utf8ByteSize = prefixChars ∧ base32Decodes (utf8 raw) = true then
    .ok
      { asStr := raw
        size := h.1
        base32 := by
          have hall := h.2
          simp only [base32Decodes, Bool.and_eq_true] at hall
          exact hall.1.1 }
  else .error .malformedToken

/-- A token as supplied by a client, already split and hashed. -/
structure PresentedToken where
  lookupPrefix : LookupPrefix
  hash : Digest
deriving DecidableEq

/-- `ok_or(PolicyError::MalformedToken)`. -/
def orMalformed {α : Type} (o : Option α) : Except PolicyError α :=
  match o with
  | some a => .ok a
  | none => .error .malformedToken

/-- `PresentedToken::parse`. -/
def PresentedToken.parse (sha256 : Bytes → Digest) (presented : String) :
    Except PolicyError PresentedToken := do
  let body ← orMalformed (stripPrefix tokenPrefix (trim presented.toList))
  let (lookup, secret) ← orMalformed (splitOnce '_' body)
  let secret := utf8 (String.ofList secret)
  if secret.length ≠ secretChars ∨ base32Decodes secret = false then .error .malformedToken
  else do
    let lookupPrefix ← parseLookupPrefix (String.ofList lookup)
    .ok { lookupPrefix, hash := sha256 secret }

/-- The stored side of a token. -/
structure TokenRecord where
  id : Uuid
  lookupPrefix : LookupPrefix
  hash : Digest
  name : String
  boundUid : Option UInt32
  expiresAt : Option UnixTime
  revokedAt : Option UnixTime
deriving DecidableEq

/-- `is_some_and(|at| at <= now)`. -/
def reached (at_ : Option UnixTime) (now : UnixTime) : Bool :=
  match at_ with
  | none => false
  | some t => decide (t.seconds ≤ now.seconds)

/-- `authenticate`. -/
def authenticate (record : TokenRecord) (presented : PresentedToken) (peer : PeerCredentials)
    (now : UnixTime) : Except AuthFailure Uuid :=
  if record.hash ≠ presented.hash then .error .unknownToken
  else if reached record.revokedAt now then .error .revoked
  else if reached record.expiresAt now then .error .expired
  else
    match record.boundUid with
    | none => .ok record.id
    | some expected =>
        if expected ≠ peer.uid then .error (.peerMismatch expected peer.uid)
        else .ok record.id

/-- Everything `token create` produces. -/
structure IssuedToken where
  id : Uuid
  lookupPrefix : LookupPrefix
  hash : Digest
  secret : String

/-- What `issue` draws; the id cannot fail to be generated. -/
structure IssueDraws where
  prefixBytes : Option (List.Vector UInt8 5)
  secretBytes : Option (List.Vector UInt8 32)
  id : Uuid

theorem base32Symbol_ascii
    (n : Nat) :
    (base32Symbol n).toNat < 128 ∧ isBase32Byte (UInt8.ofNat (base32Symbol n).toNat) = true := by
  have hall : ∀ k < 32, (base32Symbol k).toNat < 128 ∧
      isBase32Byte (UInt8.ofNat (base32Symbol k).toNat) = true := by
    decide
  have hmod : base32Symbol n = base32Symbol (n % 32) := by
    simp [base32Symbol]
  rw [hmod]
  exact hall _ (Nat.mod_lt _ (by decide))

/-- The bytes of an encoding are symbols of the alphabet, eight for five bytes. -/
theorem base32Encode_utf8
    (bs : Bytes) :
    (utf8 (String.ofList (base32Encode bs))).length = (8 * bs.length + 4) / 5 ∧
      (utf8 (String.ofList (base32Encode bs))).all isBase32Byte = true := by
  have hascii : ∀ c ∈ base32Encode bs, c.toNat < 128 := by
    intro c hc
    obtain ⟨i, -, rfl⟩ := List.mem_map.mp hc
    exact (base32Symbol_ascii _).1
  rw [utf8_ofList_ascii hascii]
  refine ⟨by simp [base32Encode], List.all_eq_true.mpr ?_⟩
  intro b hb
  obtain ⟨c, hc, rfl⟩ := List.mem_map.mp hb
  obtain ⟨i, -, rfl⟩ := List.mem_map.mp hc
  exact (base32Symbol_ascii _).2

/-- The lookup prefix that five random bytes give. -/
def lookupPrefixOf (bytes : List.Vector UInt8 5) : LookupPrefix where
  asStr := String.ofList (base32Encode bytes.toList)
  size := by
    have hlen := (base32Encode_utf8 bytes.toList).1
    rw [utf8_length] at hlen
    rw [hlen, bytes.toList_length]
    rfl
  base32 := (base32Encode_utf8 bytes.toList).2

/-- `issue`. -/
def issue (sha256 : Bytes → Digest) (draws : IssueDraws) : Except PolicyError IssuedToken :=
  match draws.prefixBytes, draws.secretBytes with
  | some prefixBytes, some secretBytes =>
      let lookupPrefix := lookupPrefixOf prefixBytes
      let secret := String.ofList (base32Encode secretBytes.toList)
      .ok
        { id := draws.id
          lookupPrefix
          hash := sha256 (utf8 secret)
          secret := String.ofList tokenPrefix ++ lookupPrefix.asStr ++ "_" ++ secret }
  | _, _ => .error .entropy

section Specs

theorem orMalformed_eq_ok
    {α : Type} {o : Option α} {a : α} :
    orMalformed o = .ok a ↔ o = some a := by
  cases o <;> simp [orMalformed]

theorem parseLookupPrefix_eq_ok_iff
    {raw : String} {p : LookupPrefix} :
    parseLookupPrefix raw = .ok p ↔ raw = p.asStr := by
  obtain ⟨text, hsize, hbase⟩ := p
  unfold parseLookupPrefix
  constructor
  · intro h
    split at h
    · cases h
      rfl
    · cases h
  · rintro rfl
    -- eight symbols carry exactly forty bits
    have hlen : (utf8 raw).length = 8 := by
      rw [utf8_length, hsize]
      rfl
    have htrailing : trailingBitsZero (utf8 raw) = true := by
      unfold trailingBitsZero
      split
      · rfl
      · simp [hlen, Nat.mod_one]
    have hdecodes : base32Decodes (utf8 raw) = true := by
      simp [base32Decodes, hbase, htrailing, hlen]
    rw [dif_pos ⟨hsize, hdecodes⟩]

/-- `presented`, less the white space around it, is a token with these halves. -/
structure IsToken (presented : String) (lookup : LookupPrefix) (secret : String) : Prop where
  text : trim presented.toList =
    tokenPrefix ++ (lookup.asStr.toList ++ '_' :: secret.toList)
  noSeparator : '_' ∉ lookup.asStr.toList
  length : secret.utf8ByteSize = secretChars
  decodes : base32Decodes (utf8 secret) = true

/-- Which texts are tokens, and what is kept of them. -/
theorem PresentedToken.parse_eq_ok_iff
    {sha256 : Bytes → Digest} {presented : String} {t : PresentedToken} :
    PresentedToken.parse sha256 presented = .ok t ↔
      ∃ secret, IsToken presented t.lookupPrefix secret ∧ t.hash = sha256 (utf8 secret) := by
  constructor
  · intro h
    obtain ⟨body, hbody, h⟩ := bind_eq_ok.mp h
    obtain ⟨⟨lookup, secret⟩, hsplit, h⟩ := bind_eq_ok.mp h
    dsimp only at h
    split at h
    · cases h
    rename_i hsecret
    obtain ⟨p, hp, h⟩ := bind_eq_ok.mp h
    cases h
    simp only [not_or, ne_eq, not_not, Bool.not_eq_false] at hsecret
    have htext := stripPrefix_eq_some_iff.mp (orMalformed_eq_ok.mp hbody)
    obtain ⟨hcut, hmem⟩ := splitOnce_eq_some_iff.mp (orMalformed_eq_ok.mp hsplit)
    have hlead := parseLookupPrefix_eq_ok_iff.mp hp
    refine ⟨String.ofList secret, ⟨?_, ?_, ?_, hsecret.2⟩, rfl⟩
    · rw [htext, hcut, ← hlead, String.toList_ofList, String.toList_ofList]
    · rwa [← hlead, String.toList_ofList]
    · rw [← utf8_length]
      exact hsecret.1
  · rintro ⟨secret, ⟨htext, hmem, hlen, hdecodes⟩, hhash⟩
    have hbody := stripPrefix_eq_some_iff.mpr htext
    have hsplit : splitOnce '_' (t.lookupPrefix.asStr.toList ++ '_' :: secret.toList) =
        some (t.lookupPrefix.asStr.toList, secret.toList) :=
      splitOnce_eq_some_iff.mpr ⟨rfl, hmem⟩
    have hp : parseLookupPrefix t.lookupPrefix.asStr = .ok t.lookupPrefix :=
      parseLookupPrefix_eq_ok_iff.mpr rfl
    have hlen' : (utf8 secret).length = secretChars := by
      rw [utf8_length, hlen]
    simp [PresentedToken.parse, hbody, hsplit, orMalformed, bind, Except.bind, hlen', hdecodes,
      hp, ← hhash]

/-- A token may be used: not revoked, not expired, and by this user. -/
structure TokenRecord.Usable (record : TokenRecord) (peer : PeerCredentials) (now : UnixTime) :
    Prop where
  notRevoked : ∀ t, record.revokedAt = some t → now.seconds < t.seconds
  notExpired : ∀ t, record.expiresAt = some t → now.seconds < t.seconds
  bound : ∀ uid, record.boundUid = some uid → uid = peer.uid

theorem reached_eq_false_iff
    {at_ : Option UnixTime} {now : UnixTime} :
    reached at_ now = false ↔ ∀ t, at_ = some t → now.seconds < t.seconds := by
  cases at_ with
  | none => simp [reached]
  | some t => simp [reached, Int64.not_le]

/-- What a token must be to authenticate. -/
theorem authenticate_eq_ok_iff
    {record : TokenRecord} {presented : PresentedToken} {peer : PeerCredentials}
    {now : UnixTime} {id : Uuid} :
    authenticate record presented peer now = .ok id ↔
      record.id = id ∧ record.hash = presented.hash ∧ record.Usable peer now := by
  unfold authenticate
  by_cases hhash : record.hash = presented.hash
  swap
  · simp [hhash]
  by_cases hrevoked : reached record.revokedAt now = false
  swap
  · have hnot : ¬ record.Usable peer now := fun h =>
      hrevoked (reached_eq_false_iff.mpr h.notRevoked)
    simp [hhash, hrevoked, hnot]
  by_cases hexpired : reached record.expiresAt now = false
  swap
  · have hnot : ¬ record.Usable peer now := fun h =>
      hexpired (reached_eq_false_iff.mpr h.notExpired)
    simp [hhash, hrevoked, hexpired, hnot]
  have husable : record.Usable peer now ↔
      ∀ uid, record.boundUid = some uid → uid = peer.uid := by
    constructor
    · exact fun h => h.bound
    · exact fun h =>
        ⟨reached_eq_false_iff.mp hrevoked, reached_eq_false_iff.mp hexpired, h⟩
  rw [husable]
  cases hbound : record.boundUid with
  | none =>
      simp [hhash, hrevoked, hexpired]
  | some uid =>
      by_cases huid : uid = peer.uid
      · simp [hhash, hrevoked, hexpired, huid]
      · simp [hhash, hrevoked, hexpired, huid]

end Specs

end Policies
end Secretbae
