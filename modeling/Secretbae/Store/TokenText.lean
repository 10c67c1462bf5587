import Secretbae.Store.TokenRuns
import Secretbae.Store.Lifecycle

/-!
# The text of a stored token

A token is shown once, as `sbae_<prefix>_<secret>`, and what is stored of it is
the prefix and a hash of the secret's text.  `issued_opened_by_its_text` says
that this text opens the stored record and no other text does, whatever happens
to the tables after the token was created.

The alphabet of base32 has no underscore, so the cut after the prefix is found
wherever the text says it is; and the hash is taken of the text and not of the
bytes it stands for, so a second spelling of the same bytes would be refused
even if the decoder let it through.
-/

namespace Secretbae
namespace Storage

open Lib Core Policies
open Daemon (LookupPrefix isBase32Byte)

section Text

theorem base32Value_symbol
    (n : Nat) :
    base32Value (UInt8.ofNat (base32Symbol n).toNat) = n % 32 := by
  have hall : ∀ k < 32, base32Value (UInt8.ofNat (base32Symbol k).toNat) = k := by
    decide
  have hmod : base32Symbol n = base32Symbol (n % 32) := by
    simp [base32Symbol]
  rw [hmod, hall _ (Nat.mod_lt _ (by decide))]

/-- The text of 32 bytes has 52 symbols, and its unused bits are zero. -/
theorem base32Encode_decodes
    (bytes : List.Vector UInt8 32) :
    (String.ofList (base32Encode bytes.toList)).utf8ByteSize = secretChars ∧
      base32Decodes (utf8 (String.ofList (base32Encode bytes.toList))) = true := by
  obtain ⟨hlength, hall⟩ := base32Encode_utf8 bytes.toList
  rw [bytes.toList_length] at hlength
  have hascii : ∀ c ∈ base32Encode bytes.toList, c.toNat < 128 := by
    intro c hc
    obtain ⟨i, -, rfl⟩ := List.mem_map.mp hc
    exact (base32Symbol_ascii _).1
  have hlast :
      (utf8 (String.ofList (base32Encode bytes.toList))).getLast? =
        some (UInt8.ofNat (base32Symbol (ofBe bytes.toList * 2 ^ 4)).toNat) := by
    rw [utf8_ofList_ascii hascii, base32Encode, bytes.toList_length]
    simp [List.getLast?_map, List.getLast?_range]
  have htrailing : trailingBitsZero (utf8 (String.ofList (base32Encode bytes.toList))) = true := by
    rw [trailingBitsZero, hlast, hlength]
    have hbits : 2 ^ (5 * ((8 * 32 + 4) / 5) % 8) = 16 := by norm_num
    simp only [base32Value_symbol, beq_iff_eq, hbits]
    omega
  refine ⟨by rw [← utf8_length, hlength]; rfl, ?_⟩
  rw [base32Decodes, hall, htrailing, hlength]
  rfl

/-- A lookup prefix has no underscore. -/
theorem LookupPrefix.noSeparator
    (lookup : LookupPrefix) :
    '_' ∉ lookup.asStr.toList := by
  intro hmem
  have hbyte := (mem_utf8_iff (c := '_') (by decide)).mpr hmem
  have hbase := List.all_eq_true.mp lookup.base32 _ hbyte
  revert hbase
  decide

/-- A text that `PresentedToken::parse` accepts as the secret half of a token. -/
def IsSecretText (bs : Bytes) : Prop :=
  bs.length = secretChars ∧ base32Decodes bs = true

theorem base32Encode_notWhite
    (bs : Bytes) :
    ∀ c ∈ base32Encode bs, isWhiteSpace c = false := by
  have hall : ∀ k < 32, isWhiteSpace (base32Symbol k) = false := by
    decide
  intro c hc
  obtain ⟨i, -, rfl⟩ := List.mem_map.mp hc
  have hmod : ∀ n, base32Symbol n = base32Symbol (n % 32) := by
    intro n
    simp [base32Symbol]
  rw [hmod]
  exact hall _ (Nat.mod_lt _ (by decide))

/-- What `issue` returns. -/
theorem issue_eq_ok
    {sha256 : Bytes → Digest} {draws : IssueDraws} {issued : IssuedToken}
    (h : issue sha256 draws = .ok issued) :
    ∃ secret : String, IsSecretText (utf8 secret) ∧
      (∀ c ∈ secret.toList, isWhiteSpace c = false) ∧
      issued.hash = sha256 (utf8 secret) ∧
      issued.secret.toList =
        tokenPrefix ++ (issued.lookupPrefix.asStr.toList ++ '_' :: secret.toList) := by
  unfold issue at h
  split at h
  · rename_i prefixBytes secretBytes _ _
    cases h
    obtain ⟨hlength, hdecodes⟩ := base32Encode_decodes secretBytes
    refine ⟨_, ⟨by rw [utf8_length, hlength], hdecodes⟩, ?_, rfl, ?_⟩
    · rw [String.toList_ofList]
      exact base32Encode_notWhite _
    · simp [String.toList_append]
  · cases h

/-- Trimming takes off what was put around the shown text. -/
theorem trim_token
    {before after lookup secret : List Char}
    (hbefore : ∀ c ∈ before, isWhiteSpace c = true)
    (hafter : ∀ c ∈ after, isWhiteSpace c = true)
    (hsecret : ∀ c ∈ secret, isWhiteSpace c = false) :
    trim (before ++ ((tokenPrefix ++ (lookup ++ '_' :: secret)) ++ after)) =
      tokenPrefix ++ (lookup ++ '_' :: secret) := by
  apply trim_append hbefore hafter
  · simp [tokenPrefix]
  · intro c hc
    have hs : c = 's' := by simpa [tokenPrefix, eq_comm] using hc
    rw [hs]
    decide
  · intro c hc
    have hlast : c ∈ ('_' :: secret).getLast? := by
      simpa [List.getLast?_append] using hc
    rcases List.mem_cons.mp (List.mem_of_getLast? hlast) with rfl | hmem
    · decide
    · exact hsecret c hmem

end Text

section Opened

variable {J : PolicyJson} {sha256 : Bytes → Digest} {draws : IssueDraws} {issued : IssuedToken}

/-- The row of an issued token is in the tables. -/
def Access.Stores (acc : Access) (issued : IssuedToken) : Prop :=
  ∃ r ∈ acc.tokens.rows,
    r.id = issued.id ∧ r.lookupPrefix = issued.lookupPrefix ∧ r.hash = issued.hash

theorem stores_run
    {acc : Access}
    (h : acc.Stores issued) (ops : List AccessOp) :
    (run (AccessOp.step J) acc ops).Stores issued := by
  refine exists_row_run ?_ ?_ h ops
  · rintro r id now hr
    unfold TokenRow.touch
    split <;> exact hr
  · rintro r lookup now hr
    unfold TokenRow.revoke
    split <;> exact hr

/-- The prefix of a stored token finds its record. -/
theorem Access.Stores.exists_record
    {acc : Access}
    (h : acc.Stores issued) :
    ∃ record, tokenByPrefix acc issued.lookupPrefix = some record ∧
      record.id = issued.id ∧ record.hash = issued.hash := by
  obtain ⟨r, hr, hid, hlookup, hhash⟩ := h
  exact ⟨r.record, tokenByPrefix_eq_some_iff.mpr ⟨r, hr, hlookup, rfl⟩, hid, hhash⟩

/-- No other prefix does. -/
theorem Access.Stores.record_unique
    {acc : Access} {lookup : LookupPrefix} {record : TokenRecord}
    (h : acc.Stores issued)
    (hfound : tokenByPrefix acc lookup = some record)
    (hid : record.id = issued.id) :
    lookup = issued.lookupPrefix ∧ record.hash = issued.hash := by
  obtain ⟨r, hr, hlookup, rfl⟩ := tokenByPrefix_eq_some_iff.mp hfound
  obtain ⟨r', hr', hid', hlookup', hhash'⟩ := h
  have heq : r = r' := acc.tokens.eq_of_key_eq hr hr' (hid.trans hid'.symm)
  subst heq
  exact ⟨hlookup.symm.trans hlookup', hhash'⟩

/--
A stored token is opened by exactly one text: the one that was shown, with any
white space around it, at any later time.
-/
theorem issued_opened_by_its_text
    {acc acc' : Access} {token : NewToken} {now : UnixTime}
    (hissue : issue sha256 draws = .ok issued)
    (hid : token.id = issued.id)
    (hlookup : token.lookupPrefix = issued.lookupPrefix)
    (hhash : token.hash = issued.hash)
    (hcreate : createToken acc token now = .ok acc')
    (hfree : ∀ a b, IsSecretText a → IsSecretText b →
      sha256 a = issued.hash → sha256 b = issued.hash → a = b)
    (ops : List AccessOp) :
    (∀ before after : List Char,
      (∀ c ∈ before, isWhiteSpace c = true) → (∀ c ∈ after, isWhiteSpace c = true) →
      ∃ presented record,
        PresentedToken.parse sha256
            (String.ofList (before ++ (issued.secret.toList ++ after))) = .ok presented ∧
          tokenByPrefix (run (AccessOp.step J) acc' ops) presented.lookupPrefix =
            some record ∧
          record.id = issued.id ∧ record.hash = presented.hash) ∧
    ∀ text presented record,
      PresentedToken.parse sha256 text = .ok presented →
      tokenByPrefix (run (AccessOp.step J) acc' ops) presented.lookupPrefix = some record →
      record.id = issued.id → record.hash = presented.hash →
      trim text.toList = issued.secret.toList := by
  obtain ⟨secret, hsecret, hwhite, hissuedHash, htext⟩ := issue_eq_ok hissue
  have hstores : acc'.Stores issued := by
    refine ⟨token.row now, ?_, hid, hlookup, hhash⟩
    rw [(createToken_eq_ok hcreate).2.1]
    exact List.mem_append_right _ (List.mem_singleton_self _)
  have hlater := stores_run (J := J) hstores ops
  constructor
  · intro before after hbefore hafter
    obtain ⟨record, hfound, hrecord, hrecordHash⟩ := hlater.exists_record
    refine ⟨⟨issued.lookupPrefix, issued.hash⟩, record, ?_, hfound, hrecord, hrecordHash⟩
    refine PresentedToken.parse_eq_ok_iff.mpr ⟨secret, ⟨?_, ?_, ?_, hsecret.2⟩, hissuedHash⟩
    · rw [String.toList_ofList, htext]
      exact trim_token hbefore hafter hwhite
    · exact LookupPrefix.noSeparator _
    · rw [← utf8_length, hsecret.1]
  · intro text presented record hparse hfound hrecord hmatch
    obtain ⟨hlookup, hrecordHash⟩ := hlater.record_unique hfound hrecord
    obtain ⟨other, htoken, hother⟩ := PresentedToken.parse_eq_ok_iff.mp hparse
    have hotherSecret : IsSecretText (utf8 other) :=
      ⟨by rw [utf8_length, htoken.length], htoken.decodes⟩
    have hsame : utf8 other = utf8 secret := by
      refine hfree _ _ hotherSecret hsecret ?_ hissuedHash.symm
      rw [← hother, ← hmatch, hrecordHash]
    rw [htoken.text, htext, hlookup, utf8_inj hsame]

/-- A hash that tells the secret of 52 letters `A` from every other text. -/
def markDigest (bs : Bytes) : Digest :=
  if bs = List.replicate 52 65 then sampleKey 1 else sampleKey 2

def zeroDraws : IssueDraws where
  prefixBytes := some (List.Vector.replicate 5 0)
  secretBytes := some (List.Vector.replicate 32 0)
  id := sampleUuid 1

/-- The token of zero bytes, presented with a blank before it and a line end after it. -/
theorem issued_opened_by_its_text_zero :
    ∃ issued acc', issue markDigest zeroDraws = .ok issued ∧
      createToken Access.empty
        ⟨issued.id, issued.lookupPrefix, issued.hash, "ci", none, none, []⟩
        (sampleTime 50) = .ok acc' ∧
      ∃ presented record,
        PresentedToken.parse markDigest
            (String.ofList ([' '] ++ (issued.secret.toList ++ ['\n']))) = .ok presented ∧
          tokenByPrefix acc' presented.lookupPrefix = some record ∧
          record.id = issued.id ∧
          trim ([' '] ++ (issued.secret.toList ++ ['\n'])) = issued.secret.toList := by
  obtain ⟨issued, hissue⟩ :
      ∃ issued, issue markDigest zeroDraws = .ok issued :=
    exists_of_isOk (by decide +kernel)
  obtain ⟨acc', hcreate⟩ :
      ∃ acc', createToken Access.empty
        ⟨issued.id, issued.lookupPrefix, issued.hash, "ci", none, none, []⟩
        (sampleTime 50) = .ok acc' :=
    exists_of_isOk rfl
  have hhash : issued.hash = sampleKey 1 := by
    have hmap :
        (issue markDigest zeroDraws).map IssuedToken.hash = .ok (sampleKey 1) := by
      decide +kernel
    rw [hissue] at hmap
    exact Except.ok.inj hmap
  have hfree : ∀ a b, IsSecretText a → IsSecretText b →
      markDigest a = issued.hash → markDigest b = issued.hash → a = b := by
    have hmark : ∀ a, markDigest a = issued.hash → a = List.replicate 52 65 := by
      intro a ha
      rw [hhash, markDigest] at ha
      split at ha
      · assumption
      · exact absurd ha (by decide)
    intro a b _ _ ha hb
    rw [hmark a ha, hmark b hb]
  obtain ⟨hopens, honly⟩ :=
    issued_opened_by_its_text (J := ⟨fun _ => "", fun _ => .error ""⟩) hissue rfl rfl rfl
      hcreate hfree []
  obtain ⟨presented, record, hparse, hfound, hid, hmatch⟩ :=
    hopens [' '] ['\n'] (List.all_eq_true.mp (by decide)) (List.all_eq_true.mp (by decide))
  refine ⟨issued, acc', hissue, hcreate, presented, record, hparse, hfound, hid, ?_⟩
  simpa using honly _ presented record hparse hfound hid hmatch

end Opened

end Storage
end Secretbae
