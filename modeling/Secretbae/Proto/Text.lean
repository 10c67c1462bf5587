import Secretbae.Proto.Types
import Secretbae.Lib.Text
import Secretbae.Lib.Numeral

/-!
# Text forms of the protocol types

A tag is written `key=value` and read back, since neither part can hold the
separator.  A version is any numeral of its number (`Version.parse_eq_ok_iff`).
A path is its own text, of the bytes that validation lets through.
-/

namespace Secretbae
namespace Proto

open Lib

/-- `Tag::new`. -/
def Tag.new (key value : String) : Except ProtoError Tag :=
  match hkey : validatePart "key" key with
  | .error e => .error e
  | .ok () =>
      match hvalue : validatePart "value" value with
      | .error e => .error e
      | .ok () => .ok ⟨key, value, hkey, hvalue⟩

/-- `Display for Tag`. -/
def Tag.toText (tag : Tag) : String :=
  tag.key ++ "=" ++ tag.value

/-- `FromStr for Tag`. -/
def Tag.parse (raw : String) : Except ProtoError Tag :=
  match splitOnce '=' raw.toList with
  | none => .error (.invalidTag "tag" "must be written as key=value")
  | some (key, value) => Tag.new (String.ofList key) (String.ofList value)

theorem validatePart_eq_ok
    {what part : String}
    (h : validatePart what part = .ok ()) :
    ∀ b ∈ utf8 part, isNameByte b = true := by
  unfold validatePart at h
  split at h
  · cases h
  split at h
  · cases h
  split at h
  · cases h
  · rename_i hall
    simpa using hall

/-- A part of a tag has no separator. -/
theorem separator_notMem_part
    {what part : String}
    (h : validatePart what part = .ok ()) :
    '=' ∉ part.toList := by
  intro hmem
  have hbyte := (mem_utf8_iff (by decide)).mpr hmem
  have hname := validatePart_eq_ok h _ hbyte
  revert hname
  decide

theorem Tag.new_parts
    (tag : Tag) :
    Tag.new tag.key tag.value = .ok tag := by
  unfold Tag.new
  split
  · rename_i e h
    cases tag.validKey.symm.trans h
  split
  · rename_i e h
    cases tag.validValue.symm.trans h
  · rfl

/-- A tag is read back from its text. -/
theorem Tag.parse_toText
    (tag : Tag) :
    Tag.parse tag.toText = .ok tag := by
  have htext : tag.toText.toList = tag.key.toList ++ '=' :: tag.value.toList := by
    simp [Tag.toText]
  have hsplit : splitOnce '=' tag.toText.toList = some (tag.key.toList, tag.value.toList) :=
    splitOnce_eq_some_iff.mpr ⟨htext, separator_notMem_part tag.validKey⟩
  rw [Tag.parse, hsplit]
  simp only [String.ofList_toList]
  exact Tag.new_parts tag

/-- `FromStr for Version`. -/
def Version.parse (raw : List Char) : Except ProtoError Version :=
  match parseUnsigned (2 ^ 32) raw with
  | none => .error .invalidVersion
  | some n => Version.new (UInt32.ofNat n)

/-- Which texts are a version. -/
theorem Version.parse_eq_ok_iff
    {raw : List Char} {v : Version} :
    Version.parse raw = .ok v ↔ Spells v.toNat raw := by
  unfold Version.parse
  constructor
  · intro h
    split at h
    · cases h
    · rename_i n hn
      obtain ⟨hlt, hspells⟩ := parseUnsigned_eq_some_iff.mp hn
      have hget := Version.new_eq_ok.mp h
      have hnat : v.toNat = n := by
        rw [Version.toNat, ← hget, UInt32.toNat_ofNat_of_lt' hlt]
      rwa [hnat]
  · intro h
    rw [parseUnsigned_eq_some_iff.mpr ⟨v.toNat_lt, h⟩]
    dsimp only
    rw [Version.toNat, UInt32.ofNat_toNat]
    exact Version.new_get v

/-- `FromStr for SecretPath`. -/
theorem SecretPath.new_eq_ok_iff
    {raw : String} {path : SecretPath} :
    SecretPath.new raw = .ok path ↔ raw = path.asStr := by
  unfold SecretPath.new
  constructor
  · intro h
    split at h
    · cases h
      rfl
    · cases h
  · rintro rfl
    split
    · rfl
    · rename_i reason hinvalid
      cases path.valid.symm.trans hinvalid

theorem checkSegmentBytes_eq_ok_iff
    {bs : Bytes} :
    checkSegmentBytes bs = .ok () ↔ ∀ b ∈ bs, isNameByte b = true := by
  induction bs with
  | nil =>
      simp [checkSegmentBytes]
  | cons c bs ih =>
      rw [checkSegmentBytes, List.forall_mem_cons]
      split
      · rename_i hc
        rw [ih]
        exact (and_iff_right hc).symm
      · rename_i hc
        refine iff_of_false ?_ (fun h => hc h.1)
        split <;> exact fun h => nomatch h

/-- What `validate_segment` asks of a segment. -/
structure ValidSegment (segment : Bytes) : Prop where
  ne_nil : segment ≠ []
  length_le : segment.length ≤ maxSegmentLen
  ne_dot : segment ≠ [46]
  ne_dots : segment ≠ [46, 46]
  bytes : ∀ b ∈ segment, isNameByte b = true

theorem validateSegment_eq_ok_iff
    {segment : Bytes} :
    validateSegment segment = .ok () ↔ ValidSegment segment := by
  unfold validateSegment
  constructor
  · intro h
    split at h
    · cases h
    rename_i hnil
    split at h
    · cases h
    rename_i hlength
    split at h
    · cases h
    rename_i hdots
    exact ⟨hnil, by omega, fun h => hdots (.inl h), fun h => hdots (.inr h),
      checkSegmentBytes_eq_ok_iff.mp h⟩
  · rintro ⟨hnil, hlength, hdot, hdots, hbytes⟩
    rw [if_neg hnil, if_neg (by omega), if_neg (by simp [hdot, hdots])]
    exact checkSegmentBytes_eq_ok_iff.mpr hbytes

/-- What `SecretPath::new` asks of a path. -/
theorem checkPath_eq_ok_iff
    {raw : String} :
    checkPath raw = .ok () ↔
      raw.utf8ByteSize ≤ maxPathLen ∧ (pathSegments raw).length ≤ maxSegments ∧
        ∀ segment ∈ pathSegments raw, ValidSegment segment := by
  unfold checkPath
  constructor
  · intro h
    split at h
    · cases h
    rename_i hsize
    split at h
    · cases h
    rename_i hcount
    refine ⟨by omega, by omega, ?_⟩
    intro segment hsegment
    exact validateSegment_eq_ok_iff.mp (forM_eq_ok h segment hsegment)
  · rintro ⟨hsize, hcount, hsegments⟩
    -- an empty path has an empty segment
    have hpos : raw.utf8ByteSize ≠ 0 := by
      intro hzero
      have hnil : utf8 raw = [] := List.length_eq_zero_iff.mp hzero
      refine (hsegments [] ?_).ne_nil rfl
      rw [pathSegments, hnil, List.splitOn_nil]
      exact List.mem_singleton_self _
    rw [if_neg (by omega), if_neg (by omega)]
    refine forM_of_forall ?_
    intro segment hsegment
    exact validateSegment_eq_ok_iff.mpr (hsegments segment hsegment)

theorem SecretPath.validSegment
    (path : SecretPath) :
    ∀ segment ∈ pathSegments path.asStr, ValidSegment segment :=
  (checkPath_eq_ok_iff.mp path.valid).2.2

/-- A byte of joined pieces is in one of them, or it is the separator. -/
theorem mem_intercalate
    {sep b : UInt8} {pieces : List Bytes}
    (hb : b ∈ [sep].intercalate pieces) :
    b = sep ∨ ∃ piece ∈ pieces, b ∈ piece := by
  induction pieces with
  | nil =>
      simp [List.intercalate] at hb
  | cons piece pieces ih =>
      cases pieces with
      | nil =>
          refine .inr ⟨piece, by simp, ?_⟩
          simpa [List.intercalate] using hb
      | cons next pieces =>
          simp only [List.intercalate, List.intersperse, List.flatten_cons,
            List.mem_append, List.mem_singleton] at hb ih
          rcases hb with hmem | hmem | hmem
          · exact .inr ⟨piece, by simp, hmem⟩
          · exact .inl hmem
          · rcases ih hmem with hsep | ⟨found, hfound, hin⟩
            · exact .inl hsep
            · exact .inr ⟨found, List.mem_cons_of_mem _ hfound, hin⟩

/-- A byte of a byte string is in one of its pieces, or it is the separator. -/
theorem mem_splitOn
    {sep b : UInt8} {bs : Bytes}
    (hb : b ∈ bs) :
    b = sep ∨ ∃ piece ∈ bs.splitOn sep, b ∈ piece := by
  apply mem_intercalate
  rwa [List.intercalate_splitOn]

/-- A path is made of the bytes of names and of `/`. -/
theorem SecretPath.bytes
    (path : SecretPath) :
    ∀ b ∈ utf8 path.asStr, b = 47 ∨ isNameByte b = true := by
  intro b hb
  rcases mem_splitOn hb with hsep | ⟨segment, hsegment, hmem⟩
  · exact .inl hsep
  · exact .inr ((path.validSegment segment hsegment).bytes b hmem)

theorem isNameByte_lt
    {b : UInt8}
    (h : isNameByte b = true) :
    b.toNat < 128 := by
  simp only [isNameByte, Bool.or_eq_true, Bool.and_eq_true, decide_eq_true_eq, beq_iff_eq,
    UInt8.le_iff_toNat_le] at h
  rcases h with (((⟨-, h⟩ | ⟨-, h⟩) | rfl) | rfl) | rfl
  · exact h.trans_lt (by decide)
  · exact h.trans_lt (by decide)
  · decide
  · decide
  · decide

/-- Valid segments within the limits are the segments of a path. -/
theorem SecretPath.exists_of_segments
    (segments : List Bytes)
    (hne : segments ≠ [])
    (hvalid : ∀ segment ∈ segments, ValidSegment segment)
    (hcount : segments.length ≤ maxSegments)
    (hlength : ([47].intercalate segments).length ≤ maxPathLen) :
    ∃ path : SecretPath, pathSegments path.asStr = segments := by
  have hascii : ∀ b ∈ [47].intercalate segments, b.toNat < 128 := by
    intro b hb
    rcases mem_intercalate hb with rfl | ⟨segment, hsegment, hmem⟩
    · decide
    · exact isNameByte_lt ((hvalid segment hsegment).bytes b hmem)
  have hnosep : ∀ segment ∈ segments, 47 ∉ segment := by
    intro segment hsegment hmem
    have := (hvalid segment hsegment).bytes 47 hmem
    revert this
    decide
  have hsegments : pathSegments (asciiString ([47].intercalate segments)) = segments := by
    rw [pathSegments, utf8_asciiString hascii]
    exact List.splitOn_intercalate 47 hnosep hne
  refine ⟨⟨asciiString ([47].intercalate segments), ?_⟩, hsegments⟩
  rw [checkPath_eq_ok_iff, hsegments, ← utf8_length, utf8_asciiString hascii]
  exact ⟨hlength, hcount, hvalid⟩

/-- A character that is in no path. -/
theorem SecretPath.notMem
    (path : SecretPath) {c : Char}
    (hc : c.toNat < 128)
    (hother : UInt8.ofNat c.toNat ≠ 47 ∧ isNameByte (UInt8.ofNat c.toNat) = false) :
    c ∉ path.asStr.toList := by
  intro hmem
  rcases path.bytes _ ((mem_utf8_iff hc).mpr hmem) with heq | hname
  · exact hother.1 heq
  · rw [hother.2] at hname
    cases hname

end Proto
end Secretbae
