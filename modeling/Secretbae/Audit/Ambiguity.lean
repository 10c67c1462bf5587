import Secretbae.Audit.Entry
import Secretbae.Lib.Text

/-!
# Where the canonical encoding is ambiguous

The length prefix of a string of 1279 bytes is `FF 04 00 00`.  It also reads as
an absent string followed by the first three bytes of a 4-byte number, whose
length the string's own first byte `00` completes.  Everything between the
absent string and the last field is then swallowed by the long string, and the
fields that should follow it are found inside the text of the last field.

`canonical_injective_iff` places the boundary: the encoding is injective over
the entries whose token prefix has at most `m` bytes and whose path has at most
`n` bytes exactly when `m` and `n` are both below 1279.
-/

namespace Secretbae
namespace Audit

open Lib Proto

section Collision

/-- A text of the given ASCII bytes. -/
def asciiText (bs : Bytes) (hfits : bs.length < 2 ^ 32)
    (hascii : ∀ b ∈ bs, b.toNat < 128) : Text where
  str := asciiString bs
  fits := by
    rw [← utf8_length, utf8_asciiString hascii]
    exact hfits

@[simp] theorem asciiText_bytes
    {bs : Bytes} (hfits : bs.length < 2 ^ 32)
    (hascii : ∀ b ∈ bs, b.toNat < 128) :
    (asciiText bs hfits hascii).bytes = bs :=
  utf8_asciiString hascii

/-- An absent string before a 4-byte number reads as a string of 1279 bytes. -/
theorem absent_eq_field
    {x rest : Bytes} (u : UInt32)
    (hx : x.length = 1274) :
    encodeOptField none ++ (encodeOptField (some (u32Bytes u)) ++ (x ++ rest)) =
      encodeField (0 :: (u32Bytes u ++ x)) ++ rest := by
  have hlen : (0 :: (u32Bytes u ++ x)).length = 1279 := by
    simp [hx]
  have hfour : leBytes 4 4 = [4, 0, 0, 0] := rfl
  have hlong : leBytes 4 1279 = [0xFF, 4, 0, 0] := rfl
  simp [encodeOptField, encodeField, hlen, hfour, hlong]

theorem forall_lt_of_all
    {bs : Bytes}
    (h : bs.all (fun b => decide (b.toNat < 128)) = true) :
    ∀ b ∈ bs, b.toNat < 128 := by
  intro b hb
  exact of_decide_eq_true (List.all_eq_true.mp h b hb)

theorem forall_append_lt
    {x y : Bytes}
    (hx : ∀ b ∈ x, b.toNat < 128)
    (hy : ∀ b ∈ y, b.toNat < 128) :
    ∀ b ∈ x ++ y, b.toNat < 128 := by
  intro b hb
  rcases List.mem_append.mp hb with hb | hb
  · exact hx b hb
  · exact hy b hb

/--
Fields between a string and the last text of an entry: a number `u` and then
`head`, all of it ASCII.
-/
structure Between where
  u : UInt32
  head : Bytes
  short : head.length ≤ 1270
  ascii : ∀ b ∈ u32Bytes u ++ head, b.toNat < 128

/-- The fields, and an empty last text. -/
def Between.fields (f : Between) : Bytes :=
  leBytes 4 4 ++ ((u32Bytes f.u ++ f.head) ++ leBytes 4 0)

def Between.filler (f : Between) : Bytes :=
  List.replicate (1270 - f.head.length) 120

/-- A last text that ends with the fields themselves. -/
def Between.detail (f : Between) : Bytes :=
  f.filler ++ f.fields

/-- The string that swallows the fields, the length 1282 of the last text and its filler. -/
def Between.long (f : Between) : Bytes :=
  0 :: ((u32Bytes f.u ++ f.head) ++ (leBytes 4 1282 ++ f.filler))

theorem Between.filler_ascii
    (f : Between) :
    ∀ b ∈ f.filler, b.toNat < 128 := by
  intro b hb
  rw [List.eq_of_mem_replicate hb]
  decide

theorem Between.detail_ascii
    (f : Between) :
    ∀ b ∈ f.detail, b.toNat < 128 := by
  have hfour : ∀ b ∈ leBytes 4 4, b.toNat < 128 := forall_lt_of_all (by decide)
  have hzero : ∀ b ∈ leBytes 4 0, b.toNat < 128 := forall_lt_of_all (by decide)
  exact forall_append_lt f.filler_ascii
    (forall_append_lt hfour (forall_append_lt f.ascii hzero))

theorem Between.long_ascii
    (f : Between) :
    ∀ b ∈ f.long, b.toNat < 128 := by
  have hsize : ∀ b ∈ leBytes 4 1282, b.toNat < 128 := forall_lt_of_all (by decide)
  intro b hb
  rcases List.mem_cons.mp hb with rfl | hb
  · decide
  · exact forall_append_lt f.ascii (forall_append_lt hsize f.filler_ascii) b hb

theorem Between.detail_length
    (f : Between) :
    f.detail.length = 1282 := by
  have := f.short
  simp [Between.detail, Between.filler, Between.fields]
  omega

theorem Between.long_length
    (f : Between) :
    f.long.length = 1279 := by
  have := f.short
  simp [Between.long, Between.filler]
  omega

def Between.detailText (f : Between) : Text :=
  asciiText f.detail (by rw [f.detail_length]; norm_num) f.detail_ascii

def Between.longText (f : Between) : Text :=
  asciiText f.long (by rw [f.long_length]; norm_num) f.long_ascii

theorem Between.longText_length
    (f : Between) :
    f.longText.bytes.length = 1279 := by
  rw [Between.longText, asciiText_bytes, f.long_length]

/--
With the string absent and the long last text, the encoding is that of the long
string and the empty last text.
-/
theorem Between.swallowed
    (f : Between) :
    encodeOptField none ++
        (encodeOptField (some (u32Bytes f.u)) ++
          (f.head ++ encodeField f.detailText.bytes)) =
      encodeField f.longText.bytes ++
        (encodeOptField (some (u32Bytes f.u)) ++ (f.head ++ encodeField [])) := by
  have hx : (f.head ++ (leBytes 4 1282 ++ f.filler)).length = 1274 := by
    have := f.short
    simp [Between.filler]
    omega
  have hfirst :
      f.head ++ encodeField f.detail =
        (f.head ++ (leBytes 4 1282 ++ f.filler)) ++ f.fields := by
    rw [encodeField, f.detail_length]
    simp [Between.detail]
  have hsecond :
      encodeOptField (some (u32Bytes f.u)) ++ (f.head ++ encodeField []) = f.fields := by
    simp [encodeOptField, encodeField, Between.fields]
  have hlong : f.long = 0 :: (u32Bytes f.u ++ (f.head ++ (leBytes 4 1282 ++ f.filler))) := by
    simp [Between.long]
  rw [Between.detailText, Between.longText, asciiText_bytes, asciiText_bytes, hfirst, hsecond,
    hlong, absent_eq_field f.u hx]

end Collision

section Boundary

/-- An entry whose token prefix has at most `m` bytes and whose path at most `n`. -/
structure AuditEntry.Within (m n : Nat) (e : AuditEntry) : Prop where
  tokenPrefix : ∀ t ∈ e.tokenPrefix, t.bytes.length ≤ m
  path : ∀ t ∈ e.path, t.bytes.length ≤ n

def emptyText : Text :=
  ⟨"", by decide⟩

/-- An entry with every number, whose encoding is ASCII where its texts are. -/
def fullEntry (tokenPrefix path : Option Text) (detail : Text) : AuditEntry where
  ts := 0
  tokenPrefix := tokenPrefix
  peerUid := some 0
  peerPid := some 0
  action := .tag
  path := path
  version := some ⟨4, by decide⟩
  result := .error
  detail := some detail

theorem emptyText_bytes :
    emptyText.bytes = [] := by
  rfl

/-- What stands between the token prefix and the detail of `fullEntry`. -/
def afterPrefix : Between where
  u := 0
  head :=
    encodeOptField (some (u32Bytes 0)) ++ (encodeField (utf8 "tag") ++
      (encodeOptField (some []) ++ (encodeOptField (some (u32Bytes 4)) ++
        encodeField (utf8 "error"))))
  short := by decide
  ascii := forall_lt_of_all (by decide)

/-- What stands between the path and the detail of `fullEntry`. -/
def afterPath : Between where
  u := 4
  head := encodeField (utf8 "error")
  short := by decide
  ascii := forall_lt_of_all (by decide)

/-- Two entries with one encoding, of which the second only has a token prefix. -/
theorem collision_tokenPrefix :
    (fullEntry none (some emptyText) afterPrefix.detailText).canonical =
      (fullEntry (some afterPrefix.longText) (some emptyText) emptyText).canonical := by
  have heq := afterPrefix.swallowed
  simp only [afterPrefix, List.append_assoc] at heq
  exact congrArg (encodeField (i64Bytes 0) ++ ·) heq

/-- Two entries with one encoding, of which the second only has a path. -/
theorem collision_path :
    (fullEntry none none afterPath.detailText).canonical =
      (fullEntry none (some afterPath.longText) emptyText).canonical :=
  congrArg
    (fun r => encodeField (i64Bytes 0) ++ (encodeOptField none ++
      (encodeOptField (some (u32Bytes 0)) ++ (encodeOptField (some (u32Bytes 0)) ++
        (encodeField (utf8 "tag") ++ r))))) afterPath.swallowed

/-- Entries within the bounds are separable. -/
theorem AuditEntry.Within.separable
    {m n : Nat} {d e : AuditEntry}
    (hm : m < 1279)
    (hn : n < 1279)
    (hd : d.Within m n)
    (he : e.Within m n) :
    d.Separable e where
  tokenPrefix := fun t ht _ => (hd.tokenPrefix t ht).trans_lt hm
  tokenPrefix' := fun t ht _ => (he.tokenPrefix t ht).trans_lt hm
  path := fun t ht _ => (hd.path t ht).trans_lt hn
  path' := fun t ht _ => (he.path t ht).trans_lt hn

/-- The canonical encoding is unambiguous exactly below 1279 bytes. -/
theorem canonical_injective_iff
    (m n : Nat) :
    (∀ a b : AuditEntry, a.Within m n → b.Within m n →
      a.canonical = b.canonical → a = b) ↔
      m < 1279 ∧ n < 1279 := by
  constructor
  · intro hinj
    constructor
    · by_contra hm
      have hlen := afterPrefix.longText_length
      have ha : (fullEntry none (some emptyText) afterPrefix.detailText).Within m n :=
        ⟨by simp [fullEntry], by simp [fullEntry, emptyText_bytes]⟩
      have hb :
          (fullEntry (some afterPrefix.longText) (some emptyText) emptyText).Within m n :=
        ⟨by simp [fullEntry]; omega, by simp [fullEntry, emptyText_bytes]⟩
      cases congrArg AuditEntry.tokenPrefix (hinj _ _ ha hb collision_tokenPrefix)
    · by_contra hn
      have hlen := afterPath.longText_length
      have ha : (fullEntry none none afterPath.detailText).Within m n :=
        ⟨by simp [fullEntry], by simp [fullEntry]⟩
      have hb : (fullEntry none (some afterPath.longText) emptyText).Within m n :=
        ⟨by simp [fullEntry], by simp [fullEntry]; omega⟩
      cases congrArg AuditEntry.path (hinj _ _ ha hb collision_path)
  · rintro ⟨hm, hn⟩ a b ha hb heq
    exact AuditEntry.canonical_inj_of_separable (ha.separable hm hn hb) heq

/-- An entry with a long detail and one with a long token prefix are encoded alike. -/
theorem not_canonical_injective :
    fullEntry none (some emptyText) afterPrefix.detailText ≠
        fullEntry (some afterPrefix.longText) (some emptyText) emptyText ∧
      (fullEntry none (some emptyText) afterPrefix.detailText).canonical =
        (fullEntry (some afterPrefix.longText) (some emptyText) emptyText).canonical := by
  refine ⟨?_, collision_tokenPrefix⟩
  intro heq
  cases congrArg AuditEntry.tokenPrefix heq

end Boundary

end Audit
end Secretbae
