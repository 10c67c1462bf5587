import Mathlib.Data.List.Basic
import Mathlib.Data.Vector.Basic
import Mathlib.Tactic

/-!
# Byte strings and fixed-width little-endian numbers

Every byte format of the development is a concatenation of fixed-width
little-endian numbers, fixed-length blocks and length-prefixed fields.  This
module holds the facts those formats are taken apart with:

* `leBytes w n` is injective below `256 ^ w` and `ofLe` is its inverse;
* `utf8` is the byte string of a character string, and it is injective;
* `fixed?` accepts exactly the byte strings of one length.

Nothing here knows about a particular format.
-/

namespace Secretbae
namespace Lib

/-- A byte string. -/
abbrev Bytes := List UInt8

/-- The `w` low-order bytes of `n`, least significant first. -/
def leBytes : Nat → Nat → Bytes
  | 0, _ => []
  | w + 1, n => UInt8.ofNat n :: leBytes w (n / 256)

/-- The number a little-endian byte string denotes. -/
def ofLe : Bytes → Nat
  | [] => 0
  | b :: bs => b.toNat + 256 * ofLe bs

@[simp] theorem leBytes_zero (n : Nat) :
    leBytes 0 n = [] := by
  rfl

@[simp] theorem leBytes_length
    (w n : Nat) :
    (leBytes w n).length = w := by
  induction w generalizing n with
  | zero =>
      rfl
  | succ w ih =>
      simp [leBytes, ih]

/-- Decoding recovers every number that fits in the width. -/
theorem ofLe_leBytes
    {w n : Nat}
    (hn : n < 256 ^ w) :
    ofLe (leBytes w n) = n := by
  induction w generalizing n with
  | zero =>
      have : n = 0 := by simpa using hn
      simp [leBytes, ofLe, this]
  | succ w ih =>
      have hdiv : n / 256 < 256 ^ w := by
        rw [Nat.div_lt_iff_lt_mul (by norm_num)]
        simpa [Nat.pow_succ] using hn
      simp only [leBytes, ofLe, ih hdiv]
      have hb : (UInt8.ofNat n).toNat = n % 256 := by
        simp [UInt8.toNat_ofNat']
      rw [hb]
      omega

/-- Encoding recovers every byte string from the number it denotes. -/
theorem leBytes_ofLe
    (bs : Bytes) :
    leBytes bs.length (ofLe bs) = bs := by
  induction bs with
  | nil =>
      rfl
  | cons b bs ih =>
      have hb := b.toNat_lt
      have hdiv : (b.toNat + 256 * ofLe bs) / 256 = ofLe bs := by
        omega
      have hmod : UInt8.ofNat (b.toNat + 256 * ofLe bs) = b := by
        apply UInt8.toNat_inj.1
        rw [UInt8.toNat_ofNat']
        omega
      simp only [List.length_cons, leBytes, ofLe, hdiv, hmod, ih]

/-- A byte string of length `w` denotes a number below `256 ^ w`. -/
theorem ofLe_lt
    (bs : Bytes) :
    ofLe bs < 256 ^ bs.length := by
  induction bs with
  | nil =>
      simp [ofLe]
  | cons b bs ih =>
      have hb := b.toNat_lt
      have hle : 256 * ofLe bs + 256 ≤ 256 * 256 ^ bs.length := by
        have := Nat.mul_le_mul_left 256 ih
        omega
      simp only [ofLe, List.length_cons, Nat.pow_succ]
      omega

theorem leBytes_inj
    {w n m : Nat}
    (hn : n < 256 ^ w)
    (hm : m < 256 ^ w)
    (h : leBytes w n = leBytes w m) :
    n = m := by
  rw [← ofLe_leBytes hn, ← ofLe_leBytes hm, h]

/-- The UTF-8 bytes of a character string. -/
def utf8 (s : String) : Bytes :=
  s.toByteArray.data.toList

@[simp] theorem utf8_length
    (s : String) :
    (utf8 s).length = s.utf8ByteSize := by
  rfl

theorem utf8_inj
    {s t : String}
    (h : utf8 s = utf8 t) :
    s = t := by
  apply String.toByteArray_inj.1
  apply ByteArray.ext
  exact Array.ext' h

/-- Accept a byte string of exactly `n` bytes. -/
def fixed? (n : Nat) (bs : Bytes) : Option (List.Vector UInt8 n) :=
  if h : bs.length = n then some ⟨bs, h⟩ else none

@[simp] theorem fixed?_toList
    {n : Nat}
    (v : List.Vector UInt8 n) :
    fixed? n v.toList = some v := by
  obtain ⟨bs, hbs⟩ := v
  simp [fixed?, List.Vector.toList, hbs]

theorem fixed?_eq_some_iff
    {n : Nat}
    {bs : Bytes}
    {v : List.Vector UInt8 n} :
    fixed? n bs = some v ↔ bs = v.toList := by
  constructor
  · intro h
    unfold fixed? at h
    split at h
    · cases h
      rfl
    · cases h
  · rintro rfl
    exact fixed?_toList v

end Lib
end Secretbae
