import Secretbae.Lib.Bytes

/-!
# Base64

The encoding of byte strings with the standard alphabet and padding, and a
strict decoder: four characters at a time, padding at the end only, and no bits
left over.  `decode_encode` is the round trip.
-/

namespace Secretbae
namespace Lib
namespace Base64

/-- The character of a number below 64. -/
def digit (n : Nat) : Char :=
  if n < 26 then Char.ofNat (65 + n)
  else if n < 52 then Char.ofNat (71 + n)
  else if n < 62 then Char.ofNat (n - 4)
  else if n = 62 then '+'
  else '/'

/-- The number of a character of the alphabet. -/
def value (c : Char) : Option Nat :=
  let n := c.toNat
  if 65 ≤ n ∧ n ≤ 90 then some (n - 65)
  else if 97 ≤ n ∧ n ≤ 122 then some (n - 71)
  else if 48 ≤ n ∧ n ≤ 57 then some (n + 4)
  else if n = 43 then some 62
  else if n = 47 then some 63
  else none

def encodeList : Bytes → List Char
  | [] => []
  | [a] => [digit (a.toNat / 4), digit (a.toNat % 4 * 16), '=', '=']
  | [a, b] =>
      [digit (a.toNat / 4), digit (a.toNat % 4 * 16 + b.toNat / 16), digit (b.toNat % 16 * 4),
        '=']
  | a :: b :: c :: rest =>
      digit (a.toNat / 4) :: digit (a.toNat % 4 * 16 + b.toNat / 16) ::
        digit (b.toNat % 16 * 4 + c.toNat / 64) :: digit (c.toNat % 64) :: encodeList rest

/-- The two bytes or fewer before a padding. -/
def decodeLast (a b c : Char) : Option Bytes := do
  let x ← value a
  let y ← value b
  if c = '=' then
    if y % 16 = 0 then some [UInt8.ofNat (x * 4 + y / 16)] else none
  else do
    let z ← value c
    if z % 4 = 0 then
      some [UInt8.ofNat (x * 4 + y / 16), UInt8.ofNat (y % 16 * 16 + z / 4)]
    else none

def decodeList : List Char → Option Bytes
  | [] => some []
  | a :: b :: c :: d :: rest =>
      if d = '=' then
        if rest = [] then decodeLast a b c else none
      else do
        let x ← value a
        let y ← value b
        let z ← value c
        let w ← value d
        let bytes ← decodeList rest
        some (UInt8.ofNat (x * 4 + y / 16) :: UInt8.ofNat (y % 16 * 16 + z / 4) ::
          UInt8.ofNat (z % 4 * 64 + w) :: bytes)
  | _ => none

def encode (bytes : Bytes) : String :=
  String.ofList (encodeList bytes)

def decode (text : String) : Option Bytes :=
  decodeList text.toList

theorem value_digit
    {n : Nat}
    (h : n < 64) :
    value (digit n) = some n := by
  revert n
  decide

theorem digit_ne_pad
    {n : Nat}
    (h : n < 64) :
    digit n ≠ '=' := by
  revert n
  decide

/-- A byte is put together again from the numbers it was cut into. -/
theorem ofNat_eq
    {n : Nat} {a : UInt8}
    (h : n = a.toNat) :
    UInt8.ofNat n = a := by
  rw [h, UInt8.ofNat_toNat]

theorem decodeList_encodeList
    (bytes : Bytes) :
    decodeList (encodeList bytes) = some bytes := by
  induction bytes using encodeList.induct with
  | case1 =>
      rfl
  | case2 a =>
      have ha := a.toNat_lt
      have hx : a.toNat / 4 < 64 := by omega
      have hy : a.toNat % 4 * 16 < 64 := by omega
      have hlast : a.toNat % 4 * 16 % 16 = 0 := by omega
      have hbyte : a.toNat / 4 * 4 + a.toNat % 4 * 16 / 16 = a.toNat := by omega
      simp only [encodeList, decodeList, decodeLast, value_digit hx, value_digit hy, hlast,
        ofNat_eq hbyte, Option.bind_eq_bind, Option.bind_some, if_true]
  | case3 a b =>
      have ha := a.toNat_lt
      have hb := b.toNat_lt
      have hx : a.toNat / 4 < 64 := by omega
      have hy : a.toNat % 4 * 16 + b.toNat / 16 < 64 := by omega
      have hz : b.toNat % 16 * 4 < 64 := by omega
      have hlast : b.toNat % 16 * 4 % 4 = 0 := by omega
      have hfirst : a.toNat / 4 * 4 + (a.toNat % 4 * 16 + b.toNat / 16) / 16 = a.toNat := by
        omega
      have hsecond : (a.toNat % 4 * 16 + b.toNat / 16) % 16 * 16 + b.toNat % 16 * 4 / 4 =
          b.toNat := by
        omega
      simp only [encodeList, decodeList, decodeLast, value_digit hx, value_digit hy,
        value_digit hz, digit_ne_pad hz, hlast, ofNat_eq hfirst, ofNat_eq hsecond,
        Option.bind_eq_bind, Option.bind_some, if_true, if_false]
  | case4 a b c rest ih =>
      have ha := a.toNat_lt
      have hb := b.toNat_lt
      have hc := c.toNat_lt
      have hx : a.toNat / 4 < 64 := by omega
      have hy : a.toNat % 4 * 16 + b.toNat / 16 < 64 := by omega
      have hz : b.toNat % 16 * 4 + c.toNat / 64 < 64 := by omega
      have hw : c.toNat % 64 < 64 := by omega
      have hfirst : a.toNat / 4 * 4 + (a.toNat % 4 * 16 + b.toNat / 16) / 16 = a.toNat := by
        omega
      have hsecond : (a.toNat % 4 * 16 + b.toNat / 16) % 16 * 16 +
          (b.toNat % 16 * 4 + c.toNat / 64) / 4 = b.toNat := by
        omega
      have hthird : (b.toNat % 16 * 4 + c.toNat / 64) % 4 * 64 + c.toNat % 64 = c.toNat := by
        omega
      simp only [encodeList, decodeList, value_digit hx, value_digit hy, value_digit hz,
        value_digit hw, digit_ne_pad hw, ofNat_eq hfirst, ofNat_eq hsecond, ofNat_eq hthird, ih,
        Option.bind_eq_bind, Option.bind_some, if_false]

/-- Decoding undoes encoding. -/
theorem decode_encode
    (bytes : Bytes) :
    decode (encode bytes) = some bytes := by
  rw [decode, encode, String.toList_ofList, decodeList_encodeList]

end Base64
end Lib
end Secretbae
