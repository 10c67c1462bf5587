import Mathlib.Data.List.Basic
import Mathlib.Tactic

/-!
# Decimal numerals

The standard library's `from_str` of unsigned integers: digits, perhaps behind a
plus sign, of a number below a bound.  `parseUnsigned_eq_some_iff` says which
texts it accepts for a number: leading zeros and the sign are the only freedom.
-/

namespace Secretbae
namespace Lib

section Numeral

/-- The digits of a numeral, after an optional plus sign. -/
def unsigned : List Char → List Char
  | '+' :: digits => digits
  | digits => digits

/-- `from_str` of an unsigned integer type whose values are those below `bound`. -/
def parseUnsigned (bound : Nat) (s : List Char) : Option Nat :=
  if unsigned s ≠ [] ∧ (unsigned s).all Char.isDigit = true ∧
      Nat.ofDigitChars 10 (unsigned s) 0 < bound then
    some (Nat.ofDigitChars 10 (unsigned s) 0)
  else none

/-- The text writes the number, with leading zeros or a plus sign at most. -/
def Spells (n : Nat) (s : List Char) : Prop :=
  ∃ plus zeros, (plus = [] ∨ plus = ['+']) ∧
    s = plus ++ (List.replicate zeros '0' ++ Nat.toDigits 10 n)

theorem spells_toDigits
    (n : Nat) :
    Spells n (Nat.toDigits 10 n) :=
  ⟨[], 0, .inl rfl, rfl⟩

theorem isDigit_toDigits
    {n : Nat} {c : Char}
    (h : c ∈ Nat.toDigits 10 n) :
    c.isDigit = true :=
  Nat.isDigit_of_mem_toDigits (by decide) (by decide) h

/-- A numeral has no other characters than digits and the sign. -/
theorem Spells.mem
    {n : Nat} {s : List Char}
    (h : Spells n s)
    {c : Char}
    (hc : c ∈ s) :
    c = '+' ∨ c.isDigit = true := by
  obtain ⟨plus, zeros, hplus, rfl⟩ := h
  rcases List.mem_append.mp hc with hc | hc
  · rcases hplus with rfl | rfl
    · cases hc
    · exact .inl (List.mem_singleton.mp hc)
  rcases List.mem_append.mp hc with hc | hc
  · rw [List.eq_of_mem_replicate hc]
    exact .inr rfl
  · exact .inr (isDigit_toDigits hc)

theorem isDigit_range
    {c : Char}
    (h : c.isDigit = true) :
    48 ≤ c.toNat ∧ c.toNat ≤ 57 := by
  simp only [Char.isDigit, Bool.and_eq_true, decide_eq_true_eq] at h
  exact ⟨UInt32.le_iff_toNat_le.mp h.1, UInt32.le_iff_toNat_le.mp h.2⟩

/-- A digit is the numeral of its value. -/
theorem toDigits_digit
    {c : Char}
    (h : c.isDigit = true) :
    c.toNat - '0'.toNat < 10 ∧ Nat.toDigits 10 (c.toNat - '0'.toNat) = [c] := by
  have hrange := isDigit_range h
  have hzero : '0'.toNat = 48 := rfl
  have hlt : c.toNat - '0'.toNat < 10 := by omega
  refine ⟨hlt, ?_⟩
  rw [Nat.toDigits_of_lt_base hlt]
  have hchar : (c.toNat - '0'.toNat).digitChar.toNat = c.toNat := by
    rw [Nat.toNat_digitChar_of_lt_ten hlt]
    omega
  rw [Char.toNat_inj.mp hchar]

/-- Digits are the numeral of their value behind zeros. -/
theorem exists_zeros
    {digits : List Char}
    (hne : digits ≠ [])
    (hall : ∀ c ∈ digits, c.isDigit = true) :
    ∃ zeros, digits =
      List.replicate zeros '0' ++ Nat.toDigits 10 (Nat.ofDigitChars 10 digits 0) := by
  induction digits using List.reverseRecOn with
  | nil =>
      exact absurd rfl hne
  | append_singleton digits c ih =>
      obtain ⟨hdigit, hc⟩ := toDigits_digit (hall c (by simp))
      have hvalue : Nat.ofDigitChars 10 (digits ++ [c]) 0 =
          10 * Nat.ofDigitChars 10 digits 0 + (c.toNat - '0'.toNat) := by
        rw [Nat.ofDigitChars_append, Nat.ofDigitChars_cons, Nat.ofDigitChars_nil]
      rw [hvalue]
      cases hempty : digits with
      | nil =>
          refine ⟨0, ?_⟩
          simpa using hc.symm
      | cons d ds =>
          rw [← hempty]
          obtain ⟨zeros, hzeros⟩ := ih (by simp [hempty]) fun d hd => hall d (by simp [hd])
          rcases Nat.eq_zero_or_pos (Nat.ofDigitChars 10 digits 0) with hzero | hpos
          · refine ⟨zeros + 1, ?_⟩
            rw [hzero, Nat.toDigits_zero] at hzeros
            rw [hzero, hzeros, Nat.mul_zero, Nat.zero_add, hc, List.replicate_succ']
          · refine ⟨zeros, ?_⟩
            rw [← Nat.toDigits_append_toDigits (by decide) hpos hdigit, hc, ← List.append_assoc,
              ← hzeros]

theorem unsigned_spells
    {n : Nat} {s : List Char}
    (h : Spells n s) :
    ∃ zeros, unsigned s = List.replicate zeros '0' ++ Nat.toDigits 10 n := by
  obtain ⟨plus, zeros, rfl | rfl, rfl⟩ := h
  · refine ⟨zeros, ?_⟩
    -- the first character is a digit, not the sign
    have hhead : ∀ c rest, List.replicate zeros '0' ++ Nat.toDigits 10 n = c :: rest →
        c ≠ '+' := by
      rintro c rest hcons rfl
      have hmem : '+' ∈ List.replicate zeros '0' ++ Nat.toDigits 10 n := by simp [hcons]
      rcases List.mem_append.mp hmem with hmem | hmem
      · cases List.eq_of_mem_replicate hmem
      · exact absurd (isDigit_toDigits hmem) (by decide)
    rw [List.nil_append]
    generalize List.replicate zeros '0' ++ Nat.toDigits 10 n = digits at hhead ⊢
    unfold unsigned
    split
    · rename_i rest
      exact absurd rfl (hhead '+' rest rfl)
    · rfl
  · exact ⟨zeros, rfl⟩

/-- Which texts are read as a number. -/
theorem parseUnsigned_eq_some_iff
    {bound n : Nat} {s : List Char} :
    parseUnsigned bound s = some n ↔ n < bound ∧ Spells n s := by
  unfold parseUnsigned
  constructor
  · intro h
    split at h
    · rename_i hdigits
      obtain ⟨hne, hall, hlt⟩ := hdigits
      cases h
      refine ⟨hlt, ?_⟩
      obtain ⟨zeros, hzeros⟩ := exists_zeros hne (List.all_eq_true.mp hall)
      unfold unsigned at hzeros ⊢
      split at hzeros
      · rename_i digits
        exact ⟨['+'], zeros, .inr rfl, by rw [← hzeros]; rfl⟩
      · exact ⟨[], zeros, .inl rfl, hzeros⟩
    · cases h
  · rintro ⟨hlt, hspells⟩
    obtain ⟨zeros, hzeros⟩ := unsigned_spells hspells
    have hvalue : Nat.ofDigitChars 10 (unsigned s) 0 = n := by
      rw [hzeros, Nat.ofDigitChars_append, Nat.ofDigitChars_replicate_zero, Nat.mul_zero,
        Nat.ofDigitChars_ten_toDigits]
    have hne : unsigned s ≠ [] := by
      rw [hzeros]
      simp
    have hall : (unsigned s).all Char.isDigit = true := by
      rw [hzeros, List.all_append, List.all_replicate, List.all_eq_true.mpr fun c hc =>
        isDigit_toDigits hc]
      simp
    rw [hvalue, if_pos ⟨hne, hall, hlt⟩]

end Numeral

end Lib
end Secretbae
