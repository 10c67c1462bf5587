import Secretbae.Lib.Bytes

/-!
# Slices of byte strings

`&bytes[lo..hi]` panics where the range does not fit; `slice?` is `none` there.
`findSlice` looks for a sequence of bytes, and the lemmas about it say where it is
found in a message that arrives in parts.
-/

namespace Secretbae
namespace Lib

/-- `&bs[lo..hi]`; `none` is a panic. -/
def slice? (bs : Bytes) (lo hi : Nat) : Option Bytes :=
  if lo ≤ hi ∧ hi ≤ bs.length then some ((bs.drop lo).take (hi - lo)) else none

theorem slice?_of_le
    {bs : Bytes} {lo hi : Nat}
    (hlo : lo ≤ hi)
    (hhi : hi ≤ bs.length) :
    slice? bs lo hi = some ((bs.drop lo).take (hi - lo)) := by
  simp [slice?, hlo, hhi]

/-- `&bs[lo..]`. -/
theorem slice?_to_end
    {bs : Bytes} {lo : Nat}
    (h : lo ≤ bs.length) :
    slice? bs lo bs.length = some (bs.drop lo) := by
  rw [slice?_of_le h le_rfl, List.take_of_length_le]
  simp

/-- Two bytes in bounds, as `from_le_bytes` takes them. -/
theorem exists_getElem?_pair
    (bs : Bytes) (i : Nat)
    (h : i + 1 < bs.length) :
    ∃ low high, bs[i]? = some low ∧ bs[i + 1]? = some high ∧
      (bs.drop i).take 2 = [low, high] := by
  refine ⟨bs[i], bs[i + 1], List.getElem?_eq_getElem (by omega), List.getElem?_eq_getElem h, ?_⟩
  rw [List.drop_eq_getElem_cons (by omega), List.drop_eq_getElem_cons h]
  rfl

/-- The field of width `n` that is read at `i`, and what stands after it. -/
theorem drop_eq_append_of_take
    {bs xs : Bytes} {i n : Nat}
    (h : (bs.drop i).take n = xs) :
    bs.drop i = xs ++ bs.drop (i + n) := by
  rw [← h, ← List.drop_drop, List.take_append_drop]

/-- A fixed-width number that is read is written as it was. -/
theorem take_eq_leBytes_of_ofLe
    {bs : Bytes} {i w n : Nat}
    (hlen : i + w ≤ bs.length)
    (h : ofLe ((bs.drop i).take w) = n) :
    (bs.drop i).take w = leBytes w n := by
  have hw : ((bs.drop i).take w).length = w := by
    rw [List.length_take, List.length_drop]
    omega
  calc (bs.drop i).take w
      = leBytes ((bs.drop i).take w).length (ofLe ((bs.drop i).take w)) := (leBytes_ofLe _).symm
    _ = leBytes w n := by rw [hw, h]

/-- `bs.windows(needle.len()).position(|w| w == needle)`. -/
def findSlice (needle : Bytes) : Bytes → Option Nat
  | [] => none
  | b :: bs =>
      if needle <+: b :: bs then some 0 else (findSlice needle bs).map (· + 1)

theorem findSlice_occurs
    {needle bs : Bytes} {i : Nat}
    (h : findSlice needle bs = some i) :
    needle <+: bs.drop i := by
  induction bs generalizing i with
  | nil =>
      cases h
  | cons b bs ih =>
      rw [findSlice] at h
      split at h
      · cases h
        assumption
      · obtain ⟨j, hj, rfl⟩ := Option.map_eq_some_iff.mp h
        exact ih hj

/-- What is found stays where it is when more bytes follow. -/
theorem findSlice_append_right
    {needle bs : Bytes} {i : Nat}
    (h : findSlice needle bs = some i) (more : Bytes) :
    findSlice needle (bs ++ more) = some i := by
  induction bs generalizing i with
  | nil =>
      cases h
  | cons b bs ih =>
      rw [findSlice] at h
      rw [List.cons_append, findSlice]
      split at h
      · rename_i hhere
        cases h
        have hhere' : needle <+: b :: (bs ++ more) :=
          hhere.trans (List.prefix_append (b :: bs) more)
        rw [if_pos hhere']
      · rename_i hnot
        obtain ⟨j, hj, rfl⟩ := Option.map_eq_some_iff.mp h
        have hlen : needle.length ≤ (b :: bs).length := by
          have := (findSlice_occurs hj).length_le
          rw [List.length_drop] at this
          rw [List.length_cons]
          omega
        have hnot' : ¬ needle <+: b :: (bs ++ more) := fun hhere =>
          hnot (List.prefix_of_prefix_length_le hhere (List.prefix_append (b :: bs) more) hlen)
        rw [if_neg hnot', ih hj]
        rfl

/-- The needle is found behind bytes that it does not begin in. -/
theorem findSlice_append_needle
    {needle head : Bytes}
    (hne : needle ≠ [])
    (hfirst : ¬ needle <:+: head ++ needle.dropLast) (rest : Bytes) :
    findSlice needle (head ++ (needle ++ rest)) = some head.length := by
  induction head with
  | nil =>
      obtain ⟨b, bs, hneedle⟩ := List.exists_cons_of_ne_nil hne
      have hhere : needle <+: b :: (bs ++ rest) := by
        rw [← List.cons_append, ← hneedle]
        exact List.prefix_append _ _
      rw [List.nil_append]
      nth_rewrite 2 [hneedle]
      rw [List.cons_append, findSlice, if_pos hhere]
      rfl
  | cons c head ih =>
      have hnot : ¬ needle <+: c :: (head ++ (needle ++ rest)) := by
        intro hhere
        -- an occurrence here would end before the needle does
        have hpart : c :: head ++ needle.dropLast <+: c :: (head ++ (needle ++ rest)) := by
          rw [List.cons_append, List.cons_prefix_cons]
          exact ⟨rfl, (List.prefix_append_right_inj head).mpr
            ((List.dropLast_prefix needle).trans (List.prefix_append _ _))⟩
        refine hfirst (List.prefix_of_prefix_length_le hhere hpart ?_).isInfix
        simp only [List.cons_append, List.length_cons, List.length_append, List.length_dropLast]
        omega
      have hrest : ¬ needle <:+: head ++ needle.dropLast := fun h =>
        hfirst (h.trans (List.suffix_cons c _).isInfix)
      rw [List.cons_append, findSlice, if_neg hnot, ih hrest]
      rfl

end Lib
end Secretbae
