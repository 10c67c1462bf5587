import Mathlib.Data.List.Sort
import Mathlib.Order.Compare
import Mathlib.Tactic

/-!
# Sorting by a comparison

`slice::sort_by` is a stable sort, which `List.mergeSort` is as well.  A
comparison of one key and then of another orders by `ByKeys`, and so does its
reverse the other way round.
-/

namespace Secretbae
namespace Lib

universe u v w

section SortBy

variable {α : Type u}

/-- `slice::sort_by`. -/
def sortBy (cmp : α → α → Ordering) (xs : List α) : List α :=
  xs.mergeSort fun a b => (cmp a b).isLE

theorem sortBy_perm
    (cmp : α → α → Ordering) (xs : List α) :
    (sortBy cmp xs).Perm xs :=
  List.mergeSort_perm xs _

/-- A comparison that says whether `R` holds sorts by `R`. -/
theorem pairwise_sortBy
    {cmp : α → α → Ordering} {R : α → α → Prop}
    (hcmp : ∀ a b, (cmp a b).isLE ↔ R a b)
    (htrans : ∀ a b c, R a b → R b c → R a c)
    (htotal : ∀ a b, R a b ∨ R b a)
    (xs : List α) :
    (sortBy cmp xs).Pairwise R := by
  have hsorted : (sortBy cmp xs).Pairwise fun a b => (cmp a b).isLE = true :=
    List.pairwise_mergeSort
      (by simpa only [hcmp] using htrans)
      (by simpa only [Bool.or_eq_true, hcmp] using htotal) xs
  exact hsorted.imp fun hle => (hcmp _ _).mp hle

end SortBy

section Keys

variable {α : Type u} {K : Type v} {L : Type w} [LinearOrder K] [LinearOrder L]
variable (f : α → K) (g : α → L)

/-- `Ord::cmp` of keys that are linearly ordered. -/
def cmpKey (a b : K) : Ordering :=
  cmp a b

/-- Before in the first key, or level in it and not after in the second. -/
def ByKeys (a b : α) : Prop :=
  f a < f b ∨ f a = f b ∧ g a ≤ g b

variable {f g}

theorem ByKeys.trans
    {a b c : α}
    (hab : ByKeys f g a b)
    (hbc : ByKeys f g b c) :
    ByKeys f g a c := by
  rcases hab with hab | ⟨hab, hgab⟩
  · rcases hbc with hbc | ⟨hbc, -⟩
    · exact .inl (hab.trans hbc)
    · exact .inl (hbc ▸ hab)
  · rcases hbc with hbc | ⟨hbc, hgbc⟩
    · exact .inl (hab ▸ hbc)
    · exact .inr ⟨hab.trans hbc, hgab.trans hgbc⟩

theorem ByKeys.total
    (a b : α) :
    ByKeys f g a b ∨ ByKeys f g b a := by
  rcases lt_trichotomy (f a) (f b) with h | h | h
  · exact .inl (.inl h)
  · rcases le_total (g a) (g b) with hg | hg
    · exact .inl (.inr ⟨h, hg⟩)
    · exact .inr (.inr ⟨h.symm, hg⟩)
  · exact .inr (.inl h)

/-- `cmp().then_with(..)`. -/
theorem cmpKey_then_isLE
    (a b : α) :
    ((cmpKey (f a) (f b)).then (cmpKey (g a) (g b))).isLE ↔ ByKeys f g a b := by
  unfold ByKeys cmpKey
  rcases lt_trichotomy (f a) (f b) with h | h | h
  · rw [(cmp_eq_lt_iff _ _).mpr h]
    exact iff_of_true rfl (.inl h)
  · have hsecond : (cmp (g a) (g b)).isLE ↔ g a ≤ g b := by
      rw [← not_lt, ← cmp_eq_gt_iff]
      cases cmp (g a) (g b) <;> decide
    rw [(cmp_eq_eq_iff _ _).mpr h]
    change (cmp (g a) (g b)).isLE ↔ _
    rw [hsecond]
    exact ⟨fun hle => .inr ⟨h, hle⟩, fun hor => hor.elim (fun hlt => absurd h hlt.ne) And.right⟩
  · rw [(cmp_eq_gt_iff _ _).mpr h]
    exact iff_of_false Bool.false_ne_true fun hor =>
      hor.elim (fun hlt => h.not_gt hlt) fun heq => h.ne' heq.1

/-- The same, reversed. -/
theorem cmpKey_then_swap_isLE
    (a b : α) :
    ((cmpKey (f a) (f b)).then (cmpKey (g a) (g b))).swap.isLE ↔ ByKeys f g b a := by
  have hswap : ((cmpKey (f a) (f b)).then (cmpKey (g a) (g b))).swap =
      (cmpKey (f b) (f a)).then (cmpKey (g b) (g a)) := by
    unfold cmpKey
    rw [Ordering.swap_then, cmp_swap, cmp_swap]
  rw [hswap, cmpKey_then_isLE]

/-- Comparing a key twice is comparing it once. -/
theorem cmpKey_then_self
    (a b : K) :
    (cmpKey a b).then (cmpKey a b) = cmpKey a b := by
  cases cmpKey a b <;> rfl

end Keys

end Lib
end Secretbae
