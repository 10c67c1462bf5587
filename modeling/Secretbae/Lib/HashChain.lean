import Mathlib.Data.List.Basic
import Mathlib.Data.List.Infix
import Mathlib.Tactic

/-!
# Hash chains

A hash chain over an arbitrary link function `link : H → E → H` starts from a
`genesis` value and folds one entry after another into it.  The module keeps
the chain as a list of *links*, the pairs `(previous value, entry)` that were
hashed, because both facts proved here are about links:

* `chainHash_take_inj`: when honest links do not collide and never produce the
  genesis value, the positions of the chain have pairwise distinct values;
* `prefix_of_links_subset`: a chain all of whose links are honest links is a
  prefix of the honest chain.  Rearranging, repeating or splicing honest links
  therefore gives nothing but a truncation.
-/

namespace Secretbae
namespace Lib

universe u v

section HashChain

variable {H : Type u} {E : Type v}
variable (link : H → E → H)

/-- Value of the chain after the entries `es`, starting from `h`. -/
def chainHash (h : H) (es : List E) : H :=
  es.foldl link h

@[simp] theorem chainHash_nil (h : H) :
    chainHash link h [] = h := by
  rfl

@[simp] theorem chainHash_cons
    (h : H) (e : E) (es : List E) :
    chainHash link h (e :: es) = chainHash link (link h e) es := by
  rfl

@[simp] theorem chainHash_concat
    (h : H) (es : List E) (e : E) :
    chainHash link h (es ++ [e]) = link (chainHash link h es) e := by
  simp [chainHash, List.foldl_append]

/-- The pairs that are hashed along the chain, in order. -/
def links : H → List E → List (H × E)
  | _, [] => []
  | h, e :: es => (h, e) :: links (link h e) es

theorem links_append
    (h : H) (es fs : List E) :
    links link h (es ++ fs) =
      links link h es ++ links link (chainHash link h es) fs := by
  induction es generalizing h with
  | nil =>
      rfl
  | cons e es ih =>
      simp [links, ih]

/-- Every link joins the value of a proper prefix to the entry after it. -/
theorem mem_links_iff
    (h : H) (es : List E) (p : H × E) :
    p ∈ links link h es ↔
      ∃ (i : Nat) (hi : i < es.length),
        p = (chainHash link h (es.take i), es.get ⟨i, hi⟩) := by
  induction es generalizing h with
  | nil =>
      simp [links]
  | cons e es ih =>
      constructor
      · intro hp
        rcases List.mem_cons.mp hp with rfl | hp
        · exact ⟨0, by simp, by simp⟩
        · obtain ⟨i, hi, rfl⟩ := (ih (link h e)).mp hp
          exact ⟨i + 1, by simpa using hi, by simp⟩
      · rintro ⟨i, hi, rfl⟩
        cases i with
        | zero =>
            simp [links]
        | succ i =>
            have hi' : i < es.length := by simpa using hi
            refine List.mem_cons_of_mem _ ((ih (link h e)).mpr ⟨i, hi', ?_⟩)
            simp

section Honest

variable {g : H} {es : List E}
variable
  (hinj :
    ∀ p ∈ links link g es, ∀ q ∈ links link g es,
      link p.1 p.2 = link q.1 q.2 → p = q)
  (hgen :
    ∀ p ∈ links link g es, link p.1 p.2 ≠ g)
include hinj hgen

/-- Distinct positions of the honest chain carry distinct values. -/
theorem chainHash_take_inj :
    ∀ i j : Nat, i ≤ es.length → j ≤ es.length →
      chainHash link g (es.take i) = chainHash link g (es.take j) →
      i = j := by
  have hstep :
      ∀ (i : Nat) (hi : i < es.length),
        chainHash link g (es.take (i + 1)) =
          link (chainHash link g (es.take i)) (es.get ⟨i, hi⟩) := by
    intro i hi
    rw [List.take_add_one, List.getElem?_eq_getElem hi, Option.toList_some,
      chainHash_concat]
    rfl
  have hmem :
      ∀ (i : Nat) (hi : i < es.length),
        (chainHash link g (es.take i), es.get ⟨i, hi⟩) ∈ links link g es :=
    fun i hi => (mem_links_iff link g es _).mpr ⟨i, hi, rfl⟩
  intro i
  induction i with
  | zero =>
      intro j _ hj heq
      cases j with
      | zero =>
          rfl
      | succ j =>
          rw [hstep j hj] at heq
          exact absurd heq.symm (hgen _ (hmem j hj))
  | succ i ih =>
      intro j hi hj heq
      rw [hstep i hi] at heq
      cases j with
      | zero =>
          exact absurd heq (hgen _ (hmem i hi))
      | succ j =>
          rw [hstep j hj] at heq
          have hpair := hinj _ (hmem i hi) _ (hmem j hj) heq
          have hprev := congrArg Prod.fst hpair
          rw [ih j (by omega) (by omega) hprev]

/-- A chain made of honest links only is a prefix of the honest chain. -/
theorem prefix_of_links_subset
    {ds : List E}
    (hsub : ∀ p ∈ links link g ds, p ∈ links link g es) :
    ds <+: es := by
  induction ds using List.reverseRecOn with
  | nil =>
      exact List.nil_prefix
  | append_singleton ds d ih =>
      have hpre : ds <+: es := by
        apply ih
        intro p hp
        apply hsub
        rw [links_append]
        exact List.mem_append_left _ hp
      -- the last link continues the prefix already matched, so its position
      -- in the honest chain is forced to be `ds.length`
      have hlast : (chainHash link g ds, d) ∈ links link g es := by
        apply hsub
        rw [links_append]
        simp [links]
      obtain ⟨i, hi, heq⟩ := (mem_links_iff link g es _).mp hlast
      have hds : ds = es.take ds.length := List.prefix_iff_eq_take.mp hpre
      have hval :
          chainHash link g (es.take ds.length) =
            chainHash link g (es.take i) := by
        rw [← hds]
        exact congrArg Prod.fst heq
      have hpos : ds.length = i :=
        chainHash_take_inj link hinj hgen _ _ hpre.length_le (by omega) hval
      have hd : d = es.get ⟨i, hi⟩ := congrArg Prod.snd heq
      refine List.prefix_iff_eq_take.mpr ?_
      subst hpos
      rw [List.length_append, List.length_singleton, List.take_add_one,
        List.getElem?_eq_getElem hi, ← hds, hd]
      simp

end Honest

end HashChain

end Lib
end Secretbae
