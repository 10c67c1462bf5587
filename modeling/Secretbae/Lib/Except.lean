import Mathlib.Tactic

/-!
# Computations that may fail

Inversion of successful computations in the error monad.  Every proof about a
fallible function of the development peels its steps off with `bind_eq_ok`
instead of unfolding the monad; a traversal is turned into a relation between
the elements of two lists with `mapM_eq_ok`.
-/

namespace Secretbae
namespace Lib

universe u

section Except

variable {ε α β : Type u}

/-- A sequence succeeds exactly when its first step and the rest do. -/
theorem bind_eq_ok
    {x : Except ε α} {f : α → Except ε β} {b : β} :
    (x >>= f) = .ok b ↔ ∃ a, x = .ok a ∧ f a = .ok b := by
  cases x with
  | error e =>
      constructor
      · intro h
        cases h
      · rintro ⟨a, h, _⟩
        cases h
  | ok a =>
      constructor
      · intro h
        exact ⟨a, rfl, h⟩
      · rintro ⟨a', h, hf⟩
        cases h
        exact hf

/-- What follows a step need only agree on what the step can return. -/
theorem bind_congr_ok
    {x : Except ε α} {f g : α → Except ε β}
    (h : ∀ a, x = .ok a → f a = g a) :
    x >>= f = x >>= g := by
  cases x with
  | error e => rfl
  | ok a => exact h a rfl

theorem map_sequence
    {γ : Type u} (x : Except ε α) (f : α → Except ε β) (g : β → γ) :
    (x >>= f).map g = x >>= fun a => (f a).map g := by
  cases x <;> rfl

theorem map_map
    {γ : Type u} (x : Except ε α) (f : α → β) (g : β → γ) :
    (x.map f).map g = x.map fun a => g (f a) := by
  cases x <;> rfl

/-- Success can be evaluated. -/
theorem exists_of_isOk
    {x : Except ε α}
    (h : x.isOk = true) :
    ∃ a, x = .ok a := by
  cases x with
  | error e => cases h
  | ok a => exact ⟨a, rfl⟩

/-- So can a result. -/
theorem eq_ok_of_toOption
    {x : Except ε α} {a : α}
    (h : x.toOption = some a) :
    x = .ok a := by
  cases x with
  | error e => cases h
  | ok b =>
      cases h
      rfl

theorem toOption_eq_some
    {x : Except ε α} {a : α} :
    x.toOption = some a ↔ x = .ok a := by
  cases x <;> simp [Except.toOption]

theorem mapError_eq_ok
    {ε' : Type u} {f : ε → ε'} {x : Except ε α} {a : α} :
    x.mapError f = .ok a ↔ x = .ok a := by
  cases x <;> simp [Except.mapError]

theorem map_eq_ok
    {f : α → β} {x : Except ε α} {b : β} :
    x.map f = .ok b ↔ ∃ a, x = .ok a ∧ f a = b := by
  cases x <;> simp [Except.map]

theorem map_eq_error
    {f : α → β} {x : Except ε α} {e : ε} :
    x.map f = .error e ↔ x = .error e := by
  cases x <;> simp [Except.map]

/-- A traversal succeeds exactly when each of its steps does. -/
theorem mapM_eq_ok
    {f : α → Except ε β} {as : List α} {bs : List β}
    (h : as.mapM f = .ok bs) :
    List.Forall₂ (fun a b => f a = .ok b) as bs := by
  induction as generalizing bs with
  | nil =>
      cases h
      exact .nil
  | cons a as ih =>
      rw [List.mapM_cons] at h
      obtain ⟨b, hb, h⟩ := bind_eq_ok.mp h
      obtain ⟨bs', hbs, h⟩ := bind_eq_ok.mp h
      cases h
      exact .cons hb (ih hbs)

theorem forM_eq_ok
    {f : α → Except ε PUnit.{u + 1}} {as : List α}
    (h : as.forM f = .ok ⟨⟩) :
    ∀ a ∈ as, f a = .ok ⟨⟩ := by
  induction as with
  | nil =>
      simp
  | cons a as ih =>
      change (f a >>= fun _ => as.forM f) = .ok ⟨⟩ at h
      obtain ⟨⟨⟩, ha, has⟩ := bind_eq_ok.mp h
      intro b hb
      rcases List.mem_cons.mp hb with rfl | hb
      · exact ha
      · exact ih has b hb

theorem forM_of_forall
    {f : α → Except ε PUnit.{u + 1}} {as : List α}
    (h : ∀ a ∈ as, f a = .ok ⟨⟩) :
    as.forM f = .ok ⟨⟩ := by
  induction as with
  | nil =>
      rfl
  | cons a as ih =>
      change (f a >>= fun _ => as.forM f) = .ok ⟨⟩
      refine bind_eq_ok.mpr ⟨⟨⟩, h a (by simp), ih ?_⟩
      intro b hb
      exact h b (by simp [hb])

/-- Steps that all succeed make a traversal that does. -/
theorem mapM_of_forall₂
    {f : α → Except ε β} {as : List α} {bs : List β}
    (h : List.Forall₂ (fun a b => f a = .ok b) as bs) :
    as.mapM f = .ok bs := by
  induction h with
  | nil =>
      rfl
  | cons hb _ ih =>
      rw [List.mapM_cons]
      exact bind_eq_ok.mpr ⟨_, hb, bind_eq_ok.mpr ⟨_, ih, rfl⟩⟩

theorem exists_mapM_eq_ok
    {f : α → Except ε β} {as : List α}
    (h : ∀ a ∈ as, ∃ b, f a = .ok b) :
    ∃ bs, as.mapM f = .ok bs := by
  induction as with
  | nil =>
      exact ⟨[], rfl⟩
  | cons a as ih =>
      obtain ⟨b, hb⟩ := h a (by simp)
      obtain ⟨bs, hbs⟩ := ih fun c hc => h c (by simp [hc])
      exact ⟨b :: bs, mapM_of_forall₂ (.cons hb (mapM_eq_ok hbs))⟩

/-- Two traversals in a row, of elements for which both steps succeed. -/
theorem exists_mapM_mapM
    {γ : Type u} {f : α → Except ε β} {ε' : Type u} {g : β → Except ε' γ} {R : α → γ → Prop}
    {as : List α}
    (h : ∀ a ∈ as, ∃ b c, f a = .ok b ∧ g b = .ok c ∧ R a c) :
    ∃ bs cs, as.mapM f = .ok bs ∧ bs.mapM g = .ok cs ∧ List.Forall₂ R as cs := by
  induction as with
  | nil =>
      exact ⟨[], [], rfl, rfl, .nil⟩
  | cons a as ih =>
      obtain ⟨b, c, hb, hc, hrel⟩ := h a (by simp)
      obtain ⟨bs, cs, hbs, hcs, hall⟩ := ih fun a' ha' => h a' (by simp [ha'])
      exact ⟨b :: bs, c :: cs, mapM_of_forall₂ (.cons hb (mapM_eq_ok hbs)),
        mapM_of_forall₂ (.cons hc (mapM_eq_ok hcs)), .cons hrel hall⟩

end Except

section Forall₂

variable {α β : Type u} {R : α → β → Prop}

theorem forall₂_mem_left
    {as : List α} {bs : List β}
    (h : List.Forall₂ R as bs)
    {a : α}
    (ha : a ∈ as) :
    ∃ b ∈ bs, R a b := by
  induction h with
  | nil =>
      cases ha
  | cons hr _ ih =>
      rcases List.mem_cons.mp ha with rfl | ha
      · exact ⟨_, List.mem_cons_self, hr⟩
      · obtain ⟨b, hb, hab⟩ := ih ha
        exact ⟨b, List.mem_cons_of_mem _ hb, hab⟩

theorem forall₂_mem_right
    {as : List α} {bs : List β}
    (h : List.Forall₂ R as bs)
    {b : β}
    (hb : b ∈ bs) :
    ∃ a ∈ as, R a b :=
  forall₂_mem_left h.flip hb

/-- A relation along lists may use that its first element is in the list. -/
theorem forall₂_imp_of_mem
    {S : α → β → Prop} {as : List α} {bs : List β}
    (himp : ∀ a ∈ as, ∀ b, R a b → S a b)
    (h : List.Forall₂ R as bs) :
    List.Forall₂ S as bs := by
  induction h with
  | nil =>
      exact .nil
  | cons hr _ ih =>
      exact .cons (himp _ (by simp) _ hr) (ih fun a ha => himp a (by simp [ha]))

/-- Related elements with one value in a column make lists with one column. -/
theorem forall₂_map_eq
    {γ : Type u} {f : α → γ} {g : β → γ}
    (hvalue : ∀ a b, R a b → g b = f a)
    {as : List α} {bs : List β}
    (h : List.Forall₂ R as bs) :
    bs.map g = as.map f := by
  induction h with
  | nil =>
      rfl
  | cons hr _ ih =>
      rw [List.map_cons, List.map_cons, hvalue _ _ hr, ih]

/-- Two relations along lists compose. -/
theorem forall₂_comp
    {γ : Type u} {S : β → γ → Prop} {T : α → γ → Prop}
    (hcomp : ∀ a b c, R a b → S b c → T a c)
    {as : List α} {bs : List β} {cs : List γ}
    (h : List.Forall₂ R as bs)
    (h' : List.Forall₂ S bs cs) :
    List.Forall₂ T as cs := by
  induction h generalizing cs with
  | nil =>
      cases h'
      exact .nil
  | cons hr _ ih =>
      cases h' with
      | cons hs hrest => exact .cons (hcomp _ _ _ hr hs) (ih hrest)

/-- Traversals of related lists, with steps that agree, agree. -/
theorem mapM_congr₂
    {ε γ : Type u} {f : α → Except ε γ} {g : β → Except ε γ}
    (hstep : ∀ a b, R a b → g b = f a)
    {as : List α} {bs : List β}
    (h : List.Forall₂ R as bs) :
    bs.mapM g = as.mapM f := by
  induction h with
  | nil =>
      rfl
  | cons hr _ ih =>
      rw [List.mapM_cons, List.mapM_cons, hstep _ _ hr, ih]

/-- Where every element has a partner, the list has one. -/
theorem exists_forall₂
    {as : List α}
    (h : ∀ a ∈ as, ∃ b, R a b) :
    ∃ bs, List.Forall₂ R as bs := by
  induction as with
  | nil =>
      exact ⟨[], .nil⟩
  | cons a as ih =>
      obtain ⟨b, hb⟩ := h a (by simp)
      obtain ⟨bs, hbs⟩ := ih fun c hc => h c (by simp [hc])
      exact ⟨b :: bs, .cons hb hbs⟩

end Forall₂

end Lib
end Secretbae
