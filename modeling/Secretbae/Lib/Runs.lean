import Mathlib.Data.List.Basic

/-!
# Runs of a step function

A run applies a list of actions one after another.  `run_invariant` and
`run_rel` are the two induction rules: a predicate that every step preserves
holds at the end of every run, and a reflexive and transitive relation that
every step respects relates the ends of every run.  In both, what is known of
each action of the run may be used (`ok`); `run_invariant_along` is the first
rule for a condition that also looks at the state an action is taken in, and
`along_iff_forall_prefix` and `along_iff_along` are for a condition that is also
necessary.
-/

namespace Secretbae
namespace Lib

universe u v

section Runs

variable {S : Type u} {A : Type v}
variable (step : S → A → S)

/-- The state after the actions `as`. -/
def run (s : S) (as : List A) : S :=
  as.foldl step s

@[simp] theorem run_nil (s : S) :
    run step s [] = s := by
  rfl

@[simp] theorem run_cons
    (s : S) (a : A) (as : List A) :
    run step s (a :: as) = run step (step s a) as := by
  rfl

variable {step}

/-- An invariant of every step is an invariant of every run. -/
theorem run_invariant
    (inv : S → Prop) (ok : A → Prop)
    (hstep : ∀ s a, ok a → inv s → inv (step s a))
    {s : S} {as : List A}
    (hok : ∀ a ∈ as, ok a)
    (hs : inv s) :
    inv (run step s as) := by
  induction as generalizing s with
  | nil =>
      exact hs
  | cons a as ih =>
      have ha := hok a (by simp)
      refine ih ?_ (hstep s a ha hs)
      intro b hb
      exact hok b (by simp [hb])

variable (step) in
/-- Every action of the run is `ok` in the state it is taken in. -/
def along (ok : S → A → Prop) : S → List A → Prop
  | _, [] => True
  | s, a :: as => ok s a ∧ along ok (step s a) as

variable (step) in
instance along_decidable (ok : S → A → Prop) [∀ s a, Decidable (ok s a)] :
    ∀ (s : S) (as : List A), Decidable (along step ok s as)
  | _, [] => .isTrue trivial
  | s, a :: as =>
      have := along_decidable ok (step s a) as
      inferInstanceAs (Decidable (ok s a ∧ along step ok (step s a) as))

theorem along_of_append
    {ok : S → A → Prop} {s : S} {as bs : List A}
    (h : along step ok s (as ++ bs)) :
    along step ok s as := by
  induction as generalizing s with
  | nil =>
      trivial
  | cons a as ih =>
      exact ⟨h.1, ih h.2⟩

theorem along_mono
    {ok ok' : S → A → Prop}
    (himp : ∀ s a, ok s a → ok' s a)
    {s : S} {as : List A}
    (h : along step ok s as) :
    along step ok' s as := by
  induction as generalizing s with
  | nil =>
      trivial
  | cons a as ih =>
      exact ⟨himp s a h.1, ih h.2⟩

/-- An invariant of every step that is `ok` where it is taken. -/
theorem run_invariant_along
    {inv : S → Prop} {ok : S → A → Prop}
    (hstep : ∀ s a, ok s a → inv s → inv (step s a))
    {s : S} {as : List A}
    (hok : along step ok s as)
    (hs : inv s) :
    inv (run step s as) := by
  induction as generalizing s with
  | nil =>
      exact hs
  | cons a as ih =>
      exact ih hok.2 (hstep s a hok.1 hs)

/-- Two conditions that agree in invariant states, if what one of them lets pass keeps these. -/
theorem along_iff_along
    {inv : S → Prop} {ok ok' : S → A → Prop}
    (hiff : ∀ s a, inv s → (ok s a ↔ ok' s a))
    (hstep : ∀ s a, inv s → ok s a → inv (step s a))
    {s : S}
    (hs : inv s) (as : List A) :
    along step ok s as ↔ along step ok' s as := by
  induction as generalizing s with
  | nil =>
      exact Iff.rfl
  | cons a as ih =>
      constructor
      · rintro ⟨ha, has⟩
        exact ⟨(hiff s a hs).mp ha, (ih (hstep s a hs ha)).mp has⟩
      · rintro ⟨ha, has⟩
        have ha' := (hiff s a hs).mpr ha
        exact ⟨ha', (ih (hstep s a hs ha')).mpr has⟩

/--
A condition on the steps is exact for a property of the states: from an
invariant state the property is kept if and only if the step meets it.
-/
theorem along_iff_forall_prefix
    {inv good : S → Prop} {ok : S → A → Prop}
    (hstep : ∀ s a, inv s → good s → inv (step s a))
    (hkeep : ∀ s a, inv s → good s → (good (step s a) ↔ ok s a))
    {s : S}
    (hs : inv s)
    (hgood : good s)
    (as : List A) :
    (∀ past, past <+: as → good (run step s past)) ↔ along step ok s as := by
  induction as generalizing s with
  | nil =>
      refine ⟨fun _ => trivial, ?_⟩
      intro _ past hpast
      rw [List.prefix_nil.mp hpast]
      exact hgood
  | cons a as ih =>
      constructor
      · intro hall
        have hnext : good (step s a) := hall [a] (by simp)
        refine ⟨(hkeep s a hs hgood).mp hnext, (ih (hstep s a hs hgood) hnext).mp ?_⟩
        intro past hpast
        exact hall (a :: past) (by simpa using hpast)
      · rintro ⟨hok, hrest⟩ past hpast
        have hnext := (hkeep s a hs hgood).mpr hok
        cases past with
        | nil => exact hgood
        | cons b past =>
            obtain ⟨rfl, hpast'⟩ := List.cons_prefix_cons.mp hpast
            exact (ih (hstep s b hs hgood) hnext).mpr hrest past hpast'

/-- A preorder that every step from an invariant state respects orders whole runs. -/
theorem run_rel
    (inv : S → Prop) (ok : A → Prop) {rel : S → S → Prop}
    (hrefl : ∀ s, rel s s)
    (htrans : ∀ s t u, rel s t → rel t u → rel s u)
    (hstep : ∀ s a, ok a → inv s → inv (step s a))
    (hrel : ∀ s a, ok a → inv s → rel s (step s a))
    {s : S} {as : List A}
    (hok : ∀ a ∈ as, ok a)
    (hs : inv s) :
    rel s (run step s as) := by
  induction as generalizing s with
  | nil =>
      exact hrefl s
  | cons a as ih =>
      have ha := hok a (by simp)
      refine htrans _ _ _ (hrel s a ha hs) (ih ?_ (hstep s a ha hs))
      intro b hb
      exact hok b (by simp [hb])

end Runs

end Lib
end Secretbae
