import Mathlib.Data.List.Basic

/-!
# Statements that commit one by one

A program of statements, each of which succeeds and is durable at once or fails
and ends the program.  Stopping after some of them leaves what they have done;
a statement that fails leaves what the ones before it have done.
-/

namespace Secretbae
namespace Lib

universe u v

section Statements

variable {S : Type u} {E : Type v}

/-- What is durable after the statements `fs`, up to the first that fails. -/
def exec (s : S) : List (S → Except E S) → S
  | [] => s
  | f :: fs =>
      match f s with
      | .ok s' => exec s' fs
      | .error _ => s

@[simp] theorem exec_nil
    (s : S) :
    exec (E := E) s [] = s := by
  rfl

theorem exec_cons_of_ok
    {s s' : S} {f : S → Except E S}
    (h : f s = .ok s') (fs : List (S → Except E S)) :
    exec s (f :: fs) = exec s' fs := by
  rw [exec, h]

theorem exec_cons_of_error
    {s : S} {f : S → Except E S} {e : E}
    (h : f s = .error e) (fs : List (S → Except E S)) :
    exec s (f :: fs) = s := by
  rw [exec, h]

/-- What every statement keeps, every program keeps, wherever it is stopped. -/
theorem exec_invariant
    {inv : S → Prop} {fs : List (S → Except E S)}
    (hstep : ∀ f ∈ fs, ∀ s s', inv s → f s = .ok s' → inv s')
    {s : S}
    (hs : inv s) (cut : Nat) :
    inv (exec s (fs.take cut)) := by
  induction fs generalizing s cut with
  | nil =>
      rw [List.take_nil]
      exact hs
  | cons f fs ih =>
      cases cut with
      | zero =>
          exact hs
      | succ cut =>
          rw [List.take_succ_cons]
          cases h : f s with
          | error e =>
              rw [exec_cons_of_error h]
              exact hs
          | ok s' =>
              rw [exec_cons_of_ok h]
              exact ih (fun g hg => hstep g (by simp [hg])) (hstep f (by simp) s s' hs h) cut

end Statements

end Lib
end Secretbae
