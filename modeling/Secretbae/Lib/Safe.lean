import Secretbae.Lib.Script

/-!
# Code that may be killed

`Script.Safe` is a Hoare triple with a crash condition: a thread that runs alone
from a state satisfies the condition before and after each of its sections, so
wherever it is killed, and if it returns a value the postcondition holds as
well.  `Safe.bind` puts code after code, `Safe.stopped` and `Safe.alone` are what
it means.
-/

namespace Secretbae
namespace Lib
namespace Script

variable {L S E A B : Type} {crash : S → Prop} {post mid : A → S → Prop}

/-- `crash` holds wherever the code is stopped, and `post` of what it returns. -/
def Safe (crash : S → Prop) (post : A → S → Prop) : Script L S E A → S → Prop
  | .ret (.ok a), s => crash s ∧ post a s
  | .ret (.error _), s => crash s
  | .sect _ f next, s => crash s ∧ (next s).Safe crash post (f s)

theorem Safe.bind
    {post : B → S → Prop} {x : Script L S E A} {k : A → Script L S E B} {s : S}
    (hx : x.Safe crash mid s)
    (hk : ∀ a s', crash s' → mid a s' → (k a).Safe crash post s') :
    (x >>= k).Safe crash post s := by
  change (x.bind k).Safe crash post s
  induction x generalizing s with
  | ret result =>
      cases result with
      | error e => exact hx
      | ok a => exact hk a s hx.1 hx.2
  | sect label f next ih => exact ⟨hx.1, ih s hx.2⟩

theorem Safe.mono
    {x : Script L S E A} {s : S}
    (hx : x.Safe crash mid s)
    (himp : ∀ a s', mid a s' → post a s') :
    x.Safe crash post s := by
  induction x generalizing s with
  | ret result =>
      cases result with
      | error e => exact hx
      | ok a => exact ⟨hx.1, himp a s hx.2⟩
  | sect label f next ih => exact ⟨hx.1, ih s hx.2⟩

/-- A weaker condition for crashes; the stronger one still holds at the end. -/
theorem Safe.weaken
    {crash' : S → Prop} {x : Script L S E A} {s : S}
    (hx : x.Safe crash post s)
    (himp : ∀ s', crash s' → crash' s') :
    x.Safe crash' (fun a s' => crash s' ∧ post a s') s := by
  induction x generalizing s with
  | ret result =>
      cases result with
      | error e => exact himp s hx
      | ok a => exact ⟨himp s hx.1, hx⟩
  | sect label f next ih => exact ⟨himp s hx.1, ih s hx.2⟩

theorem Safe.atomically
    {label : L} {act : S → Except E A × S} {s : S}
    (hs : crash s)
    (hact : crash (act s).2)
    (hpost : ∀ a, (act s).1 = .ok a → post a (act s).2) :
    (Script.atomically label act).Safe crash post s := by
  refine ⟨hs, ?_⟩
  change Safe crash post (.ret (act s).1) (act s).2
  cases hresult : (act s).1 with
  | error e => exact hact
  | ok a => exact ⟨hact, hpost a hresult⟩

theorem Safe.ofExcept
    (result : Except E A) {s : S}
    (hs : crash s) :
    (Script.ofExcept result : Script L S E A).Safe crash
      (fun a s' => result = .ok a ∧ s' = s) s := by
  cases result with
  | error e => exact hs
  | ok a => exact ⟨hs, rfl, rfl⟩

theorem Safe.stopped
    {x : Script L S E A} {s : S}
    (hx : x.Safe crash post s) (k : Nat) :
    crash (x.stopped k s) := by
  induction x generalizing s k with
  | ret result =>
      cases result with
      | error e => exact hx
      | ok a => exact hx.1
  | sect label f next ih =>
      cases k with
      | zero => exact hx.1
      | succ k => exact ih s hx.2 k

theorem Safe.alone
    {x : Script L S E A} {s s' : S} {a : A}
    (hx : x.Safe crash post s)
    (h : x.alone s = (.ok a, s')) :
    post a s' := by
  induction x generalizing s with
  | ret result =>
      cases h
      exact hx.2
  | sect label f next ih => exact ih s hx.2 h

end Script
end Lib
end Secretbae
