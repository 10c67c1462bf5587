import Secretbae.Lib.Runs
import Mathlib.Tactic

/-!
# Code cut at its critical sections

A `Script` is the code of one thread over a shared state: a sequence of atomic
sections, each of which changes the state and decides, from the state it found,
what comes next.  It ends with a result or with an error, and an error ends
everything that was to follow.

The same code has two meanings.  `Script.alone` runs it without company, and
`alone_bind` takes such a run apart.  `System` runs any number of scripts in
any interleaving of their sections.

A `Discipline` is what is needed to prove something about every interleaving:
what a thread knows after the sections it has run, what its knowledge allows it
to do next, and which sections of others disturb its knowledge.  `Meets` says
that a script keeps the discipline, `Meets.bind` composes such proofs, and
`sound_run` is the resulting invariant of every undisturbed run.

Where no section disturbs anybody an invariant of the shared state is enough:
`Ensures` says that a script keeps it and what then can be said of its result,
and `ensures_run` is the invariant of every run.

What a section depends on and what it changes does not hang on the run it is
part of.  `Bounds` says for every label which states a section cannot tell apart
and where it may lead, and a script that is `Within` them stays so in every run.
-/

namespace Secretbae
namespace Lib

/-- A thread over the state `S`, with sections labelled by `L`. -/
inductive Script (L S E A : Type) where
  | ret (result : Except E A)
  | sect (label : L) (f : S → S) (next : S → Script L S E A)

namespace Script

section Script

variable {L S E A B : Type}

def bind : Script L S E A → (A → Script L S E B) → Script L S E B
  | .ret (.ok a), k => k a
  | .ret (.error e), _ => .ret (.error e)
  | .sect label f next, k => .sect label f fun s => (next s).bind k

instance : Monad (Script L S E) where
  pure a := .ret (.ok a)
  bind := Script.bind

/-- End with an error. -/
def fail (e : E) : Script L S E A :=
  .ret (.error e)

/-- Go on with a result, or end with the error. -/
def ofExcept (x : Except E A) : Script L S E A :=
  .ret x

/-- One section that computes a result and a new state. -/
def atomically (label : L) (act : S → Except E A × S) : Script L S E A :=
  .sect label (fun s => (act s).2) fun s => .ret (act s).1

/-- The same code with its error translated. -/
def mapError {E' : Type} (t : E → E') : Script L S E A → Script L S E' A
  | .ret result => .ret (result.mapError t)
  | .sect label f next => .sect label f fun s => (next s).mapError t

/-- The same code with its error as a result. -/
def attempt {E' : Type} : Script L S E A → Script L S E' (Except E A)
  | .ret result => .ret (.ok result)
  | .sect label f next => .sect label f fun s => (next s).attempt

/-- Run a script without company. -/
def alone : Script L S E A → S → Except E A × S
  | .ret result, s => (result, s)
  | .sect _ f next, s => (next s).alone (f s)

@[simp] theorem alone_ret
    (result : Except E A) (s : S) :
    (Script.ret result : Script L S E A).alone s = (result, s) := by
  rfl

@[simp] theorem alone_pure
    (a : A) (s : S) :
    (pure a : Script L S E A).alone s = (.ok a, s) := by
  rfl

@[simp] theorem alone_fail
    (e : E) (s : S) :
    (fail e : Script L S E A).alone s = (.error e, s) := by
  rfl

@[simp] theorem alone_ofExcept
    (x : Except E A) (s : S) :
    (ofExcept x : Script L S E A).alone s = (x, s) := by
  rfl

@[simp] theorem alone_atomically
    (label : L) (act : S → Except E A × S) (s : S) :
    (atomically label act).alone s = act s := by
  rfl

@[simp] theorem alone_mapError
    {E' : Type} (t : E → E') (x : Script L S E A) (s : S) :
    (x.mapError t).alone s = ((x.alone s).1.mapError t, (x.alone s).2) := by
  induction x generalizing s with
  | ret result => rfl
  | sect label f next ih => exact ih s (f s)

@[simp] theorem alone_attempt
    {E' : Type} (x : Script L S E A) (s : S) :
    (x.attempt : Script L S E' (Except E A)).alone s = (.ok (x.alone s).1, (x.alone s).2) := by
  induction x generalizing s with
  | ret result => rfl
  | sect label f next ih => exact ih s (f s)

/-- What follows a run of `x`. -/
def andThen (k : A → Script L S E B) : Except E A × S → Except E B × S
  | (.ok a, s) => (k a).alone s
  | (.error e, s) => (.error e, s)

@[simp] theorem andThen_ok
    (k : A → Script L S E B) (a : A) (s : S) :
    andThen k (.ok a, s) = (k a).alone s := by
  rfl

@[simp] theorem andThen_error
    (k : A → Script L S E B) (e : E) (s : S) :
    andThen k (.error e, s) = (.error e, s) := by
  rfl

/-- A run of a sequence is a run of its first part and then of the rest. -/
@[simp] theorem alone_bind
    (x : Script L S E A) (k : A → Script L S E B) (s : S) :
    (x >>= k).alone s = andThen k (x.alone s) := by
  change (x.bind k).alone s = andThen k (x.alone s)
  induction x generalizing s with
  | ret result =>
      cases result <;> rfl
  | sect label f next ih =>
      exact ih s (f s)

/-- A sequence that succeeds has run its first part to a result and then the rest. -/
theorem alone_bind_eq_ok
    {x : Script L S E A} {k : A → Script L S E B} {b : B} {s s' : S}
    (h : (x >>= k).alone s = (.ok b, s')) :
    ∃ a t, x.alone s = (.ok a, t) ∧ (k a).alone t = (.ok b, s') := by
  rw [alone_bind] at h
  match hx : x.alone s with
  | (.ok a, t) =>
      rw [hx] at h
      exact ⟨a, t, rfl, h⟩
  | (.error e, t) =>
      rw [hx] at h
      cases h

/-- A computation without a section does nothing to the state. -/
theorem alone_ofExcept_bind_eq_ok
    {x : Except E A} {k : A → Script L S E B} {b : B} {s s' : S}
    (h : (ofExcept x >>= k).alone s = (.ok b, s')) :
    ∃ a, x = .ok a ∧ (k a).alone s = (.ok b, s') := by
  cases x with
  | error e => cases h
  | ok a => exact ⟨a, rfl, h⟩

@[simp] theorem bind_ofExcept_ok
    (a : A) (k : A → Script L S E B) :
    (ofExcept (.ok a) : Script L S E A) >>= k = k a := by
  rfl

@[simp] theorem bind_ofExcept_error
    (e : E) (k : A → Script L S E B) :
    (ofExcept (.error e) : Script L S E A) >>= k = fail e := by
  rfl

@[simp] theorem bind_fail
    (e : E) (k : A → Script L S E B) :
    (fail e : Script L S E A) >>= k = fail e := by
  rfl

theorem sequence_assoc
    {C : Type} (x : Script L S E A) (f : A → Script L S E B) (g : B → Script L S E C) :
    (x >>= f) >>= g = x >>= fun a => f a >>= g := by
  change (x.bind f).bind g = x.bind fun a => (f a).bind g
  induction x with
  | ret result =>
      cases result <;> rfl
  | sect label f' next ih =>
      simp only [Script.bind, ih]

@[simp] theorem sequence_unit
    (x : Script L S E Unit) :
    (x >>= fun _ => pure ()) = x := by
  change x.bind _ = x
  induction x with
  | ret result =>
      cases result <;> rfl
  | sect label f next ih =>
      simp only [Script.bind, ih]

/-- What a thread leaves that is stopped after `k` sections. -/
def stopped : Script L S E A → Nat → S → S
  | .ret _, _, s => s
  | .sect _ _ _, 0, s => s
  | .sect _ f next, k + 1, s => (next s).stopped k (f s)

@[simp] theorem stopped_zero
    (x : Script L S E A) (s : S) :
    x.stopped 0 s = s := by
  cases x <;> rfl

@[simp] theorem stopped_fail
    (e : E) (k : Nat) (s : S) :
    (fail e : Script L S E A).stopped k s = s := by
  cases k <;> rfl

/-- After a section that succeeds, what follows it. -/
theorem stopped_atomically_of_ok
    {label : L} {act : S → Except E A × S} {a : A} {s s' : S}
    (h : act s = (.ok a, s')) (next : A → Script L S E B) (k : Nat) :
    (Script.atomically label act >>= next).stopped (k + 1) s = (next a).stopped k s' := by
  change ((Script.ret (act s).1).bind next).stopped k (act s).2 = _
  rw [h]
  rfl

/-- After one that fails, nothing. -/
theorem stopped_atomically_of_error
    {label : L} {act : S → Except E A × S} {e : E} {s s' : S}
    (h : act s = (.error e, s')) (next : A → Script L S E B) (k : Nat) :
    (Script.atomically label act >>= next).stopped (k + 1) s = s' := by
  change ((Script.ret (act s).1).bind next).stopped k (act s).2 = _
  rw [h]
  exact stopped_fail e k s'

/-- A run to the end is one that is stopped late. -/
theorem exists_stopped_eq_alone
    (x : Script L S E A) (s : S) :
    ∃ n, ∀ k, n ≤ k → x.stopped k s = (x.alone s).2 := by
  induction x generalizing s with
  | ret result =>
      exact ⟨0, fun _ _ => rfl⟩
  | sect label f next ih =>
      obtain ⟨n, hn⟩ := ih s (f s)
      refine ⟨n + 1, ?_⟩
      intro k hk
      obtain ⟨k, rfl⟩ := Nat.exists_eq_add_of_le' (show 1 ≤ k by omega)
      exact hn k (by omega)

/-- Every section keeps `inv`. -/
def Keeps (inv : S → Prop) : Script L S E A → Prop
  | .ret _ => True
  | .sect _ f next => ∀ s, inv s → inv (f s) ∧ (next s).Keeps inv

theorem Keeps.bind
    {inv : S → Prop} {x : Script L S E A} {k : A → Script L S E B}
    (hx : x.Keeps inv)
    (hk : ∀ a, (k a).Keeps inv) :
    (x >>= k).Keeps inv := by
  change (x.bind k).Keeps inv
  induction x with
  | ret result =>
      cases result with
      | error e => trivial
      | ok a => exact hk a
  | sect label f next ih =>
      exact fun s hs => ⟨(hx s hs).1, ih s (hx s hs).2⟩

theorem Keeps.atomically
    {inv : S → Prop} {label : L} {act : S → Except E A × S}
    (h : ∀ s, inv s → inv (act s).2) :
    (Script.atomically label act).Keeps inv :=
  fun s hs => ⟨h s hs, trivial⟩

theorem Keeps.alone
    {inv : S → Prop} {x : Script L S E A} {s : S}
    (hx : x.Keeps inv)
    (hs : inv s) :
    inv (x.alone s).2 := by
  induction x generalizing s with
  | ret result => exact hs
  | sect label f next ih => exact ih s (hx s hs).2 (hx s hs).1

/-- What every section keeps is kept wherever the thread is stopped. -/
theorem Keeps.stopped
    {inv : S → Prop} {x : Script L S E A} {s : S}
    (hx : x.Keeps inv)
    (hs : inv s) (k : Nat) :
    inv (x.stopped k s) := by
  induction x generalizing s k with
  | ret result =>
      exact hs
  | sect label f next ih =>
      cases k with
      | zero => exact hs
      | succ k => exact ih s (hx s hs).2 (hx s hs).1 k

/-- Every section keeps `inv`, and what the code returns satisfies `post`. -/
def Ensures (inv : S → Prop) (post : A → Prop) : Script L S E A → Prop
  | .ret (.ok a) => post a
  | .ret (.error _) => True
  | .sect _ f next => ∀ s, inv s → inv (f s) ∧ (next s).Ensures inv post

theorem Ensures.bind
    {inv : S → Prop} {mid : A → Prop} {post : B → Prop} {x : Script L S E A}
    {k : A → Script L S E B}
    (hx : x.Ensures inv mid)
    (hk : ∀ a, mid a → (k a).Ensures inv post) :
    (x >>= k).Ensures inv post := by
  change (x.bind k).Ensures inv post
  induction x with
  | ret result =>
      cases result with
      | error e => trivial
      | ok a => exact hk a hx
  | sect label f next ih =>
      exact fun s hs => ⟨(hx s hs).1, ih s (hx s hs).2⟩

theorem Ensures.mapError
    {E' : Type} {t : E → E'} {inv : S → Prop} {post : A → Prop} {x : Script L S E A}
    (hx : x.Ensures inv post) :
    (x.mapError t).Ensures inv post := by
  induction x with
  | ret result =>
      cases result with
      | error e => trivial
      | ok a => exact hx
  | sect label f next ih =>
      exact fun s hs => ⟨(hx s hs).1, ih s (hx s hs).2⟩

theorem Ensures.attempt
    {E' : Type} {inv : S → Prop} {post : A → Prop} {x : Script L S E A}
    (hx : x.Ensures inv post) :
    (x.attempt : Script L S E' (Except E A)).Ensures inv fun _ => True := by
  induction x with
  | ret result =>
      trivial
  | sect label f next ih =>
      exact fun s hs => ⟨(hx s hs).1, ih s (hx s hs).2⟩

theorem Ensures.atomically
    {inv : S → Prop} {post : A → Prop} {label : L} {act : S → Except E A × S}
    (h : ∀ s, inv s → inv (act s).2)
    (hpost : ∀ s a, inv s → (act s).1 = .ok a → post a) :
    (Script.atomically label act).Ensures inv post := by
  intro s hs
  refine ⟨h s hs, ?_⟩
  change Ensures inv post (.ret (act s).1)
  cases hresult : (act s).1 with
  | error e => trivial
  | ok a => exact hpost s a hs hresult

/-- The state after the next section. -/
def effect : Script L S E A → S → S
  | .ret _, s => s
  | .sect _ f _, s => f s

/-- What is left to do after the next section, which depends on the state it finds. -/
def resume : Script L S E A → S → Script L S E A
  | .ret result, _ => .ret result
  | .sect _ _ next, s => next s

end Script

end Script

section Bounds

variable {L S E A B : Type}

/-- What sections may depend on and what they may change. -/
structure Bounds (L S : Type) where
  /-- The labels that there may be. -/
  label : L → Prop
  /-- The states that a section cannot tell apart. -/
  blind : L → S → S → Prop
  /-- Where a section may lead. -/
  moves : L → S → S → Prop

/-- Every section is within the bounds, and what the code returns satisfies `post`. -/
def Script.Within (D : Bounds L S) (post : A → Prop) : Script L S E A → Prop
  | .ret (.ok a) => post a
  | .ret (.error _) => True
  | .sect label f next =>
      D.label label ∧ (∀ s, D.moves label s (f s)) ∧
        (∀ s s', D.blind label s s' → next s' = next s) ∧ ∀ s, (next s).Within D post

namespace Script

variable {D : Bounds L S} {post : A → Prop} {x : Script L S E A}

theorem Within.bind
    {post : B → Prop} {mid : A → Prop} {k : A → Script L S E B}
    (hx : x.Within D mid)
    (hk : ∀ a, mid a → (k a).Within D post) :
    (x >>= k).Within D post := by
  change (x.bind k).Within D post
  induction x with
  | ret result =>
      cases result with
      | error e => trivial
      | ok a => exact hk a hx
  | sect label f next ih =>
      obtain ⟨hlabel, hmoves, hblind, hnext⟩ := hx
      refine ⟨hlabel, hmoves, ?_, fun s => ih s (hnext s)⟩
      intro s s' h
      exact congrArg (fun y => y.bind k) (hblind s s' h)

theorem Within.mapError
    {E' : Type} {t : E → E'}
    (hx : x.Within D post) :
    (x.mapError t).Within D post := by
  induction x with
  | ret result =>
      cases result with
      | error e => trivial
      | ok a => exact hx
  | sect label f next ih =>
      obtain ⟨hlabel, hmoves, hblind, hnext⟩ := hx
      refine ⟨hlabel, hmoves, ?_, fun s => ih s (hnext s)⟩
      intro s s' h
      exact congrArg (fun y => y.mapError t) (hblind s s' h)

theorem Within.attempt
    {E' : Type}
    (hx : x.Within D post) :
    (x.attempt : Script L S E' (Except E A)).Within D fun _ => True := by
  induction x with
  | ret result =>
      trivial
  | sect label f next ih =>
      obtain ⟨hlabel, hmoves, hblind, hnext⟩ := hx
      refine ⟨hlabel, hmoves, ?_, fun s => ih s (hnext s)⟩
      intro s s' h
      exact congrArg (fun y => (y.attempt : Script L S E' (Except E A))) (hblind s s' h)

theorem Within.atomically
    {label : L} {act : S → Except E A × S}
    (hlabel : D.label label)
    (hmoves : ∀ s, D.moves label s (act s).2)
    (hblind : ∀ s s', D.blind label s s' → (act s').1 = (act s).1)
    (hpost : ∀ s a, (act s).1 = .ok a → post a) :
    (Script.atomically label act).Within D post := by
  refine ⟨hlabel, hmoves, fun s s' h => congrArg Script.ret (hblind s s' h), ?_⟩
  intro s
  change Within D post (.ret (act s).1)
  cases hresult : (act s).1 with
  | error e => trivial
  | ok a => exact hpost s a hresult

end Script

end Bounds

section System

variable (L S E A G ι : Type)

/-- What is needed to reason about every interleaving of scripts. -/
structure Discipline where
  /-- What a thread knows once it has run a section. -/
  track : L → S → G → G
  /-- That what a thread knows is true. -/
  valid : S → G → Prop
  /-- What a thread may do with what it knows. -/
  allowed : G → L → Prop
  /-- The sections that are run in good order. -/
  timely : S → L → Prop
  /-- The sections after which knowledge of another thread may be false. -/
  disturbs : S → L → G → Prop

/-- A shared state, and threads with what they know. -/
structure System where
  shared : S
  knows : ι → G
  code : ι → Script L S E A

end System

section Interleaving

variable {L S E A B G ι : Type}

/-- One section keeps the discipline, for its thread and for the others. -/
structure Discipline.Keeps (D : Discipline L S G) (g : G) (label : L) (f : S → S) : Prop where
  allowed : D.allowed g label
  own : ∀ s, D.timely s label → D.valid s g → D.valid (f s) (D.track label s g)
  others :
    ∀ s g', D.timely s label → ¬ D.disturbs s label g' → D.valid s g' → D.valid (f s) g'

/-- A script keeps the discipline, and what is known at its result satisfies `post`. -/
def Discipline.Meets (D : Discipline L S G) :
    G → Script L S E A → (G → A → Prop) → Prop
  | g, .ret (.ok a), post => post g a
  | _, .ret (.error _), _ => True
  | g, .sect label f next, post =>
      D.Keeps g label f ∧ ∀ s, D.Meets (D.track label s g) (next s) post

theorem Discipline.Meets.bind
    {D : Discipline L S G} {x : Script L S E A} {k : A → Script L S E B}
    {mid : G → A → Prop} {post : G → B → Prop} {g : G}
    (hx : D.Meets g x mid)
    (hk : ∀ g' a, mid g' a → D.Meets g' (k a) post) :
    D.Meets g (x >>= k) post := by
  change D.Meets g (x.bind k) post
  induction x generalizing g with
  | ret result =>
      cases result with
      | error e => trivial
      | ok a => exact hk g a hx
  | sect label f next ih =>
      exact ⟨hx.1, fun s => ih s (hx.2 s)⟩

theorem Discipline.Meets.mapError
    {E' : Type} {D : Discipline L S G} {t : E → E'} {x : Script L S E A}
    {post : G → A → Prop} {g : G}
    (hx : D.Meets g x post) :
    D.Meets g (x.mapError t) post := by
  induction x generalizing g with
  | ret result =>
      cases result with
      | error e => trivial
      | ok a => exact hx
  | sect label f next ih =>
      exact ⟨hx.1, fun s => ih s (hx.2 s)⟩

theorem Discipline.Meets.attempt
    {E' : Type} {D : Discipline L S G} {x : Script L S E A}
    {post : G → A → Prop} {g : G}
    (hx : D.Meets g x post) :
    D.Meets g (x.attempt : Script L S E' (Except E A)) fun _ _ => True := by
  induction x generalizing g with
  | ret result =>
      trivial
  | sect label f next ih =>
      exact ⟨hx.1, fun s => ih s (hx.2 s)⟩

/-- A script whose result is thrown away keeps the discipline only if it does itself. -/
theorem Discipline.Meets.of_discarded
    {D : Discipline L S G} {x : Script L S E A} {post : G → Unit → Prop} {g : G}
    (hx : D.Meets g (x >>= fun _ => pure ()) post) :
    D.Meets g x fun g' _ => post g' () := by
  change D.Meets g (x.bind fun _ => pure ()) post at hx
  induction x generalizing g with
  | ret result =>
      cases result with
      | error e => trivial
      | ok a => exact hx
  | sect label f next ih =>
      exact ⟨hx.1, fun s => ih s (hx.2 s)⟩

theorem Discipline.Meets.ofExcept
    {D : Discipline L S G} {g : G} (x : Except E A) :
    D.Meets g (Script.ofExcept x) fun _ _ => True := by
  cases x <;> trivial

theorem Discipline.Meets.atomically
    {D : Discipline L S G} {g : G} {label : L} {act : S → Except E A × S}
    {post : G → A → Prop}
    (hkeeps : D.Keeps g label (fun s => (act s).2))
    (hpost : ∀ s a, (act s).1 = .ok a → post (D.track label s g) a) :
    D.Meets g (Script.atomically label act) post := by
  refine ⟨hkeeps, ?_⟩
  intro s
  change D.Meets (D.track label s g) (.ret (act s).1) post
  cases hresult : (act s).1 with
  | error e => trivial
  | ok a => exact hpost s a hresult

variable (D : Discipline L S G)

/-- The label of the section that thread `i` runs next. -/
def System.label? (c : System L S E A G ι) (i : ι) : Option L :=
  match c.code i with
  | .ret _ => none
  | .sect label _ _ => some label

/-- Thread `i` runs its next section in good order and disturbs nobody who has more to run. -/
def System.Undisturbed (c : System L S E A G ι) (i : ι) : Prop :=
  ∀ label, c.label? i = some label →
    D.timely c.shared label ∧
      ∀ j, j ≠ i → c.label? j ≠ none → ¬ D.disturbs c.shared label (c.knows j)

/-- Every thread that has more to run keeps the discipline, and knows only what is true. -/
def System.Sound (c : System L S E A G ι) : Prop :=
  ∀ i, c.label? i ≠ none →
    D.valid c.shared (c.knows i) ∧ D.Meets (c.knows i) (c.code i) fun _ _ => True

variable {D}

theorem System.label?_eq_some
    {c : System L S E A G ι} {i : ι} {label : L} {f : S → S} {next : S → Script L S E A}
    (h : c.code i = .sect label f next) :
    c.label? i = some label := by
  rw [System.label?, h]

/-- In a sound state a thread only does what its knowledge, which is true, allows. -/
theorem System.Sound.allowed
    {c : System L S E A G ι} {i : ι} {label : L}
    (h : c.Sound D)
    (hlabel : c.label? i = some label) :
    D.valid c.shared (c.knows i) ∧ D.allowed (c.knows i) label := by
  obtain ⟨hvalid, hmeets⟩ := h i (by simp [hlabel])
  cases hcode : c.code i with
  | ret result =>
      simp [System.label?, hcode] at hlabel
  | sect label' f next =>
      rw [hcode] at hmeets
      cases (System.label?_eq_some hcode).symm.trans hlabel
      exact ⟨hvalid, hmeets.1.allowed⟩

/-- A thread that has ended changes nothing any more. -/
theorem System.effect_of_ended
    {c : System L S E A G ι} {i : ι}
    (h : c.label? i = none) (s : S) :
    (c.code i).effect s = s := by
  cases hcode : c.code i with
  | ret result => rfl
  | sect label f next => cases (System.label?_eq_some hcode).symm.trans h

/-- A thread leads where its bounds allow. -/
theorem System.moves_of_within
    {c : System L S E A G ι} {i : ι} {label : L} {B : Bounds L S} {post : A → Prop}
    (h : (c.code i).Within B post)
    (hlabel : c.label? i = some label) (s : S) :
    B.label label ∧ B.moves label s ((c.code i).effect s) := by
  cases hcode : c.code i with
  | ret result =>
      simp [System.label?, hcode] at hlabel
  | sect label' f next =>
      rw [hcode] at h
      cases (System.label?_eq_some hcode).symm.trans hlabel
      exact ⟨h.1, h.2.1 s⟩

/-- A thread goes on alike from states that its bounds do not tell apart. -/
theorem System.resume_of_within
    {c : System L S E A G ι} {i : ι} {s s' : S} {B : Bounds L S} {post : A → Prop}
    (h : (c.code i).Within B post)
    (hblind : ∀ label, c.label? i = some label → B.blind label s s') :
    (c.code i).resume s' = (c.code i).resume s := by
  cases hcode : c.code i with
  | ret result => rfl
  | sect label f next =>
      rw [hcode] at h
      exact h.2.2.1 s s' (hblind label (System.label?_eq_some hcode))

variable (D) [DecidableEq ι]

/-- Thread `i` runs its next section. -/
def System.step (c : System L S E A G ι) (i : ι) : System L S E A G ι :=
  match c.code i with
  | .ret _ => c
  | .sect label f next =>
      { shared := f c.shared
        knows := Function.update c.knows i (D.track label c.shared (c.knows i))
        code := Function.update c.code i (next c.shared) }

variable {D}

theorem System.Sound.step
    {c : System L S E A G ι} {i : ι}
    (hquiet : c.Undisturbed D i)
    (h : c.Sound D) :
    (System.step D c i).Sound D := by
  cases hcode : c.code i with
  | ret result =>
      simpa [System.step, hcode] using h
  | sect label f next =>
      have hlabel := System.label?_eq_some hcode
      obtain ⟨htimely, hothers⟩ := hquiet label hlabel
      obtain ⟨hvalid, hmeets⟩ := h i (by simp [hlabel])
      rw [hcode] at hmeets
      obtain ⟨hkeeps, hnext⟩ := hmeets
      intro j hj'
      simp only [System.step, hcode, System.label?] at hj' ⊢
      by_cases hj : j = i
      · subst hj
        simp only [Function.update_self]
        exact ⟨hkeeps.own _ htimely hvalid, hnext _⟩
      · simp only [Function.update_of_ne hj] at hj' ⊢
        exact ⟨hkeeps.others _ _ htimely (hothers j hj hj') (h j hj').1, (h j hj').2⟩

/-- The invariant of every run whose steps disturb nobody. -/
theorem System.sound_run
    {c : System L S E A G ι} {schedule : List ι}
    (hquiet : along (System.step D) (System.Undisturbed D) c schedule)
    (h : c.Sound D) :
    (run (System.step D) c schedule).Sound D := by
  have hstep : ∀ (c : System L S E A G ι) (i : ι),
      c.Undisturbed D i → c.Sound D → (System.step D c i).Sound D := by
    intro c i hq hs
    exact hs.step hq
  exact run_invariant_along hstep hquiet h

/-- What every section of every thread keeps holds in every interleaving. -/
theorem System.ensures_run
    {c : System L S E A G ι} {schedule : List ι} {inv : S → Prop} {post : ι → A → Prop}
    (hs : inv c.shared)
    (hcode : ∀ i, (c.code i).Ensures inv (post i)) :
    inv (run (System.step D) c schedule).shared ∧
      ∀ i, ((run (System.step D) c schedule).code i).Ensures inv (post i) := by
  refine run_invariant
    (fun c : System L S E A G ι => inv c.shared ∧ ∀ i, (c.code i).Ensures inv (post i))
    (fun _ => True) ?_ (fun _ _ => trivial) ⟨hs, hcode⟩
  rintro c i - ⟨hs, hcode⟩
  cases heq : c.code i with
  | ret result =>
      simpa [System.step, heq] using And.intro hs hcode
  | sect label f next =>
      have hi := hcode i
      rw [heq] at hi
      obtain ⟨hs', hnext⟩ := hi c.shared hs
      simp only [System.step, heq]
      refine ⟨hs', ?_⟩
      intro j
      by_cases hj : j = i
      · subst hj
        rw [Function.update_self]
        exact hnext
      · rw [Function.update_of_ne hj]
        exact hcode j

/-- A thread stays within its bounds, whatever the others do. -/
theorem System.within_run
    {c : System L S E A G ι} {i : ι} {B : Bounds L S} {post : A → Prop}
    (h : (c.code i).Within B post) (schedule : List ι) :
    ((run (System.step D) c schedule).code i).Within B post := by
  refine run_invariant (fun c : System L S E A G ι => (c.code i).Within B post)
    (fun _ => True) ?_ (fun _ _ => trivial) h
  rintro c j - hc
  cases heq : c.code j with
  | ret result =>
      simpa only [System.step, heq] using hc
  | sect label f next =>
      simp only [System.step, heq]
      by_cases hj : i = j
      · subst hj
        rw [heq] at hc
        rw [Function.update_self]
        exact hc.2.2.2 c.shared
      · rw [Function.update_of_ne hj]
        exact hc

/-- What is made of the results in the end changes nothing before it. -/
theorem System.run_of_results
    {A' : Type} {c : System L S E A G ι} {c' : System L S E A' G ι} {k : A → A'}
    (hshared : c'.shared = c.shared)
    (hcode : ∀ i, c'.code i = c.code i >>= fun a => pure (k a)) (schedule : List ι) :
    (run (System.step D) c' schedule).shared = (run (System.step D) c schedule).shared ∧
      ∀ i, (run (System.step D) c' schedule).code i =
        (run (System.step D) c schedule).code i >>= fun a => pure (k a) := by
  induction schedule generalizing c c' with
  | nil =>
      exact ⟨hshared, hcode⟩
  | cons i schedule ih =>
      cases heq : c.code i with
      | ret result =>
          have heq' : c'.code i = .ret result >>= fun a => pure (k a) := by
            rw [hcode, heq]
          have hret : ∃ result', c'.code i = .ret result' := by
            cases result <;> exact ⟨_, heq'⟩
          obtain ⟨result', hret⟩ := hret
          rw [run_cons, run_cons]
          refine ih ?_ ?_
          · simpa only [System.step, heq, hret] using hshared
          · simpa only [System.step, heq, hret] using hcode
      | sect label f next =>
          have heq' : c'.code i = .sect label f fun s => next s >>= fun a => pure (k a) := by
            rw [hcode, heq]
            rfl
          rw [run_cons, run_cons]
          refine ih ?_ ?_
          · simp only [System.step, heq, heq', hshared]
          · intro j
            simp only [System.step, heq, heq', hshared]
            by_cases hj : j = i
            · subst hj
              rw [Function.update_self, Function.update_self]
            · rw [Function.update_of_ne hj, Function.update_of_ne hj]
              exact hcode j

end Interleaving

end Lib
end Secretbae
