import Secretbae.Lib.Safe

/-!
# Threads that write into one ledger

A `Ledger` says what it means that records have been added to a state and
nothing else has happened to those already there.  `Script.Tells` describes what
one thread adds: what it has told so far wherever it is stopped, and what it has
told altogether when it ends, together with its result.

`System.tells_run` is the meaning of this for any number of threads: the ledger
holds what it held before, then a merge of what the threads have told, and every
thread has told what `Tells` says.  A thread tells nothing before it is
scheduled, and nothing after it has ended.
-/

namespace Secretbae
namespace Lib

/-- A notion of adding records of the type `T`. -/
structure Ledger (S T : Type) where
  /-- The second state has these records after those of the first. -/
  adds : S → List T → S → Prop
  nothing : ∀ s, adds s [] s
  append : ∀ {s t u new more}, adds s new t → adds t more u → adds s (new ++ more) u

/-- What thread `i` contributed to a merge. -/
def own {ι T : Type} [DecidableEq ι] (i : ι) (trace : List (ι × T)) : List T :=
  (trace.filter fun e => decide (e.1 = i)).map Prod.snd

section Own

variable {ι T : Type} [DecidableEq ι]

@[simp] theorem own_nil
    (i : ι) :
    own i ([] : List (ι × T)) = [] := by
  rfl

@[simp] theorem own_append
    (i : ι) (trace more : List (ι × T)) :
    own i (trace ++ more) = own i trace ++ own i more := by
  simp [own]

@[simp] theorem own_self
    (i : ι) (new : List T) :
    own i (new.map fun t => (i, t)) = new := by
  simp [own, List.filter_map, Function.comp_def]

theorem mem_own
    {i : ι} {t : T} {trace : List (ι × T)} :
    t ∈ own i trace ↔ (i, t) ∈ trace := by
  simp only [own, List.mem_map, List.mem_filter, decide_eq_true_eq]
  constructor
  · rintro ⟨⟨j, t'⟩, ⟨hmem, rfl⟩, rfl⟩
    exact hmem
  · exact fun hmem => ⟨(i, t), ⟨hmem, rfl⟩, rfl⟩

theorem own_other
    {i j : ι}
    (h : j ≠ i) (new : List T) :
    own j (new.map fun t => (i, t)) = [] := by
  simp [own, h.symm]

variable {κ : Type} [DecidableEq κ]

/-- Under other names for the threads. -/
theorem own_relabel
    {f : ι → κ}
    (hf : Function.Injective f) (i : ι) (trace : List (ι × T)) :
    own (f i) (trace.map (Prod.map f id)) = own i trace := by
  simp [own, List.filter_map, Function.comp_def, hf.eq_iff]

omit [DecidableEq ι] in
theorem own_relabel_of_ne
    {f : ι → κ} {j : κ}
    (h : ∀ i, f i ≠ j) (trace : List (ι × T)) :
    own j (trace.map (Prod.map f id)) = [] := by
  simp only [own, List.map_eq_nil_iff, List.filter_eq_nil_iff, List.mem_map, decide_eq_true_eq]
  rintro _ ⟨t, -, rfl⟩
  exact h t.1

end Own

namespace Script

section Tells

variable {L S E A A' T : Type} {B : Ledger S T} {midway : List T → Prop}

/--
After `told` the code goes on such that `midway` holds of all it has told
wherever it has more to run, and `post` of all it has told when it ends.
-/
def Tells (B : Ledger S T) (midway : List T → Prop) (post : List T → Except E A → Prop) :
    List T → Script L S E A → Prop
  | told, .ret result => post told result
  | told, .sect _ f next =>
      midway told ∧
        ∀ s, ∃ new, B.adds s new (f s) ∧ (next s).Tells B midway post (told ++ new)

/-- An error of the first part is the error of the sequence. -/
theorem Tells.bind
    {mid : List T → Except E A → Prop} {post : List T → Except E A' → Prop}
    {x : Script L S E A} {k : A → Script L S E A'} {told : List T}
    (hx : x.Tells B midway mid told)
    (hk : ∀ told a, mid told (.ok a) → (k a).Tells B midway post told)
    (herror : ∀ told e, mid told (.error e) → post told (.error e)) :
    (x >>= k).Tells B midway post told := by
  change (x.bind k).Tells B midway post told
  induction x generalizing told with
  | ret result =>
      cases result with
      | error e => exact herror told e hx
      | ok a => exact hk told a hx
  | sect label f next ih =>
      refine ⟨hx.1, ?_⟩
      intro s
      obtain ⟨new, hadds, hnext⟩ := hx.2 s
      exact ⟨new, hadds, ih s hnext⟩

theorem Tells.mono
    {post post' : List T → Except E A → Prop} {x : Script L S E A} {told : List T}
    (hx : x.Tells B midway post told)
    (himp : ∀ told result, post told result → post' told result) :
    x.Tells B midway post' told := by
  induction x generalizing told with
  | ret result =>
      exact himp told result hx
  | sect label f next ih =>
      refine ⟨hx.1, ?_⟩
      intro s
      obtain ⟨new, hadds, hnext⟩ := hx.2 s
      exact ⟨new, hadds, ih s hnext⟩

theorem Tells.mapError
    {E' : Type} {t : E → E'} {mid : List T → Except E A → Prop}
    {post : List T → Except E' A → Prop} {x : Script L S E A} {told : List T}
    (hx : x.Tells B midway mid told)
    (hpost : ∀ told result, mid told result → post told (result.mapError t)) :
    (x.mapError t).Tells B midway post told := by
  induction x generalizing told with
  | ret result =>
      exact hpost told result hx
  | sect label f next ih =>
      refine ⟨hx.1, ?_⟩
      intro s
      obtain ⟨new, hadds, hnext⟩ := hx.2 s
      exact ⟨new, hadds, ih s hnext⟩

theorem Tells.attempt
    {E' : Type} {mid : List T → Except E A → Prop}
    {post : List T → Except E' (Except E A) → Prop} {x : Script L S E A} {told : List T}
    (hx : x.Tells B midway mid told)
    (hpost : ∀ told result, mid told result → post told (.ok result)) :
    (x.attempt : Script L S E' (Except E A)).Tells B midway post told := by
  induction x generalizing told with
  | ret result =>
      exact hpost told result hx
  | sect label f next ih =>
      refine ⟨hx.1, ?_⟩
      intro s
      obtain ⟨new, hadds, hnext⟩ := hx.2 s
      exact ⟨new, hadds, ih s hnext⟩

/-- One section, which may look at the state to decide what to tell. -/
theorem Tells.atomically
    {post : List T → Except E A → Prop} {label : L} {act : S → Except E A × S} {told : List T}
    (hmidway : midway told)
    (h : ∀ s, ∃ new, B.adds s new (act s).2 ∧ post (told ++ new) (act s).1) :
    (Script.atomically label act).Tells B midway post told :=
  ⟨hmidway, h⟩

/-- One section that tells nothing. -/
theorem Tells.silently
    {post : List T → Except E A → Prop} {label : L} {act : S → Except E A × S} {told : List T}
    (hmidway : midway told)
    (hadds : ∀ s, B.adds s [] (act s).2)
    (hpost : ∀ s, post told (act s).1) :
    (Script.atomically label act).Tells B midway post told :=
  .atomically hmidway fun s => ⟨[], hadds s, by simpa using hpost s⟩

/-- Code that tells nothing, whatever has been told, and returns what is `good`. -/
def Idle (B : Ledger S T) (good : A → Prop) (x : Script L S E A) : Prop :=
  ∀ (midway : List T → Prop) (told : List T), midway told →
    x.Tells B midway (fun told' result => told' = told ∧ ∀ a, result = .ok a → good a) told

variable {good : A → Prop} {x : Script L S E A} {told : List T}

theorem Idle.atomically
    {label : L} {act : S → Except E A × S}
    (hadds : ∀ s, B.adds s [] (act s).2)
    (hgood : ∀ s a, (act s).1 = .ok a → good a) :
    Idle B good (Script.atomically label act) :=
  fun _ _ hmidway => .silently hmidway hadds fun s => ⟨rfl, hgood s⟩

/-- A section that only looks. -/
theorem idle_looking
    {label : L} (f : S → Except E A) :
    Idle B (fun _ => True) (Script.atomically label fun s => (f s, s)) :=
  .atomically (fun s => B.nothing s) fun _ _ _ => trivial

theorem idle_ofExcept
    (result : Except E A) :
    Idle B (fun _ => True) (Script.ofExcept result : Script L S E A) :=
  fun _ _ _ => ⟨rfl, fun _ _ => trivial⟩

theorem Idle.mapError
    {E' : Type} {t : E → E'}
    (h : Idle B good x) :
    Idle B good (x.mapError t) := by
  intro midway told hmidway
  refine (h midway told hmidway).mapError ?_
  rintro told' (e | a) ⟨rfl, hgood⟩
  · exact ⟨rfl, fun _ h => by cases h⟩
  · exact ⟨rfl, fun b h => by cases h; exact hgood a rfl⟩

/-- After code that tells nothing it is as if nothing had happened. -/
theorem Idle.bind
    {post : List T → Except E A' → Prop} {k : A → Script L S E A'}
    (hx : Idle B good x)
    (hmidway : midway told)
    (hk : ∀ a, good a → (k a).Tells B midway post told)
    (herror : ∀ e, post told (.error e)) :
    (x >>= k).Tells B midway post told := by
  refine (hx midway told hmidway).bind ?_ ?_
  · rintro told' a ⟨rfl, hgood⟩
    exact hk a (hgood a rfl)
  · rintro told' e ⟨rfl, -⟩
    exact herror e

theorem Idle.then
    {good' : A' → Prop} {k : A → Script L S E A'}
    (hx : Idle B good x)
    (hk : ∀ a, good a → Idle B good' (k a)) :
    Idle B good' (x >>= k) := by
  intro midway told hmidway
  refine hx.bind hmidway ?_ fun e => ⟨rfl, fun _ h => by cases h⟩
  intro a ha
  exact hk a ha midway told hmidway

theorem Idle.attempt
    {E' : Type}
    (h : Idle B good x) :
    Idle B (fun _ => True) (x.attempt : Script L S E' (Except E A)) := by
  intro midway told hmidway
  refine (h midway told hmidway).attempt ?_
  rintro told' result ⟨rfl, -⟩
  exact ⟨rfl, fun _ _ => trivial⟩

/-- What comes next of code that tells nothing has been told nothing either. -/
theorem nil_of_tells
    {new : List T}
    (h : x.Tells B (· = []) (fun told result => told = [] ∧ ∀ a, result = .ok a → good a) new) :
    new = [] := by
  cases x with
  | ret result => exact h.1
  | sect label f next => exact h.1

/-- Code that tells nothing, stopped anywhere. -/
theorem Idle.safe
    {crash : S → Prop} {s₀ s : S}
    (hx : Idle B good x)
    (hcrash : ∀ s', B.adds s₀ [] s' → crash s')
    (hs : B.adds s₀ [] s) :
    x.Safe crash (fun a s' => B.adds s₀ [] s' ∧ good a) s := by
  have htells := hx (· = []) [] rfl
  clear hx
  induction x generalizing s with
  | ret result =>
      cases result with
      | error e => exact hcrash s hs
      | ok a => exact ⟨hcrash s hs, hs, htells.2 a rfl⟩
  | sect label f next ih =>
      refine ⟨hcrash s hs, ?_⟩
      obtain ⟨new, hadds, hnext⟩ := htells.2 s
      obtain rfl : new = [] := nil_of_tells hnext
      exact ih s (B.append hs hadds) hnext

/-- Code that tells nothing, run to its end. -/
theorem Idle.alone
    {s : S}
    (hx : Idle B good x) :
    B.adds s [] (x.alone s).2 := by
  obtain ⟨n, hn⟩ := exists_stopped_eq_alone x s
  rw [← hn n le_rfl]
  exact (hx.safe (fun _ h => h) (B.nothing s)).stopped n

end Tells

end Script

section Interleaving

variable {L S E A G ι T : Type} [DecidableEq ι] {D : Discipline L S G} {B : Ledger S T}

/-- What one thread tells is added, and the others tell nothing meanwhile. -/
theorem System.tells_step
    {c : System L S E A G ι} {i : ι} {told : ι → List T} {midway : ι → List T → Prop}
    {post : ι → List T → Except E A → Prop}
    (hcode : ∀ j, (c.code j).Tells B (midway j) (post j) (told j)) :
    ∃ new : List (ι × T), B.adds c.shared (new.map Prod.snd) (System.step D c i).shared ∧
      (∀ j, ((System.step D c i).code j).Tells B (midway j) (post j) (told j ++ own j new)) ∧
      ∀ j, (j ≠ i ∨ ∃ result, c.code j = .ret result) → own j new = [] := by
  cases heq : c.code i with
  | ret result =>
      refine ⟨[], ?_, ?_, fun _ _ => own_nil _⟩
      · simpa [System.step, heq] using B.nothing c.shared
      · simpa [System.step, heq] using hcode
  | sect label f next =>
      have hi := hcode i
      rw [heq] at hi
      obtain ⟨new, hadds, hnext⟩ := hi.2 c.shared
      refine ⟨new.map fun t => (i, t), ?_, ?_, ?_⟩
      · simpa [System.step, heq, Function.comp_def] using hadds
      · intro j
        simp only [System.step, heq]
        by_cases hj : j = i
        · subst hj
          rw [Function.update_self, own_self]
          exact hnext
        · rw [Function.update_of_ne hj, own_other hj, List.append_nil]
          exact hcode j
      · rintro j (hj | ⟨result, hret⟩)
        · exact own_other hj new
        · refine own_other ?_ new
          rintro rfl
          rw [heq] at hret
          cases hret

/-- A thread that has ended stays as it is. -/
theorem System.ret_step
    {c : System L S E A G ι} {i j : ι} {result : Except E A}
    (h : c.code j = .ret result) :
    (System.step D c i).code j = .ret result := by
  cases heq : c.code i with
  | ret _ =>
      simpa [System.step, heq] using h
  | sect label f next =>
      have hj : j ≠ i := by
        rintro rfl
        rw [heq] at h
        cases h
      simpa [System.step, heq, Function.update_of_ne hj] using h

/-- The ledger of every interleaving is a merge of what the threads tell. -/
theorem System.tells_run
    {c : System L S E A G ι} {told : ι → List T} {midway : ι → List T → Prop}
    {post : ι → List T → Except E A → Prop}
    (hcode : ∀ i, (c.code i).Tells B (midway i) (post i) (told i)) (schedule : List ι) :
    ∃ trace : List (ι × T),
      B.adds c.shared (trace.map Prod.snd) (run (System.step D) c schedule).shared ∧
        (∀ i, ((run (System.step D) c schedule).code i).Tells B (midway i) (post i)
          (told i ++ own i trace)) ∧
        ∀ i, (i ∉ schedule ∨ ∃ result, c.code i = .ret result) → own i trace = [] := by
  induction schedule generalizing c told with
  | nil =>
      exact ⟨[], B.nothing c.shared, by simpa using hcode, fun _ _ => own_nil _⟩
  | cons i schedule ih =>
      obtain ⟨new, hadds, hstep, hquiet⟩ := System.tells_step (D := D) (i := i) hcode
      obtain ⟨trace, hmore, hrun, hsilent⟩ := ih hstep
      refine ⟨new ++ trace, ?_, ?_, ?_⟩
      · rw [List.map_append]
        exact B.append hadds hmore
      · intro j
        rw [own_append, ← List.append_assoc]
        exact hrun j
      · rintro j (hj | ⟨result, hret⟩)
        · obtain ⟨hne, hrest⟩ := List.ne_and_not_mem_of_not_mem_cons hj
          rw [own_append, hquiet j (.inl hne), hsilent j (.inl hrest), List.append_nil]
        · rw [own_append, hquiet j (.inr ⟨result, hret⟩),
            hsilent j (.inr ⟨result, System.ret_step hret⟩), List.append_nil]

end Interleaving

end Lib
end Secretbae
