import Mathlib.Data.Set.Insert
import Mathlib.Logic.Function.Basic
import Secretbae.Lib.Runs

/-!
# Threads that wait for each other's locks

Any number of threads over a type `κ` of locks.  All that is kept of a thread
is the list of its acquisitions and releases.  A lock is held shared or
exclusively; a thread that cannot have it exclusively joins those that wait for
it, and as long as somebody waits so, nobody else gets it shared.  A mutex is a
lock that is only ever taken exclusively.

`Deadlocked` is a set of threads each of which waits for a member of the set.
What rules it out is a discipline: which action a thread may come to, given the
locks that it holds.  `Obeys` says that the code of a thread keeps to one, it is
checked section by section (`Section`), and `Inv.step` carries it to every
state of a run.
-/

namespace Secretbae
namespace Lib

universe u v

/-- How a lock is held. -/
inductive Mode where
  | shared
  | exclusive
  deriving DecidableEq

inductive Act (κ : Type v) where
  | acquire (lock : κ) (mode : Mode)
  | release (lock : κ)
  deriving DecidableEq

/-- A thread that holds a lock. -/
structure Guard (ι : Type u) (κ : Type v) where
  thread : ι
  lock : κ
  mode : Mode
  deriving DecidableEq

/-- The locks that are held and waited for, and what is left of each thread. -/
structure Locking (ι : Type u) (κ : Type v) where
  guards : List (Guard ι κ)
  /-- The threads that wait to hold a lock exclusively. -/
  waiting : List (ι × κ)
  code : ι → List (Act κ)

namespace Locking

section Semantics

variable {ι : Type u} {κ : Type v} [DecidableEq κ]

/-- The lock can be had in this mode. -/
def Free (s : Locking ι κ) (k : κ) : Mode → Prop
  | .shared => (∀ g ∈ s.guards, g.lock = k → g.mode = .shared) ∧ ∀ w ∈ s.waiting, w.2 ≠ k
  | .exclusive => ∀ g ∈ s.guards, g.lock ≠ k

instance decidableFree (s : Locking ι κ) (k : κ) : ∀ m, Decidable (s.Free k m)
  | .shared =>
      inferInstanceAs (Decidable
        ((∀ g ∈ s.guards, g.lock = k → g.mode = .shared) ∧ ∀ w ∈ s.waiting, w.2 ≠ k))
  | .exclusive => inferInstanceAs (Decidable (∀ g ∈ s.guards, g.lock ≠ k))

variable [DecidableEq ι]

/-- The thread `i` gets the lock and goes on with `rest`. -/
def grant (s : Locking ι κ) (i : ι) (k : κ) (m : Mode) (rest : List (Act κ)) :
    Locking ι κ where
  guards := ⟨i, k, m⟩ :: s.guards
  waiting := s.waiting.filter (· ≠ (i, k))
  code := Function.update s.code i rest

/-- The thread `i` waits to hold the lock exclusively. -/
def enqueue (s : Locking ι κ) (i : ι) (k : κ) : Locking ι κ :=
  { s with waiting := s.waiting.insert (i, k) }

/-- The thread `i` gives the lock back and goes on with `rest`. -/
def drop (s : Locking ι κ) (i : ι) (k : κ) (rest : List (Act κ)) : Locking ι κ where
  guards := s.guards.filter fun g => ¬ (g.thread = i ∧ g.lock = k)
  waiting := s.waiting
  code := Function.update s.code i rest

/-- One step of the thread `i`; a thread that cannot go on stays where it is. -/
def step (s : Locking ι κ) (i : ι) : Locking ι κ :=
  match s.code i with
  | [] => s
  | .acquire k m :: rest =>
      if s.Free k m then s.grant i k m rest
      else if m = .exclusive then s.enqueue i k else s
  | .release k :: rest => s.drop i k rest

/-- All threads at their beginning, no lock held. -/
def start (code : ι → List (Act κ)) : Locking ι κ where
  guards := []
  waiting := []
  code := code

/-- All that a step can do. -/
theorem step_cases
    (s : Locking ι κ) (i : ι) :
    s.step i = s ∨
    (∃ k m rest, s.code i = .acquire k m :: rest ∧ s.Free k m ∧
      s.step i = s.grant i k m rest) ∨
    (∃ k rest, s.code i = .acquire k .exclusive :: rest ∧ ¬ s.Free k .exclusive ∧
      s.step i = s.enqueue i k) ∨
    (∃ k rest, s.code i = .release k :: rest ∧ s.step i = s.drop i k rest) := by
  unfold step
  cases hcode : s.code i with
  | nil =>
      exact .inl rfl
  | cons act rest =>
      cases act with
      | release k =>
          exact .inr (.inr (.inr ⟨k, rest, rfl, rfl⟩))
      | acquire k m =>
          dsimp only
          split
          · rename_i hfree
            exact .inr (.inl ⟨k, m, rest, rfl, hfree, rfl⟩)
          · rename_i hfree
            split
            · rename_i hm
              subst hm
              exact .inr (.inr (.inl ⟨k, rest, rfl, hfree, rfl⟩))
            · exact .inl rfl

end Semantics

section Deadlock

variable {ι : Type u} {κ : Type v}

/-- What comes next cannot be done before the thread `j` has done something. -/
def BlockedBy (s : Locking ι κ) (j : ι) : List (Act κ) → Prop
  | [] => False
  | .acquire k .shared :: _ => ⟨j, k, .exclusive⟩ ∈ s.guards ∨ (j, k) ∈ s.waiting
  | .acquire k .exclusive :: _ => ⟨j, k, .shared⟩ ∈ s.guards ∨ ⟨j, k, .exclusive⟩ ∈ s.guards
  | .release _ :: _ => False

instance [DecidableEq ι] [DecidableEq κ] (s : Locking ι κ) (j : ι) :
    ∀ code, Decidable (s.BlockedBy j code)
  | [] => .isFalse id
  | .acquire k .shared :: _ =>
      inferInstanceAs (Decidable (⟨j, k, .exclusive⟩ ∈ s.guards ∨ (j, k) ∈ s.waiting))
  | .acquire k .exclusive :: _ =>
      inferInstanceAs
        (Decidable (⟨j, k, .shared⟩ ∈ s.guards ∨ ⟨j, k, .exclusive⟩ ∈ s.guards))
  | .release _ :: _ => .isFalse id

/-- The thread `i` waits for a lock until the thread `j` has done something. -/
def WaitsFor (s : Locking ι κ) (i j : ι) : Prop :=
  s.BlockedBy j (s.code i)

instance [DecidableEq ι] [DecidableEq κ] (s : Locking ι κ) (i j : ι) :
    Decidable (s.WaitsFor i j) :=
  inferInstanceAs (Decidable (s.BlockedBy j (s.code i)))

/-- A set of threads each of which waits for one of them. -/
def Deadlocked (s : Locking ι κ) (threads : Set ι) : Prop :=
  threads.Nonempty ∧ ∀ i ∈ threads, ∃ j ∈ threads, s.WaitsFor i j

/-- A thread that waits is about to acquire a lock. -/
theorem WaitsFor.cases
    {s : Locking ι κ} {i j : ι}
    (h : s.WaitsFor i j) :
    (∃ k rest, s.code i = .acquire k .shared :: rest ∧
      (⟨j, k, .exclusive⟩ ∈ s.guards ∨ (j, k) ∈ s.waiting)) ∨
    (∃ k m rest, s.code i = .acquire k .exclusive :: rest ∧ ⟨j, k, m⟩ ∈ s.guards) := by
  unfold WaitsFor at h
  match hcode : s.code i with
  | [] =>
      rw [hcode] at h
      cases h
  | .release k :: rest =>
      rw [hcode] at h
      cases h
  | .acquire k .shared :: rest =>
      rw [hcode] at h
      exact .inl ⟨k, rest, rfl, h⟩
  | .acquire k .exclusive :: rest =>
      rw [hcode] at h
      obtain hg | hg := h
      · exact .inr ⟨k, .shared, rest, rfl, hg⟩
      · exact .inr ⟨k, .exclusive, rest, rfl, hg⟩

theorem waitsFor_of_waiting
    {s : Locking ι κ} {i j : ι} {k : κ} {rest : List (Act κ)}
    (hcode : s.code i = .acquire k .shared :: rest)
    (hmem : (j, k) ∈ s.waiting) :
    s.WaitsFor i j := by
  unfold WaitsFor
  rw [hcode]
  exact .inr hmem

theorem waitsFor_of_guard
    {s : Locking ι κ} {i j : ι} {k : κ} {m : Mode} {rest : List (Act κ)}
    (hcode : s.code i = .acquire k .exclusive :: rest)
    (hmem : ⟨j, k, m⟩ ∈ s.guards) :
    s.WaitsFor i j := by
  unfold WaitsFor
  rw [hcode]
  cases m with
  | shared => exact .inl hmem
  | exclusive => exact .inr hmem

theorem deadlocked_of_cycle
    {s : Locking ι κ} {i j k : ι}
    (hij : s.WaitsFor i j)
    (hjk : s.WaitsFor j k)
    (hki : s.WaitsFor k i) :
    s.Deadlocked {i, j, k} := by
  refine ⟨⟨i, by simp⟩, ?_⟩
  rintro t (rfl | rfl | rfl)
  · exact ⟨j, by simp, hij⟩
  · exact ⟨k, by simp, hjk⟩
  · exact ⟨i, by simp, hki⟩

end Deadlock

end Locking

section Discipline

variable {κ : Type v} [DecidableEq κ]

/-- The locks that a thread holds after one of its actions. -/
def Act.after (held : List (κ × Mode)) : Act κ → List (κ × Mode)
  | .acquire k m => (k, m) :: held
  | .release k => held.filter fun h => h.1 ≠ k

/-- Every action of the code is one that may come, given the locks held then. -/
def Obeys (ok : List (κ × Mode) → Act κ → Prop) : List (κ × Mode) → List (Act κ) → Prop
  | _, [] => True
  | held, act :: rest => ok held act ∧ Obeys ok (act.after held) rest

/-- Code that obeys, from no lock held to no lock held. -/
def Section (ok : List (κ × Mode) → Act κ → Prop) (code : List (Act κ)) : Prop :=
  Obeys ok [] code ∧ code.foldl Act.after [] = []

variable {ok : List (κ × Mode) → Act κ → Prop}

instance decidableObeys [∀ held act, Decidable (ok held act)] :
    ∀ held code, Decidable (Obeys ok held code)
  | _, [] => .isTrue trivial
  | held, act :: rest =>
      have := decidableObeys (act.after held) rest
      inferInstanceAs (Decidable (ok held act ∧ Obeys ok (act.after held) rest))

instance [∀ held act, Decidable (ok held act)] (code : List (Act κ)) :
    Decidable (Section ok code) :=
  inferInstanceAs (Decidable (Obeys ok [] code ∧ code.foldl Act.after [] = []))

theorem Obeys.append
    {held : List (κ × Mode)} {first second : List (Act κ)}
    (hfirst : Obeys ok held first)
    (hsecond : Obeys ok (first.foldl Act.after held) second) :
    Obeys ok held (first ++ second) := by
  induction first generalizing held with
  | nil =>
      exact hsecond
  | cons act rest ih =>
      exact ⟨hfirst.1, ih hfirst.2 hsecond⟩

theorem Section.nil :
    Section ok [] :=
  ⟨trivial, rfl⟩

theorem Section.append
    {first second : List (Act κ)}
    (hfirst : Section ok first)
    (hsecond : Section ok second) :
    Section ok (first ++ second) := by
  refine ⟨hfirst.1.append ?_, ?_⟩
  · rw [hfirst.2]
    exact hsecond.1
  · rw [List.foldl_append, hfirst.2]
    exact hsecond.2

/-- Code that may be left out. -/
theorem Section.ite
    {p : Prop} [Decidable p] {code other : List (Act κ)}
    (hcode : Section ok code)
    (hother : Section ok other) :
    Section ok (if p then code else other) := by
  split
  · exact hcode
  · exact hother

end Discipline

namespace Locking

section Invariant

variable {ι : Type u} {κ : Type v} [DecidableEq ι] [DecidableEq κ]

/-- The locks that the thread `i` holds. -/
def held (s : Locking ι κ) (i : ι) : List (κ × Mode) :=
  (s.guards.filter (·.thread = i)).map fun g => (g.lock, g.mode)

omit [DecidableEq κ] in
theorem mem_held
    {s : Locking ι κ} {i : ι} {k : κ} {m : Mode} :
    (k, m) ∈ s.held i ↔ ⟨i, k, m⟩ ∈ s.guards := by
  constructor
  · intro h
    obtain ⟨⟨j, k', m'⟩, hg, heq⟩ := List.mem_map.mp h
    obtain ⟨hmem, hthread⟩ := List.mem_filter.mp hg
    cases heq
    simp only [decide_eq_true_eq] at hthread
    subst hthread
    exact hmem
  · intro h
    exact List.mem_map.mpr ⟨_, List.mem_filter.mpr ⟨h, by simp⟩, rfl⟩

theorem held_grant
    (s : Locking ι κ) (i j : ι) (k : κ) (m : Mode) (rest : List (Act κ)) :
    (s.grant i k m rest).held j = if j = i then (k, m) :: s.held i else s.held j := by
  by_cases hj : j = i
  · subst hj
    simp [held, grant]
  · have hne : ¬ i = j := fun h => hj h.symm
    simp [held, grant, hj, hne]

theorem held_drop
    (s : Locking ι κ) (i j : ι) (k : κ) (rest : List (Act κ)) :
    (s.drop i k rest).held j =
      if j = i then (s.held i).filter fun h => h.1 ≠ k else s.held j := by
  by_cases hj : j = i
  · subst hj
    simp only [held, drop, if_true, List.filter_filter, List.filter_map]
    congr 1
    refine List.filter_congr ?_
    intro g _
    by_cases hthread : g.thread = j <;> simp [hthread]
  · simp only [held, drop, hj, if_false, List.filter_filter]
    congr 1
    refine List.filter_congr ?_
    intro g _
    by_cases hthread : g.thread = j
    · simp [hthread, hj]
    · simp [hthread]

/-- What holds between any two steps of threads that obey. -/
structure Inv (ok : List (κ × Mode) → Act κ → Prop) (s : Locking ι κ) : Prop where
  obeys : ∀ i, Obeys ok (s.held i) (s.code i)
  excluded : ∀ g ∈ s.guards, g.mode = .exclusive → ∀ g' ∈ s.guards, g'.lock = g.lock → g' = g
  waiting : ∀ i k, (i, k) ∈ s.waiting → ∃ rest, s.code i = .acquire k .exclusive :: rest

variable {ok : List (κ × Mode) → Act κ → Prop}

theorem inv_start
    {code : ι → List (Act κ)}
    (hcode : ∀ i, Section ok (code i)) :
    (start code).Inv ok where
  obeys := fun i => (hcode i).1
  excluded := by
    intro g h
    cases h
  waiting := by
    intro i k h
    cases h

/-- A lock that is granted is held by no other thread, or shared by all. -/
theorem Inv.excluded_grant
    {s : Locking ι κ} {k : κ} {m : Mode}
    (h : s.Inv ok)
    (hfree : s.Free k m)
    (i : ι) :
    ∀ g ∈ (⟨i, k, m⟩ :: s.guards : List (Guard ι κ)), g.mode = .exclusive →
      ∀ g' ∈ (⟨i, k, m⟩ :: s.guards : List (Guard ι κ)), g'.lock = g.lock → g' = g := by
  intro g hg hmode g' hg' hlock
  obtain rfl | hold := List.mem_cons.mp hg <;> obtain rfl | hold' := List.mem_cons.mp hg'
  · rfl
  · cases hmode
    exact absurd hlock (hfree g' hold')
  · cases m with
    | shared =>
        have hshared := hfree.1 g hold hlock.symm
        rw [hmode] at hshared
        cases hshared
    | exclusive => exact absurd hlock.symm (hfree g hold)
  · exact h.excluded g hold hmode g' hold' hlock

/-- The thread `i` has taken its next action. -/
theorem Inv.advance
    {s s' : Locking ι κ} {i : ι} {act : Act κ} {rest : List (Act κ)}
    (h : s.Inv ok)
    (hcode : s.code i = act :: rest)
    (hcode' : s'.code = Function.update s.code i rest)
    (hheld : ∀ j, s'.held j = if j = i then act.after (s.held i) else s.held j)
    (hexcluded : ∀ g ∈ s'.guards, g.mode = .exclusive →
      ∀ g' ∈ s'.guards, g'.lock = g.lock → g' = g)
    (hwaiting : ∀ j k, (j, k) ∈ s'.waiting → (j, k) ∈ s.waiting ∧ j ≠ i) :
    s'.Inv ok where
  obeys := by
    intro j
    rw [hheld, hcode']
    by_cases hj : j = i
    · subst hj
      rw [if_pos rfl, Function.update_self]
      have hobeys := h.obeys j
      rw [hcode] at hobeys
      exact hobeys.2
    · rw [if_neg hj, Function.update_of_ne hj]
      exact h.obeys j
  excluded := hexcluded
  waiting := by
    intro j k hmem
    obtain ⟨hold, hne⟩ := hwaiting j k hmem
    rw [hcode', Function.update_of_ne hne]
    exact h.waiting j k hold

/-- The invariant is kept by every step. -/
theorem Inv.step
    {s : Locking ι κ}
    (h : s.Inv ok)
    (i : ι) :
    (s.step i).Inv ok := by
  obtain heq | ⟨k, m, rest, hcode, hfree, heq⟩ | ⟨k, rest, hcode, -, heq⟩ |
    ⟨k, rest, hcode, heq⟩ := s.step_cases i
  · rw [heq]
    exact h
  · rw [heq]
    refine h.advance hcode rfl (fun j => s.held_grant i j k m rest)
      (h.excluded_grant hfree i) ?_
    intro j k' hmem
    obtain ⟨hold, hne⟩ := List.mem_filter.mp hmem
    refine ⟨hold, ?_⟩
    rintro rfl
    -- the thread waits for the lock that it now gets
    obtain ⟨rest', hcode'⟩ := h.waiting j k' hold
    rw [hcode] at hcode'
    cases hcode'
    simp at hne
  · rw [heq]
    refine ⟨h.obeys, h.excluded, ?_⟩
    intro j k' hmem
    obtain hnew | hold := List.mem_insert_iff.mp hmem
    · cases hnew
      exact ⟨rest, hcode⟩
    · exact h.waiting j k' hold
  · rw [heq]
    refine h.advance hcode rfl (fun j => s.held_drop i j k rest) ?_ ?_
    · intro g hg hmode g' hg'
      exact h.excluded g (List.mem_filter.mp hg).1 hmode g' (List.mem_filter.mp hg').1
    · intro j k' hmem
      refine ⟨hmem, ?_⟩
      rintro rfl
      obtain ⟨rest', hcode'⟩ := h.waiting j k' hmem
      rw [hcode] at hcode'
      cases hcode'

/-- The next action of a thread is one that may come. -/
theorem Inv.next
    {s : Locking ι κ} {i : ι} {act : Act κ} {rest : List (Act κ)}
    (h : s.Inv ok)
    (hcode : s.code i = act :: rest) :
    ok (s.held i) act := by
  have hobeys := h.obeys i
  rw [hcode] at hobeys
  exact hobeys.1

end Invariant

end Locking

end Lib
end Secretbae
