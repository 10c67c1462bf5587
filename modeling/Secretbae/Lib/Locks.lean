import Mathlib.Data.Fintype.Basic
import Secretbae.Lib.Runs

/-!
# Threads that share a keyed resource

A resource of type `S` behind a mutex, and a key of type `K` behind a
read-write lock that says how the resource is to be used.  A thread is a
`Prog`, cut into atomic steps at every acquisition, release and access; a
schedule is any list of threads, and a thread that cannot go on stays where it
is.

`Good k s` says that the resource `s` is in order under the key `k`.  A thread
may hand the resource over to another key: it updates the resource first and
puts the new key in place later, and until then it owes the key (`Prog.owes`).
The rule of this module is `good_of_run`: if every program is `Safe`, and no
thread updates the resource under the key it has read while another thread owes
one, then the resource is in order under the key whenever no thread owes one.
-/

namespace Secretbae
namespace Lib

universe u v w

/-- The code of a thread, one constructor for each atomic step. -/
inductive Prog (K : Type u) (S : Type v) : Type (max u v) where
  | done
  | readLock (next : K → Prog K S)
  | readUnlock (next : Prog K S)
  | lock (next : Prog K S)
  | unlock (next : Prog K S)
  | look (next : S → Prog K S)
  | update (f : S → S) (next : S → Prog K S)
  | writeLock (next : Prog K S)
  | put (key : K) (next : Prog K S)
  | writeUnlock (next : Prog K S)

/-- The key that a program puts in place before it accesses the resource again. -/
def Prog.owes {K : Type u} {S : Type v} : Prog K S → Option K
  | .done => none
  | .readLock _ => none
  | .readUnlock next => next.owes
  | .lock next => next.owes
  | .unlock next => next.owes
  | .look _ => none
  | .update _ _ => none
  | .writeLock next => next.owes
  | .put key _ => some key
  | .writeUnlock next => next.owes

/-- Key and resource after the program, when no other thread runs. -/
def Prog.alone {K : Type u} {S : Type v} : Prog K S → K → S → K × S
  | .done, key, s => (key, s)
  | .readLock next, key, s => (next key).alone key s
  | .readUnlock next, key, s => next.alone key s
  | .lock next, key, s => next.alone key s
  | .unlock next, key, s => next.alone key s
  | .look next, key, s => (next s).alone key s
  | .update f next, key, s => (next s).alone key (f s)
  | .writeLock next, key, s => next.alone key s
  | .put key next, _, s => next.alone key s
  | .writeUnlock next, key, s => next.alone key s

/-- The next step of the program updates the resource. -/
def Prog.isUpdate {K : Type u} {S : Type v} : Prog K S → Bool
  | .update _ _ => true
  | _ => false

def Prog.isDone {K : Type u} {S : Type v} : Prog K S → Bool
  | .done => true
  | _ => false

theorem Prog.isDone_iff
    {K : Type u} {S : Type v} {prog : Prog K S} :
    prog.isDone = true ↔ prog = .done := by
  cases prog <;> simp [Prog.isDone]

/-- A thread and the key it sees through its read guard. -/
structure Thread (K : Type u) (S : Type v) where
  prog : Prog K S
  guard : Option K

/-- The shared state: who holds which lock, and where every thread is. -/
structure Sys (ι : Type w) (K : Type u) (S : Type v) where
  key : K
  shared : S
  threads : ι → Thread K S
  readers : Finset ι
  writer : Option ι
  holder : Option ι

section Semantics

variable {ι : Type w} {K : Type u} {S : Type v} [DecidableEq ι]

/-- The thread `i` is now at `prog`, with the guard `guard`. -/
def Sys.goto (sys : Sys ι K S) (i : ι) (prog : Prog K S) (guard : Option K) : Sys ι K S :=
  { sys with threads := Function.update sys.threads i ⟨prog, guard⟩ }

/-- One atomic step of the thread `i`; a blocked thread waits. -/
def Sys.step (sys : Sys ι K S) (i : ι) : Sys ι K S :=
  let guard := (sys.threads i).guard
  match (sys.threads i).prog with
  | .done => sys
  | .readLock next =>
      if sys.writer = none then
        { sys.goto i (next sys.key) (some sys.key) with readers := insert i sys.readers }
      else sys
  | .readUnlock next => { sys.goto i next none with readers := sys.readers.erase i }
  | .lock next =>
      if sys.holder = none then { sys.goto i next guard with holder := some i } else sys
  | .unlock next => { sys.goto i next guard with holder := none }
  | .look next =>
      if sys.holder = some i then sys.goto i (next sys.shared) guard else sys
  | .update f next =>
      if sys.holder = some i then
        { sys.goto i (next sys.shared) guard with shared := f sys.shared }
      else sys
  | .writeLock next =>
      if sys.writer = none ∧ sys.readers = ∅ then
        { sys.goto i next guard with writer := some i }
      else sys
  | .put key next =>
      if sys.writer = some i then { sys.goto i next guard with key := key } else sys
  | .writeUnlock next => { sys.goto i next guard with writer := none }

/-- All threads at their beginning, all locks free. -/
def Sys.start (key : K) (shared : S) (progs : ι → Prog K S) : Sys ι K S where
  key := key
  shared := shared
  threads i := ⟨progs i, none⟩
  readers := ∅
  writer := none
  holder := none

/-- The thread `i` does not update under a guard while some thread owes a key. -/
def Sys.Clear (sys : Sys ι K S) (i : ι) : Prop :=
  (sys.threads i).prog.isUpdate = true → (sys.threads i).guard ≠ none →
    ∀ j, (sys.threads j).prog.owes = none

instance [Fintype ι] (sys : Sys ι K S) (i : ι) : Decidable (sys.Clear i) :=
  inferInstanceAs (Decidable (_ → _ → _))

end Semantics

section Rule

variable {ι : Type w} {K : Type u} {S : Type v} [DecidableEq ι]
variable (Good : K → S → Prop)

/--
Every update of the program keeps the resource in order: under the key of the
guard, or by handing it over to a key that the program then owes.  An update
without a guard keeps it in order under every key.
-/
def Prog.Safe : Option K → Prog K S → Prop
  | _, .done => True
  | _, .readLock next => ∀ key, (next key).owes = none ∧ (next key).Safe (some key)
  | _, .readUnlock next => next.Safe none
  | guard, .lock next => next.Safe guard
  | guard, .unlock next => next.Safe guard
  | guard, .look next => ∀ s, (next s).owes = none ∧ (next s).Safe guard
  | none, .update f next =>
      ∀ s, (∀ key, Good key s → Good key (f s)) ∧ (next s).owes = none ∧ (next s).Safe none
  | some key, .update f next =>
      ∀ s, (Good key s → Good ((next s).owes.getD key) (f s)) ∧ (next s).Safe (some key)
  | guard, .writeLock next => next.Safe guard
  | guard, .put _ next => next.owes = none ∧ next.Safe guard
  | guard, .writeUnlock next => next.Safe guard

/-- What holds between any two steps. -/
structure Sys.Inv (sys : Sys ι K S) : Prop where
  guards : ∀ i key, (sys.threads i).guard = some key → key = sys.key ∧ i ∈ sys.readers
  excluded : sys.writer ≠ none → sys.readers = ∅
  safe : ∀ i, (sys.threads i).prog.Safe Good (sys.threads i).guard
  single : ∀ i j, (sys.threads i).prog.owes ≠ none → (sys.threads j).prog.owes ≠ none → i = j
  settled : (∀ i, (sys.threads i).prog.owes = none) → Good sys.key sys.shared
  pending : ∀ i key, (sys.threads i).prog.owes = some key → Good key sys.shared

variable {Good}

omit [DecidableEq ι] in
theorem Sys.inv_start
    {key : K} {shared : S} {progs : ι → Prog K S}
    (hgood : Good key shared)
    (hsafe : ∀ i, (progs i).Safe Good none)
    (howes : ∀ i, (progs i).owes = none) :
    (Sys.start key shared progs).Inv Good where
  guards := by
    intro i key h
    cases h
  excluded := fun _ => rfl
  safe := hsafe
  single := by
    intro i j hi
    exact absurd (howes i) hi
  settled := fun _ => hgood
  pending := by
    intro i key hi
    rw [Sys.start, howes i] at hi
    cases hi

/-- A property of all threads, after one of them has moved. -/
theorem forall_goto
    {motive : ι → Thread K S → Prop} {threads : ι → Thread K S} {i : ι} {t : Thread K S}
    (hself : motive i t)
    (hothers : ∀ j, j ≠ i → motive j (threads j)) :
    ∀ j, motive j (Function.update threads i t j) := by
  intro j
  by_cases hj : j = i
  · subst hj
    rw [Function.update_self]
    exact hself
  · rw [Function.update_of_ne hj]
    exact hothers j hj

/-- A step that changes neither key nor resource, nor what its thread owes. -/
theorem Sys.Inv.move
    {sys : Sys ι K S}
    (h : sys.Inv Good)
    (sys' : Sys ι K S) (i : ι) (prog : Prog K S) (guard : Option K)
    (hthreads : sys'.threads = Function.update sys.threads i ⟨prog, guard⟩)
    (hkey : sys'.key = sys.key)
    (hshared : sys'.shared = sys.shared)
    (hguard : ∀ key, guard = some key → key = sys.key ∧ i ∈ sys'.readers)
    (hreaders : ∀ j, j ≠ i → j ∈ sys.readers → j ∈ sys'.readers)
    (hexcluded : sys'.writer ≠ none → sys'.readers = ∅)
    (hsafe : prog.Safe Good guard)
    (howes : prog.owes = (sys.threads i).prog.owes) :
    sys'.Inv Good := by
  have hsame : ∀ j, (sys'.threads j).prog.owes = (sys.threads j).prog.owes := by
    rw [hthreads]
    exact forall_goto (motive := fun j t => t.prog.owes = (sys.threads j).prog.owes) howes
      (fun _ _ => rfl)
  refine ⟨?_, hexcluded, ?_, ?_, ?_, ?_⟩
  · rw [hthreads, hkey]
    refine forall_goto
      (motive := fun j t => ∀ key, t.guard = some key → key = sys.key ∧ j ∈ sys'.readers)
      hguard ?_
    intro j hj key hjkey
    obtain ⟨heq, hmem⟩ := h.guards j key hjkey
    exact ⟨heq, hreaders j hj hmem⟩
  · rw [hthreads]
    exact forall_goto (motive := fun _ t => t.prog.Safe Good t.guard) hsafe
      (fun j _ => h.safe j)
  · intro j k hj hk
    rw [hsame] at hj hk
    exact h.single j k hj hk
  · intro hnone
    rw [hkey, hshared]
    exact h.settled (fun j => (hsame j).symm.trans (hnone j))
  · intro j key hj
    rw [hshared]
    rw [hsame] at hj
    exact h.pending j key hj

/-- An update without a guard. -/
theorem Sys.Inv.update_unguarded
    {sys : Sys ι K S} {i : ι} {f : S → S} {next : S → Prog K S}
    (h : sys.Inv Good)
    (hthread : sys.threads i = ⟨.update f next, none⟩) :
    Sys.Inv Good { sys.goto i (next sys.shared) none with shared := f sys.shared } := by
  have hsafe := h.safe i
  rw [hthread] at hsafe
  obtain ⟨hkeep, hnext, hrest⟩ := hsafe sys.shared
  have hmoved : (sys.goto i (next sys.shared) none).Inv Good := by
    refine h.move _ i _ _ rfl rfl rfl (by simp) (fun _ _ hj => hj) h.excluded hrest ?_
    rw [hnext, hthread]
    rfl
  exact
    { hmoved with
      settled := fun hnone => hkeep _ (hmoved.settled hnone)
      pending := fun j key hj => hkeep _ (hmoved.pending j key hj) }

/-- An update under a guard, while no thread owes a key. -/
theorem Sys.Inv.update_guarded
    {sys : Sys ι K S} {i : ι} {f : S → S} {next : S → Prog K S} {key : K}
    (h : sys.Inv Good)
    (hthread : sys.threads i = ⟨.update f next, some key⟩)
    (hclear : ∀ j, (sys.threads j).prog.owes = none) :
    Sys.Inv Good { sys.goto i (next sys.shared) (some key) with shared := f sys.shared } := by
  have hsafe := h.safe i
  rw [hthread] at hsafe
  obtain ⟨hstep, hrest⟩ := hsafe sys.shared
  obtain ⟨rfl, hmem⟩ := h.guards i key (by rw [hthread])
  have hgood := hstep (h.settled hclear)
  -- from here on the thread itself is the only one that can owe a key
  have honly : ∀ j, (((sys.goto i (next sys.shared) (some sys.key)).threads j).prog.owes ≠
      none → j = i) :=
    forall_goto (motive := fun j t => t.prog.owes ≠ none → j = i) (fun _ => rfl)
      (fun j _ hj => absurd (hclear j) hj)
  have hself : (sys.goto i (next sys.shared) (some sys.key)).threads i =
      ⟨next sys.shared, some sys.key⟩ := Function.update_self i _ _
  refine ⟨?_, h.excluded, ?_, ?_, ?_, ?_⟩
  · exact forall_goto
      (motive := fun j t => ∀ key, t.guard = some key → key = sys.key ∧ j ∈ sys.readers)
      (fun _ hkey => ⟨(Option.some.inj hkey).symm, hmem⟩) (fun j _ => h.guards j)
  · exact forall_goto (motive := fun _ t => t.prog.Safe Good t.guard) hrest
      (fun j _ => h.safe j)
  · intro j k hj hk
    rw [honly j hj, honly k hk]
  · intro hnone
    have hi := hnone i
    rw [hself] at hi
    rw [hi] at hgood
    exact hgood
  · intro j key hj
    obtain rfl := honly j (by rw [hj]; simp)
    rw [hself] at hj
    rw [hj] at hgood
    exact hgood

/-- The owed key is put in place. -/
theorem Sys.Inv.put
    {sys : Sys ι K S} {i : ι} {key : K} {next : Prog K S} {guard : Option K}
    (h : sys.Inv Good)
    (hthread : sys.threads i = ⟨.put key next, guard⟩)
    (hwriter : sys.writer = some i) :
    Sys.Inv Good { sys.goto i next guard with key := key } := by
  have hsafe := h.safe i
  rw [hthread] at hsafe
  obtain ⟨hnext, hrest⟩ := hsafe
  have howed : (sys.threads i).prog.owes = some key := by
    rw [hthread]
    rfl
  have hempty : sys.readers = ∅ := h.excluded (by rw [hwriter]; simp)
  have hnoGuard : ∀ j key, (sys.threads j).guard ≠ some key := by
    intro j key hj
    have hmem := (h.guards j key hj).2
    rw [hempty] at hmem
    cases hmem
  have hnone : ∀ j, ((sys.goto i next guard).threads j).prog.owes = none := by
    refine forall_goto (motive := fun _ t => t.prog.owes = none) hnext ?_
    intro j hj
    by_contra howes
    exact hj (h.single j i howes (by rw [howed]; simp))
  refine ⟨?_, h.excluded, ?_, ?_, ?_, ?_⟩
  · refine forall_goto
      (motive := fun j t => ∀ key', t.guard = some key' → key' = key ∧ j ∈ sys.readers) ?_
      (fun j _ key' hj => absurd hj (hnoGuard j key'))
    intro key' hkey'
    exact absurd (by rw [hthread]; exact hkey') (hnoGuard i key')
  · exact forall_goto (motive := fun _ t => t.prog.Safe Good t.guard) hrest
      (fun j _ => h.safe j)
  · intro j k hj
    exact absurd (hnone j) hj
  · intro _
    exact h.pending i key howed
  · intro j key' hj
    rw [hnone j] at hj
    cases hj

/-- The invariant is kept by every step that is clear. -/
theorem Sys.Inv.step
    {sys : Sys ι K S} {i : ι}
    (h : sys.Inv Good)
    (hclear : sys.Clear i) :
    (sys.step i).Inv Good := by
  have hsafe := h.safe i
  have hguards := h.guards i
  have hmove := fun sys' prog guard => h.move sys' i prog guard
  unfold Sys.step
  rcases hthread : sys.threads i with ⟨prog, guard⟩
  rw [hthread] at hsafe hguards hmove
  cases prog with
  | done =>
      exact h
  | readLock next =>
      dsimp only
      split
      · rename_i hfree
        obtain ⟨hnext, hrest⟩ := hsafe sys.key
        refine hmove _ _ _ rfl rfl rfl ?_ ?_ (fun hw => absurd hfree hw) hrest hnext
        · intro key hkey
          exact ⟨(Option.some.inj hkey).symm, Finset.mem_insert_self i _⟩
        · intro j _ hj
          exact Finset.mem_insert_of_mem hj
      · exact h
  | readUnlock next =>
      refine hmove _ _ _ rfl rfl rfl (by simp) ?_ ?_ hsafe rfl
      · intro j hne hj
        exact Finset.mem_erase.mpr ⟨hne, hj⟩
      · intro hw
        simp only [h.excluded hw, Finset.erase_empty]
  | lock next =>
      dsimp only
      split
      · exact hmove _ _ _ rfl rfl rfl hguards (fun _ _ hj => hj) h.excluded hsafe rfl
      · exact h
  | unlock next =>
      exact hmove _ _ _ rfl rfl rfl hguards (fun _ _ hj => hj) h.excluded hsafe rfl
  | look next =>
      dsimp only
      split
      · obtain ⟨hnext, hrest⟩ := hsafe sys.shared
        exact hmove _ _ _ rfl rfl rfl hguards (fun _ _ hj => hj) h.excluded hrest hnext
      · exact h
  | update f next =>
      dsimp only
      split
      · cases guard with
        | none => exact h.update_unguarded hthread
        | some key =>
            refine h.update_guarded hthread (hclear ?_ ?_)
            · rw [hthread]
              rfl
            · rw [hthread]
              simp
      · exact h
  | writeLock next =>
      dsimp only
      split
      · rename_i hfree
        exact hmove _ _ _ rfl rfl rfl hguards (fun _ _ hj => hj) (fun _ => hfree.2) hsafe rfl
      · exact h
  | put key next =>
      dsimp only
      split
      · rename_i hwriter
        exact h.put hthread hwriter
      · exact h
  | writeUnlock next =>
      exact hmove _ _ _ rfl rfl rfl hguards (fun _ _ hj => hj) (fun hw => absurd rfl hw) hsafe rfl

/-- After a clear run the resource is in order, whenever no thread owes a key. -/
theorem good_of_run
    {key : K} {shared : S} {progs : ι → Prog K S} {schedule : List ι}
    (hgood : Good key shared)
    (hsafe : ∀ i, (progs i).Safe Good none)
    (howes : ∀ i, (progs i).owes = none)
    (hclear : along Sys.step Sys.Clear (Sys.start key shared progs) schedule)
    (hnone : ∀ i,
      ((run Sys.step (Sys.start key shared progs) schedule).threads i).prog.owes = none) :
    Good (run Sys.step (Sys.start key shared progs) schedule).key
      (run Sys.step (Sys.start key shared progs) schedule).shared :=
  (run_invariant_along (fun _ _ hok hinv => Sys.Inv.step hinv hok) hclear
    (Sys.inv_start hgood hsafe howes)).settled hnone

end Rule

end Lib
end Secretbae
