import Mathlib.Order.Bounds.Basic
import Mathlib.Tactic

/-!
# A directory of numbered histories

A `Register` is a history of values: each write appends one, numbered from one,
and what falls out of a window of `keep` entries is gone.  An entry can be hidden
or destroyed, and one entry is the current one.  A `Directory` has a register at
some of its keys.

`Does` is what one operation does, with its result, and `Executes` a sequence of
operations.  The results of one sequence do not contradict each other: the
numbers that are given at a key increase, and whoever learns the value of an
entry, by writing or by reading it, learns the same (`Executes.numbers_increase`,
`Executes.known_unique`).
-/

namespace Secretbae
namespace Lib

/-- An entry of a history. -/
inductive Cell (α : Type) where
  | live (a : α)
  | hidden (a : α)
  | gone
deriving DecidableEq

/-- Two ways to remove an entry. -/
inductive Removal where
  | hide
  | destroy
deriving DecidableEq

/-- What removal makes of an entry that can be removed that way. -/
def Removal.apply? {α : Type} : Removal → Cell α → Option (Cell α)
  | .hide, .live a => some (.hidden a)
  | .hide, _ => none
  | .destroy, .gone => none
  | .destroy, _ => some .gone

/-- The entry is `a`, or it no longer is there. -/
def Cell.WasOrIs {α : Type} (c : Cell α) (a : α) : Prop :=
  c = .live a ∨ c = .hidden a ∨ c = .gone

/-- A history with its window and its current entry. -/
structure Register (α : Type) where
  keep : Nat
  size : Nat
  cell : Nat → Option (Cell α)
  current : Option Nat

abbrev Directory (K α : Type) :=
  K → Option (Register α)

/-- An operation on a directory, with its result. -/
inductive Event (K α : Type) where
  /-- The value `a` became entry `n`. -/
  | wrote (k : K) (n : Nat) (a : α)
  /-- Entry `n`, or the current one, was asked for; entry `n` is `a`. -/
  | read (k : K) (asked : Option Nat) (n : Nat) (a : α)
  | rolledBack (k : K) (n : Nat)
  | removed (k : K) (asked : Option Nat) (how : Removal) (n : Nat)

/-- An operation as it is asked for. -/
inductive Operation (K α : Type) where
  | write (k : K) (a : α)
  | read (k : K) (asked : Option Nat)
  | rollBack (k : K) (n : Nat)
  | remove (k : K) (asked : Option Nat) (how : Removal)

/-- An event without its result. -/
def Event.operation {K α : Type} : Event K α → Operation K α
  | .wrote k _ a => .write k a
  | .read k asked _ _ => .read k asked
  | .rolledBack k n => .rollBack k n
  | .removed k asked how _ => .remove k asked how

/-- The operation tells that entry `n` at `k` is `a`. -/
def Event.Tells {K α : Type} : Event K α → K → Nat → α → Prop
  | .wrote k n a, k', n', a' => k = k' ∧ n = n' ∧ a = a'
  | .read k _ n a, k', n', a' => k = k' ∧ n = n' ∧ a = a'
  | _, _, _, _ => False

/-- The number that a write was given. -/
def Event.number? {K α : Type} : Event K α → Option (K × Nat)
  | .wrote k n _ => some (k, n)
  | _ => none

theorem Event.tells_unique
    {K α : Type} {e : Event K α} {k : K} {n : Nat} {a b : α}
    (ha : e.Tells k n a)
    (hb : e.Tells k n b) :
    a = b := by
  cases e with
  | wrote => exact ha.2.2.symm.trans hb.2.2
  | read => exact ha.2.2.symm.trans hb.2.2
  | rolledBack => exact ha.elim
  | removed => exact ha.elim

namespace Register

variable {α : Type}

def fresh (keep : Nat) : Register α where
  keep
  size := 0
  cell _ := none
  current := none

def Live (r : Register α) (n : Nat) : Prop :=
  ∃ a, r.cell n = some (.live a)

/-- Append a value. -/
def write (r : Register α) (a : α) : Register α where
  keep := r.keep
  size := r.size + 1
  cell n :=
    if n = r.size + 1 then some (.live a)
    else if n + r.keep ≤ r.size + 1 then (r.cell n).map fun _ => .gone
    else r.cell n
  current := some (r.size + 1)

/-- The entry that is asked for: the current one if none is named. -/
def Names (r : Register α) (asked : Option Nat) (n : Nat) : Prop :=
  match asked with
  | some m => m = n
  | none => r.current = some n

/-- The current entry is the last one that is live. -/
def AtNewest (r : Register α) : Prop :=
  match r.current with
  | some n => IsGreatest {n | r.Live n} n
  | none => ∀ n, ¬ r.Live n

/-- Removal of an entry that is there; the current entry is chosen anew. -/
structure Removes (r : Register α) (n : Nat) (how : Removal) (r' : Register α) : Prop where
  keep : r'.keep = r.keep
  size : r'.size = r.size
  cell : ∃ c c', r.cell n = some c ∧ how.apply? c = some c' ∧
    r'.cell = Function.update r.cell n (some c')
  current : r'.AtNewest

/-- No entry is numbered above the size. -/
def Bounded (r : Register α) : Prop :=
  ∀ n, r.cell n ≠ none → n ≤ r.size

/-- Every entry is there with its value, or without one. -/
def Follows (r r' : Register α) : Prop :=
  ∀ n c, r.cell n = some c →
    ∃ c', r'.cell n = some c' ∧ ∀ a, c.WasOrIs a → c'.WasOrIs a

theorem Follows.refl
    (r : Register α) :
    r.Follows r :=
  fun _ c hc => ⟨c, hc, fun _ h => h⟩

theorem wasOrIs_gone
    (a : α) :
    (Cell.gone : Cell α).WasOrIs a :=
  .inr (.inr rfl)

theorem wasOrIs_of_apply?
    {how : Removal} {c c' : Cell α} {a : α}
    (h : how.apply? c = some c')
    (ha : c.WasOrIs a) :
    c'.WasOrIs a := by
  cases how with
  | destroy =>
      cases c <;> cases h <;> exact wasOrIs_gone a
  | hide =>
      cases c with
      | live b =>
          cases h
          rcases ha with hb | hb | hb <;> cases hb
          exact .inr (.inl rfl)
      | hidden b => cases h
      | gone => cases h

theorem bounded_write
    {r : Register α}
    (h : r.Bounded) (a : α) :
    (r.write a).Bounded := by
  intro n hn
  simp only [write] at hn ⊢
  split at hn
  · omega
  · have hcell : r.cell n ≠ none := by
      intro hnone
      rw [hnone] at hn
      simp at hn
    exact Nat.le_succ_of_le (h n hcell)

/-- A write adds an entry and only discards others. -/
theorem follows_write
    {r : Register α}
    (h : r.Bounded) (a : α) :
    r.Follows (r.write a) := by
  intro n c hc
  have hle := h n (by rw [hc]; simp)
  have hne : n ≠ r.size + 1 := by omega
  simp only [write, if_neg hne, hc]
  split
  · exact ⟨.gone, rfl, fun a _ => wasOrIs_gone a⟩
  · exact ⟨c, rfl, fun _ h => h⟩

theorem Removes.bounded
    {r r' : Register α} {n : Nat} {how : Removal}
    (hr : r.Removes n how r')
    (h : r.Bounded) :
    r'.Bounded := by
  obtain ⟨c, c', hc, -, hcell⟩ := hr.cell
  intro m hm
  rw [hr.size]
  by_cases hmn : m = n
  · exact h m (by rw [hmn, hc]; simp)
  · rw [hcell, Function.update_of_ne hmn] at hm
    exact h m hm

theorem Removes.follows
    {r r' : Register α} {n : Nat} {how : Removal}
    (hr : r.Removes n how r') :
    r.Follows r' := by
  obtain ⟨c, c', hc, happly, hcell⟩ := hr.cell
  intro m d hd
  rw [hcell]
  by_cases hmn : m = n
  · subst hmn
    cases hc.symm.trans hd
    exact ⟨c', Function.update_self .., fun _ => wasOrIs_of_apply? happly⟩
  · exact ⟨d, by rw [Function.update_of_ne hmn, hd], fun _ h => h⟩

end Register

namespace Directory

variable {K α : Type}

/-- Every register is bounded by its size. -/
def Bounded (m : Directory K α) : Prop :=
  ∀ k r, m k = some r → r.Bounded

/-- Entry `n` at `k` is `a`, or no longer there. -/
def Holds (m : Directory K α) (k : K) (n : Nat) (a : α) : Prop :=
  ∃ r c, m k = some r ∧ r.cell n = some c ∧ c.WasOrIs a

/-- Every register goes on as it was. -/
def Follows (m m' : Directory K α) : Prop :=
  ∀ k r, m k = some r → ∃ r', m' k = some r' ∧ r.Follows r'

theorem Follows.holds
    {m m' : Directory K α} {k : K} {n : Nat} {a : α}
    (h : m.Follows m')
    (ha : m.Holds k n a) :
    m'.Holds k n a := by
  obtain ⟨r, c, hr, hc, hwas⟩ := ha
  obtain ⟨r', hr', hfollows⟩ := h k r hr
  obtain ⟨c', hc', hcell⟩ := hfollows n c hc
  exact ⟨r', c', hr', hc', hcell a hwas⟩

variable [DecidableEq K]

/-- One operation; a key that is written for the first time gets a window of `keep`. -/
inductive Does (keep : Nat) : Directory K α → Event K α → Directory K α → Prop
  | wrote
      {m : Directory K α} {k : K} {r : Register α}
      (hr : (m k).getD (.fresh keep) = r)
      (a : α) :
      Does keep m (.wrote k (r.size + 1) a) (Function.update m k (some (r.write a)))
  | read
      {m : Directory K α} {k : K} {r : Register α} {asked : Option Nat} {n : Nat} {a : α}
      (hr : m k = some r)
      (hnames : r.Names asked n)
      (hlive : r.cell n = some (.live a)) :
      Does keep m (.read k asked n a) m
  | rolledBack
      {m : Directory K α} {k : K} {r : Register α} {n : Nat}
      (hr : m k = some r)
      (hlive : r.Live n) :
      Does keep m (.rolledBack k n)
        (Function.update m k (some { r with current := some n }))
  | removed
      {m : Directory K α} {k : K} {r r' : Register α} {asked : Option Nat} {how : Removal}
      {n : Nat}
      (hr : m k = some r)
      (hnames : r.Names asked n)
      (hremoves : r.Removes n how r') :
      Does keep m (.removed k asked how n) (Function.update m k (some r'))

/-- A sequence of operations. -/
inductive Executes (keep : Nat) : Directory K α → List (Event K α) → Directory K α → Prop
  | nil (m : Directory K α) : Executes keep m [] m
  | cons
      {m m' m'' : Directory K α} {e : Event K α} {es : List (Event K α)}
      (hstep : Does keep m e m')
      (hrest : Executes keep m' es m'') :
      Executes keep m (e :: es) m''

variable {keep : Nat} {m m' m'' : Directory K α}

theorem Executes.append
    {es es' : List (Event K α)}
    (h : Executes keep m es m')
    (h' : Executes keep m' es' m'') :
    Executes keep m (es ++ es') m'' := by
  induction h with
  | nil m => exact h'
  | cons hstep _ ih => exact .cons hstep (ih h')

theorem Executes.of_nil
    (h : Executes keep m [] m') :
    m' = m := by
  cases h
  rfl

theorem Executes.one
    {e : Event K α}
    (h : Does keep m e m') :
    Executes keep m [e] m' :=
  .cons h (.nil m')

theorem bounded_update
    {k : K} {r : Register α}
    (h : m.Bounded)
    (hr : r.Bounded) :
    Bounded (Function.update m k (some r)) := by
  intro k' r' hr'
  by_cases hk : k' = k
  · subst hk
    rw [Function.update_self] at hr'
    cases hr'
    exact hr
  · rw [Function.update_of_ne hk] at hr'
    exact h k' r' hr'

theorem follows_update
    {k : K} {r' : Register α}
    (h : ∀ r, m k = some r → r.Follows r') :
    m.Follows (Function.update m k (some r')) := by
  intro k' r hr
  by_cases hk : k' = k
  · subst hk
    exact ⟨r', Function.update_self .., h r hr⟩
  · exact ⟨r, by rw [Function.update_of_ne hk, hr], .refl r⟩

/-- Reading leaves the directory as it is. -/
theorem Does.of_read
    {k : K} {asked : Option Nat} {n : Nat} {a : α}
    (h : Does keep m (.read k asked n a) m') :
    ∃ r, m k = some r ∧ r.Names asked n ∧ r.cell n = some (.live a) := by
  cases h with
  | read hr hnames hlive => exact ⟨_, hr, hnames, hlive⟩

/-- What one operation preserves. -/
theorem Does.keeps
    {e : Event K α}
    (h : Does keep m e m')
    (hm : m.Bounded) :
    m'.Bounded ∧ m.Follows m' := by
  cases h with
  | @wrote k r hr a =>
      have hbounded : r.Bounded := by
        rw [← hr]
        cases hk : m k with
        | none => exact fun n hn => absurd rfl hn
        | some r' => exact hm k r' hk
      refine ⟨bounded_update hm (Register.bounded_write hbounded a), follows_update ?_⟩
      intro r' hk
      rw [hk] at hr
      cases hr
      exact Register.follows_write hbounded a
  | read hr hnames hlive =>
      exact ⟨hm, fun k r hr => ⟨r, hr, .refl r⟩⟩
  | @rolledBack k r n hr hlive =>
      refine ⟨bounded_update hm (hm k r hr), follows_update ?_⟩
      intro r' hk
      cases hr.symm.trans hk
      exact Register.Follows.refl r
  | @removed k r r' asked how n hr hnames hremoves =>
      refine ⟨bounded_update hm (hremoves.bounded (hm k r hr)), follows_update ?_⟩
      intro r'' hk
      cases hr.symm.trans hk
      exact hremoves.follows

/-- Who tells the value of an entry tells what it is. -/
theorem Does.tells
    {e : Event K α} {k : K} {n : Nat} {a : α}
    (h : Does keep m e m')
    (ha : e.Tells k n a) :
    m'.Holds k n a := by
  cases h with
  | wrote hr _ =>
      obtain ⟨rfl, rfl, rfl⟩ := ha
      exact ⟨_, _, Function.update_self .., if_pos rfl, .inl rfl⟩
  | read hr _ hlive =>
      obtain ⟨rfl, rfl, rfl⟩ := ha
      exact ⟨_, _, hr, hlive, .inl rfl⟩
  | rolledBack => exact ha.elim
  | removed => exact ha.elim

/-- A write takes a number that no entry has. -/
theorem Does.not_held
    {k : K} {n : Nat} {a b : α}
    (h : Does keep m (.wrote k n b) m')
    (hm : m.Bounded) :
    ¬ m.Holds k n a := by
  rintro ⟨r, c, hr, hc, -⟩
  cases h with
  | wrote hr' _ =>
      rw [hr, Option.getD_some] at hr'
      have hle := hm _ r hr _ (by rw [hc]; simp)
      rw [hr'] at hle
      omega

/-- What is told of an entry is what it was before, if there was one. -/
theorem Does.tells_held
    {e : Event K α} {k : K} {n : Nat} {a b : α}
    (h : Does keep m e m')
    (hm : m.Bounded)
    (ha : m.Holds k n a)
    (hb : e.Tells k n b) :
    a = b := by
  cases e with
  | wrote =>
      obtain ⟨rfl, rfl, rfl⟩ := hb
      exact absurd ha (h.not_held hm)
  | read =>
      obtain ⟨rfl, rfl, rfl⟩ := hb
      obtain ⟨r, c, hr, hc, hwas⟩ := ha
      cases h with
      | read hr' _ hlive =>
          cases hr.symm.trans hr'
          rw [hlive] at hc
          cases hc
          rcases hwas with h | h | h <;> cases h
          rfl
  | rolledBack => exact hb.elim
  | removed => exact hb.elim

/-- Along a sequence of operations an entry keeps its value. -/
theorem Executes.tells_held
    {es : List (Event K α)} {e : Event K α} {k : K} {n : Nat} {a b : α}
    (h : Executes keep m es m')
    (hm : m.Bounded)
    (ha : m.Holds k n a)
    (he : e ∈ es)
    (hb : e.Tells k n b) :
    a = b := by
  induction h with
  | nil => cases he
  | cons hstep _ ih =>
      rcases List.mem_cons.mp he with rfl | he
      · exact hstep.tells_held hm ha hb
      · obtain ⟨hm', hfollows⟩ := hstep.keeps hm
        exact ih hm' (hfollows.holds ha) he

/-- At `k` the numbers up to `n` have been given. -/
def Reaches (m : Directory K α) (k : K) (n : Nat) : Prop :=
  ∃ r, m k = some r ∧ n ≤ r.size

/-- The size of a register never shrinks. -/
theorem Does.reaches
    {e : Event K α} {k : K} {n : Nat}
    (h : Does keep m e m')
    (hn : m.Reaches k n) :
    m'.Reaches k n := by
  obtain ⟨r, hr, hle⟩ := hn
  have hupdate : ∀ {k' : K} {r' : Register α}, (∀ r, m k' = some r → r.size ≤ r'.size) →
      Reaches (Function.update m k' (some r')) k n := by
    intro k' r' hsize
    by_cases hk : k = k'
    · subst hk
      exact ⟨r', Function.update_self .., hle.trans (hsize r hr)⟩
    · exact ⟨r, by rw [Function.update_of_ne hk, hr], hle⟩
  cases h with
  | wrote hr' a =>
      refine hupdate fun r hr => ?_
      rw [← hr', hr]
      exact Nat.le_succ _
  | read => exact ⟨r, hr, hle⟩
  | rolledBack hr' hlive =>
      refine hupdate fun r hr => ?_
      cases hr'.symm.trans hr
      exact le_rfl
  | removed hr' hnames hremoves =>
      refine hupdate fun r hr => ?_
      cases hr'.symm.trans hr
      exact hremoves.size.ge

/-- A number that is given is above all that have been. -/
theorem Does.number
    {e : Event K α} {k : K} {n : Nat}
    (h : Does keep m e m')
    (he : e.number? = some (k, n)) :
    m'.Reaches k n ∧ ∀ n₀, m.Reaches k n₀ → n₀ < n := by
  cases h with
  | wrote hr a =>
      cases he
      refine ⟨⟨_, Function.update_self .., le_rfl⟩, ?_⟩
      rintro n₀ ⟨r, hr', hle⟩
      rw [hr', Option.getD_some] at hr
      rw [← hr]
      exact Nat.lt_succ_of_le hle
  | read => cases he
  | rolledBack => cases he
  | removed => cases he

theorem Executes.reaches_lt
    {es : List (Event K α)} {k : K} {n n' : Nat}
    (h : Executes keep m es m')
    (hn : m.Reaches k n)
    (hmem : (k, n') ∈ es.filterMap Event.number?) :
    n < n' := by
  induction h with
  | nil => cases hmem
  | @cons m m' m'' e es hstep _ ih =>
      cases he : e.number? with
      | none =>
          rw [List.filterMap_cons_none he] at hmem
          exact ih (hstep.reaches hn) hmem
      | some given =>
          rw [List.filterMap_cons_some he] at hmem
          rcases List.mem_cons.mp hmem with rfl | hmem
          · exact (hstep.number he).2 n hn
          · exact ih (hstep.reaches hn) hmem

/-- The numbers given at a key increase. -/
theorem Executes.numbers_increase
    {es : List (Event K α)}
    (h : Executes keep m es m') :
    (es.filterMap Event.number?).Pairwise fun p q => p.1 = q.1 → p.2 < q.2 := by
  induction h with
  | nil => exact .nil
  | @cons m m' m'' e es hstep hrest ih =>
      cases he : e.number? with
      | none => rwa [List.filterMap_cons_none he]
      | some given =>
          rw [List.filterMap_cons_some he, List.pairwise_cons]
          refine ⟨?_, ih⟩
          rintro ⟨k, n⟩ hmem hk
          obtain ⟨hreaches, -⟩ := hstep.number he
          rw [hk] at hreaches
          exact hrest.reaches_lt hreaches hmem

/-- Two writes by different hands have different numbers. -/
theorem Executes.numbers_apart
    {ι : Type} {history : List (ι × Event K α)} {i j : ι} {e e' : Event K α} {p q : K × Nat}
    (h : Executes keep m (history.map Prod.snd) m')
    (hne : i ≠ j)
    (he : (i, e) ∈ history)
    (he' : (j, e') ∈ history)
    (hp : e.number? = some p)
    (hq : e'.number? = some q) :
    p ≠ q := by
  have hpairs := h.numbers_increase
  rw [List.pairwise_filterMap, List.pairwise_map] at hpairs
  have happart : history.Pairwise fun a b =>
      ∀ p q, a.2.number? = some p → b.2.number? = some q → p ≠ q := by
    refine hpairs.imp ?_
    rintro a b hlt p q hp hq rfl
    exact lt_irrefl _ (hlt p hp p hq rfl)
  have : Std.Symm fun a b : ι × Event K α =>
      ∀ p q, a.2.number? = some p → b.2.number? = some q → p ≠ q :=
    ⟨fun a b hab p q hp hq => (hab q p hq hp).symm⟩
  exact happart.forall he he' (fun heq => hne (congrArg Prod.fst heq)) p q hp hq

/-- The numbers given at a key increase from one rank of writers to the next. -/
theorem Executes.numbers_ranked
    {ι : Type} {history : List (ι × Event K α)} {i j : ι} {e e' : Event K α} {k : K} {n n' : Nat}
    (rank : ι → ℕ)
    (h : Executes keep m (history.map Prod.snd) m')
    (hranked : history.Pairwise fun a b => rank a.1 ≤ rank b.1)
    (hlt : rank i < rank j)
    (he : (i, e) ∈ history)
    (he' : (j, e') ∈ history)
    (hn : e.number? = some (k, n))
    (hn' : e'.number? = some (k, n')) :
    n < n' := by
  have hpairs := h.numbers_increase
  rw [List.pairwise_filterMap, List.pairwise_map] at hpairs
  let Rises (a b : ι × Event K α) : Prop :=
    rank a.1 < rank b.1 → ∀ k n n', a.2.number? = some (k, n) → b.2.number? = some (k, n') →
      n < n'
  have hrises : history.Pairwise fun a b => Rises a b ∧ Rises b a := by
    refine (hpairs.and hranked).imp ?_
    rintro a b ⟨hincrease, hle⟩
    exact ⟨fun _ k n n' hn hn' => hincrease _ hn _ hn' rfl,
      fun hback => absurd hle (Nat.not_le_of_lt hback)⟩
  have : Std.Symm fun a b => Rises a b ∧ Rises b a := ⟨fun _ _ hab => hab.symm⟩
  have hne : (i, e) ≠ (j, e') := by
    intro heq
    obtain ⟨rfl, -⟩ := Prod.mk.inj heq
    exact lt_irrefl _ hlt
  exact (hrises.forall he he' hne).1 hlt k n n' hn hn'

/-- All who learn the value of an entry learn the same. -/
theorem Executes.known_unique
    {es : List (Event K α)} {e e' : Event K α} {k : K} {n : Nat} {a b : α}
    (h : Executes keep m es m')
    (hm : m.Bounded)
    (he : e ∈ es)
    (he' : e' ∈ es)
    (ha : e.Tells k n a)
    (hb : e'.Tells k n b) :
    a = b := by
  induction h with
  | nil => cases he
  | cons hstep hrest ih =>
      obtain ⟨hm', -⟩ := hstep.keeps hm
      rcases List.mem_cons.mp he with rfl | hlater
      · rcases List.mem_cons.mp he' with rfl | hlater'
        · exact Event.tells_unique ha hb
        · exact hrest.tells_held hm' (hstep.tells ha) hlater' hb
      · rcases List.mem_cons.mp he' with rfl | hlater'
        · exact (hrest.tells_held hm' (hstep.tells hb) hlater ha).symm
        · exact ih hm' hlater hlater'

end Directory

end Lib
end Secretbae
