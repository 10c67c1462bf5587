import Mathlib.Order.Interval.Finset.Nat
import Mathlib.Data.Set.Insert

/-!
# Retention windows

A history numbers its entries upwards.  Some of the numbers in use (`present`)
are gone.  `Trimmed m` says that those are gone which fell `m` or more behind
another number, and `Explained m` that beyond these only those are gone that
were called for.

A new entry that discards what falls out of the window leaves a trimmed history,
whatever the history was before (`trimmed_publish`), and nothing that goes then
is unexplained (`Explained.publish`).  `Trimmed.length_le` bounds what is left.
-/

namespace Secretbae
namespace Lib

/-- What fell out of a window of `m` numbers is gone. -/
def Trimmed (m : Nat) (present gone : Set Nat) : Prop :=
  ∀ v ∈ present, ∀ w ∈ present, v + m ≤ w → v ∈ gone

/-- What is gone was called for, or fell out of a window of `m` numbers. -/
def Explained (m : Nat) (present gone called : Set Nat) : Prop :=
  ∀ v ∈ gone, v ∈ called ∨ ∃ w ∈ present, v + m ≤ w

section Window

variable {m : Nat} {present gone called gone' called' : Set Nat}

/-- A new highest number, with what it pushes out of the window gone. -/
theorem trimmed_publish
    (hm : 1 ≤ m) {k : Nat}
    (hk : ∀ v ∈ present, v < k) (gone : Set Nat) :
    Trimmed m (insert k present) (gone ∪ {v | v ∈ present ∧ v + m ≤ k}) := by
  rintro v (rfl | hv) w (rfl | hw) hle
  · omega
  · have := hk w hw
    omega
  · exact .inr ⟨hv, hle⟩
  · have := hk w hw
    exact .inr ⟨hv, by omega⟩

theorem Explained.publish
    (h : Explained m present gone called) (k : Nat) :
    Explained m (insert k present) (gone ∪ {v | v ∈ present ∧ v + m ≤ k}) called := by
  rintro v (hv | ⟨-, hle⟩)
  · rcases h v hv with hcalled | ⟨w, hw, hle⟩
    · exact .inl hcalled
    · exact .inr ⟨w, .inr hw, hle⟩
  · exact .inr ⟨k, .inl rfl, hle⟩

/-- More may go from a trimmed history. -/
theorem Trimmed.discard
    (h : Trimmed m present gone)
    (hgone : gone ⊆ gone') :
    Trimmed m present gone' :=
  fun v hv w hw hle => hgone (h v hv w hw hle)

/-- Whatever goes when it is called for is explained. -/
theorem Explained.discard
    (h : Explained m present gone called)
    (hcalled : called ⊆ called')
    (hnew : ∀ v ∈ gone', v ∈ gone ∨ v ∈ called') :
    Explained m present gone' called' := by
  intro v hv
  rcases hnew v hv with hv | hv
  · exact (h v hv).imp_left fun hc => hcalled hc
  · exact .inl hv

theorem explained_of_subset
    (h : gone ⊆ called) :
    Explained m present gone called :=
  fun _ hv => .inl (h hv)

variable {n : Nat}

/-- Within the window, nothing goes unless it is called for. -/
theorem Explained.called_of_lt
    (h : Explained m present gone called)
    (hmax : ∀ w ∈ present, w ≤ n) {v : Nat}
    (hv : v ∈ gone)
    (hlt : n < v + m) :
    v ∈ called := by
  rcases h v hv with hcalled | ⟨w, hw, hle⟩
  · exact hcalled
  · have := hmax w hw
    omega

/-- At most `m` entries are left. -/
theorem Trimmed.length_le
    (h : Trimmed m present gone)
    (hn : n ∈ present)
    (hmax : ∀ w ∈ present, w ≤ n)
    {left : List Nat}
    (hnodup : left.Nodup)
    (hleft : ∀ v ∈ left, v ∈ present ∧ v ∉ gone) :
    left.length ≤ m := by
  have hsub : left.toFinset ⊆ Finset.Ico (n + 1 - m) (n + 1) := by
    intro v hv
    obtain ⟨hp, hg⟩ := hleft v (List.mem_toFinset.mp hv)
    have hlt : ¬ v + m ≤ n := fun hle => hg (h v hp n hn hle)
    have := hmax v hp
    rw [Finset.mem_Ico]
    omega
  calc
    left.length = left.toFinset.card := (List.toFinset_card_of_nodup hnodup).symm
    _ ≤ (Finset.Ico (n + 1 - m) (n + 1)).card := Finset.card_le_card hsub
    _ ≤ m := by
      rw [Nat.card_Ico]
      omega

end Window

end Lib
end Secretbae
