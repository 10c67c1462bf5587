import Mathlib.Data.List.Nodup
import Mathlib.Tactic

/-!
# Maps filled from a list

Inserting the pairs of a list one after another into an ordered map, where a
later pair replaces an earlier one of its key.  `getElem?_insertAll` is the
content of such a map: the last pair of the key, or else what was there before.
-/

namespace Secretbae
namespace Lib

universe u v

section Overlay

variable {κ : Type u} {β : Type v} {cmp : κ → κ → Ordering}

/-- Insert the pairs of a list, from the first to the last. -/
def insertAll (t : Std.TreeMap κ β cmp) (pairs : List (κ × β)) : Std.TreeMap κ β cmp :=
  pairs.foldl (fun t pair => t.insert pair.1 pair.2) t

variable [Std.TransCmp cmp] [Std.LawfulEqCmp cmp] [DecidableEq κ]

/-- The value of the last pair with this key. -/
def lastValue (pairs : List (κ × β)) (k : κ) : Option β :=
  ((pairs.filter fun pair => decide (pair.1 = k)).getLast?).map Prod.snd

theorem getElem?_insertAll
    (t : Std.TreeMap κ β cmp) (pairs : List (κ × β)) (k : κ) :
    (insertAll t pairs)[k]? = (lastValue pairs k).or t[k]? := by
  induction pairs generalizing t with
  | nil =>
      rfl
  | cons pair pairs ih =>
      have hstep : insertAll t (pair :: pairs) = insertAll (t.insert pair.1 pair.2) pairs := rfl
      rw [hstep, ih, Std.TreeMap.getElem?_insert]
      by_cases h : pair.1 = k
      · -- a later pair of the key still wins
        have hlast : lastValue (pair :: pairs) k = (lastValue pairs k).or (some pair.2) := by
          unfold lastValue
          rw [List.filter_cons_of_pos (by simpa using h), List.getLast?_cons]
          cases (pairs.filter fun pair => decide (pair.1 = k)).getLast? <;> rfl
        rw [if_pos (Std.LawfulEqCmp.compare_eq_iff_eq.mpr h), hlast, Option.or_assoc]
        rfl
      · have hlast : lastValue (pair :: pairs) k = lastValue pairs k := by
          unfold lastValue
          rw [List.filter_cons_of_neg (by simpa using h)]
        rw [if_neg fun heq => h (Std.LawfulEqCmp.compare_eq_iff_eq.mp heq), hlast]

theorem mem_of_lastValue
    {pairs : List (κ × β)} {k : κ} {v : β}
    (h : lastValue pairs k = some v) :
    (k, v) ∈ pairs := by
  obtain ⟨⟨k', v'⟩, hlast, rfl⟩ := Option.map_eq_some_iff.mp h
  have hmem := List.mem_filter.mp (List.mem_of_getLast? hlast)
  rw [← of_decide_eq_true hmem.2]
  exact hmem.1

theorem lastValue_eq_none_iff
    {pairs : List (κ × β)} {k : κ} :
    lastValue pairs k = none ↔ k ∉ pairs.map Prod.fst := by
  unfold lastValue
  rw [Option.map_eq_none_iff, List.getLast?_eq_none_iff, List.filter_eq_nil_iff]
  constructor
  · rintro hall hk
    obtain ⟨pair, hpair, rfl⟩ := List.mem_map.mp hk
    exact hall pair hpair (decide_eq_true rfl)
  · rintro hk pair hpair hkey
    exact hk (List.mem_map.mpr ⟨pair, hpair, of_decide_eq_true hkey⟩)

/-- Where the pairs of a key agree, any of them is the last one. -/
theorem lastValue_eq_some_of_mem
    {pairs : List (κ × β)} {k : κ} {v : β}
    (hmem : (k, v) ∈ pairs)
    (hagree : ∀ w, (k, w) ∈ pairs → w = v) :
    lastValue pairs k = some v := by
  cases hlast : lastValue pairs k with
  | none =>
      exact absurd (List.mem_map.mpr ⟨_, hmem, rfl⟩) (lastValue_eq_none_iff.mp hlast)
  | some w =>
      rw [hagree w (mem_of_lastValue hlast)]

theorem lastValue_of_nodup
    {pairs : List (κ × β)} {k : κ} {v : β}
    (hnodup : (pairs.map Prod.fst).Nodup)
    (hmem : (k, v) ∈ pairs) :
    lastValue pairs k = some v := by
  refine lastValue_eq_some_of_mem hmem fun w hw => ?_
  have hsame := List.inj_on_of_nodup_map hnodup hw hmem rfl
  exact (Prod.mk.inj hsame).2

end Overlay

end Lib
end Secretbae
