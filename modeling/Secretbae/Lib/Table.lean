import Mathlib.Data.List.Nodup
import Mathlib.Tactic

/-!
# Tables with a unique key

A table is a list of rows whose keys are pairwise different, in the order in
which a scan meets them.  Insertion refuses a key that is taken; an update maps
every row and leaves its key alone; a deletion filters.
-/

namespace Secretbae
namespace Lib

universe u v

/-- Appending a row with a new value keeps a column free of repetitions. -/
theorem nodup_map_concat
    {α : Type u} {β : Type v} {f : α → β} {rows : List α} {a : α}
    (h : (rows.map f).Nodup)
    (hfree : f a ∉ rows.map f) :
    ((rows ++ [a]).map f).Nodup := by
  rw [List.map_append, List.map_singleton, List.nodup_append]
  refine ⟨h, List.nodup_singleton _, ?_⟩
  rintro x hx y hy rfl
  exact hfree (List.mem_singleton.mp hy ▸ hx)

section Keyed

variable {α : Type u} {κ : Type v} [DecidableEq κ]

/-- Looking a row up by a column without repetitions. -/
theorem find?_key_eq_some_iff
    {key : α → κ} {rows : List α}
    (h : (rows.map key).Nodup)
    {k : κ} {a : α} :
    rows.find? (fun r => decide (key r = k)) = some a ↔ a ∈ rows ∧ key a = k := by
  constructor
  · intro hfind
    have hkey := List.find?_some hfind
    exact ⟨List.mem_of_find?_eq_some hfind, by simpa using hkey⟩
  · rintro ⟨ha, rfl⟩
    cases hfind : rows.find? (fun r => decide (key r = key a)) with
    | none =>
        have hnone := List.find?_eq_none.mp hfind a ha
        simp at hnone
    | some b =>
        have hb := List.mem_of_find?_eq_some hfind
        have hkey : key b = key a := by simpa using List.find?_some hfind
        rw [List.inj_on_of_nodup_map h hb ha hkey]

end Keyed

/-- An order of rows without repetitions is determined by which rows there are. -/
theorem eq_of_pairwise_of_mem
    {α : Type u} {le : α → α → Prop} {rows rows' : List α}
    (hsorted : rows.Pairwise le)
    (hsorted' : rows'.Pairwise le)
    (hnodup : rows.Nodup)
    (hnodup' : rows'.Nodup)
    (hmem : ∀ a, a ∈ rows ↔ a ∈ rows')
    (hanti : ∀ a ∈ rows, ∀ b ∈ rows, le a b → le b a → a = b) :
    rows = rows' := by
  refine List.Perm.eq_of_pairwise ?_ hsorted hsorted'
    ((List.perm_ext_iff_of_nodup hnodup hnodup').mpr hmem)
  intro a b ha hb hab hba
  exact hanti a ha b ((hmem b).mpr hb) hab hba

/-- `ORDER BY` gives one list for one set of rows. -/
theorem mergeSort_eq_of_mem
    {α : Type u} {le : α → α → Bool} {rows rows' : List α}
    (htrans : ∀ a b c, le a b = true → le b c = true → le a c = true)
    (htotal : ∀ a b, (le a b || le b a) = true)
    (hnodup : rows.Nodup)
    (hnodup' : rows'.Nodup)
    (hmem : ∀ a, a ∈ rows ↔ a ∈ rows')
    (hanti : ∀ a ∈ rows, ∀ b ∈ rows, le a b = true → le b a = true → a = b) :
    rows.mergeSort le = rows'.mergeSort le := by
  refine eq_of_pairwise_of_mem (List.pairwise_mergeSort htrans htotal rows)
    (List.pairwise_mergeSort htrans htotal rows') ?_ ?_ ?_ ?_
  · exact (List.mergeSort_perm rows le).nodup_iff.mpr hnodup
  · exact (List.mergeSort_perm rows' le).nodup_iff.mpr hnodup'
  · intro a
    rw [List.mem_mergeSort, List.mem_mergeSort]
    exact hmem a
  · intro a ha b hb
    exact hanti a (List.mem_mergeSort.mp ha) b (List.mem_mergeSort.mp hb)

/-- `ORDER BY … DESC` is the reverse of an ascending order, for a column without repetitions. -/
theorem mergeSort_descending
    {α : Type u} {column : α → Nat} {rows ascending : List α}
    (hperm : ascending.Perm rows)
    (hsorted : ascending.Pairwise fun a b => column a ≤ column b)
    (hunique : ∀ a ∈ rows, ∀ b ∈ rows, column a = column b → a = b) :
    rows.mergeSort (fun a b => decide (column b ≤ column a)) = ascending.reverse := by
  have hmerge : (rows.mergeSort fun a b => decide (column b ≤ column a)).Pairwise
      fun a b => decide (column b ≤ column a) = true := by
    refine List.pairwise_mergeSort ?_ ?_ rows
    · intro a b c hab hbc
      exact decide_eq_true ((of_decide_eq_true hbc).trans (of_decide_eq_true hab))
    · intro a b
      rcases le_total (column b) (column a) with h | h <;> simp [h]
  have hreverse : ascending.reverse.Pairwise
      fun a b => decide (column b ≤ column a) = true := by
    rw [List.pairwise_reverse]
    exact hsorted.imp decide_eq_true
  refine List.Perm.eq_of_pairwise ?_ hmerge hreverse
    ((List.mergeSort_perm rows _).trans (hperm.symm.trans (List.reverse_perm _).symm))
  intro a b ha hb hab hba
  have ha' : a ∈ rows := List.mem_mergeSort.mp ha
  have hb' : b ∈ rows := hperm.mem_iff.mp (List.mem_reverse.mp hb)
  exact hunique a ha' b hb' (le_antisymm (of_decide_eq_true hba) (of_decide_eq_true hab))

/-- The largest row id so far bounds every one. -/
theorem le_foldl_max
    (l : List Nat) (a : Nat) :
    a ≤ l.foldl max a ∧ ∀ x ∈ l, x ≤ l.foldl max a := by
  induction l generalizing a with
  | nil =>
      simp
  | cons b l ih =>
      obtain ⟨hle, hall⟩ := ih (max a b)
      simp only [List.foldl_cons]
      refine ⟨by omega, ?_⟩
      intro x hx
      rcases List.mem_cons.mp hx with rfl | hx
      · omega
      · exact hall x hx

/-- Rows with pairwise different keys. -/
structure Table {α : Type u} {κ : Type v} (key : α → κ) where
  rows : List α
  unique : (rows.map key).Nodup

namespace Table

variable {α : Type u} {κ : Type v} {key : α → κ}

def empty : Table key where
  rows := []
  unique := List.nodup_nil

/-- A table is its rows. -/
theorem ext_rows
    {t t' : Table key}
    (h : t.rows = t'.rows) :
    t = t' := by
  cases t
  cases t'
  cases h
  rfl

/-- Rows with one key are one row. -/
theorem eq_of_key_eq
    (t : Table key) {a b : α}
    (ha : a ∈ t.rows)
    (hb : b ∈ t.rows)
    (h : key a = key b) :
    a = b :=
  List.inj_on_of_nodup_map t.unique ha hb h

/-- Map every row by a function that leaves the key alone. -/
def update (t : Table key) (f : α → α) (hf : ∀ a, key (f a) = key a) : Table key where
  rows := t.rows.map f
  unique := by
    have hkeys : (t.rows.map f).map key = t.rows.map key := by
      simp [List.map_map, Function.comp_def, hf]
    rw [hkeys]
    exact t.unique

@[simp] theorem mem_update
    {t : Table key} {f : α → α} {hf : ∀ a, key (f a) = key a} {b : α} :
    b ∈ (t.update f hf).rows ↔ ∃ a ∈ t.rows, f a = b := by
  simp [update]

/-- Delete the rows that `p` does not keep. -/
def keep (t : Table key) (p : α → Bool) : Table key where
  rows := t.rows.filter p
  unique := t.unique.sublist (List.filter_sublist.map key)

@[simp] theorem mem_keep
    {t : Table key} {p : α → Bool} {b : α} :
    b ∈ (t.keep p).rows ↔ b ∈ t.rows ∧ p b = true := by
  simp [keep]

variable [DecidableEq κ]

/-- Add a row, unless its key is taken. -/
def insert (t : Table key) (a : α) : Option (Table key) :=
  if h : key a ∈ t.rows.map key then none
  else
    some
      { rows := t.rows ++ [a]
        unique := nodup_map_concat t.unique h }

/-- A successful insertion. -/
theorem insert_eq_some
    {t t' : Table key} {a : α}
    (h : t.insert a = some t') :
    (∀ b ∈ t.rows, key b ≠ key a) ∧ t'.rows = t.rows ++ [a] := by
  unfold insert at h
  split at h
  · cases h
  · rename_i hfree
    cases h
    refine ⟨?_, rfl⟩
    intro b hb hkey
    exact hfree (List.mem_map.mpr ⟨b, hb, hkey⟩)

/-- A row with a new key can be inserted. -/
theorem insert_ne_none
    {t : Table key} {a : α}
    (h : ∀ b ∈ t.rows, key b ≠ key a) :
    ∃ t', t.insert a = some t' := by
  unfold insert
  split
  · rename_i hmem
    obtain ⟨b, hb, hkey⟩ := List.mem_map.mp hmem
    exact absurd hkey (h b hb)
  · exact ⟨_, rfl⟩

/-- The row with key `k`. -/
def find? (t : Table key) (k : κ) : Option α :=
  t.rows.find? (fun r => decide (key r = k))

theorem find?_eq_some_iff
    {t : Table key} {k : κ} {a : α} :
    t.find? k = some a ↔ a ∈ t.rows ∧ key a = k :=
  find?_key_eq_some_iff t.unique

end Table

end Lib
end Secretbae
