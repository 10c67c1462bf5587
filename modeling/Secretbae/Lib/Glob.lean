import Mathlib.Computability.Language
import Mathlib.Tactic

/-!
# Segment globs

A pattern is a list of pieces over an arbitrary alphabet: a literal letter, any
one letter, or any word.  What a pattern means is a language, the product of
the languages of its pieces.

`globMatches` decides membership with one row of a dynamic-programming table:
position `j` of the row says whether the pieces read so far can end after `j`
letters.  `advance_getElem?` is the step of the table, `advanceEach_iff` the
correctness of the whole table, and `advanceAll_eq_advanceEach` says that the
loop may stop as soon as a row is empty.
-/

namespace Secretbae
namespace Lib

universe u

section Glob

variable {α : Type u}

/-- One piece of a pattern. -/
inductive Piece (α : Type u) where
  | literal (a : α)
  | one
  | many
deriving DecidableEq

/-- The words that a piece stands for. -/
def Piece.language : Piece α → Language α
  | .literal a => {[a]}
  | .one => {w | ∃ a, w = [a]}
  | .many => Set.univ

/-- The words that a pattern stands for. -/
def patternLanguage (pattern : List (Piece α)) : Language α :=
  (pattern.map Piece.language).prod

@[simp] theorem mem_patternLanguage_nil
    {w : List α} :
    w ∈ patternLanguage ([] : List (Piece α)) ↔ w = [] := by
  exact Language.mem_one w

/-- A word splits into a word of the first piece and a word of the rest. -/
theorem mem_patternLanguage_cons
    {p : Piece α} {ps : List (Piece α)} {w : List α} :
    w ∈ patternLanguage (p :: ps) ↔
      ∃ k ≤ w.length, w.take k ∈ p.language ∧ w.drop k ∈ patternLanguage ps := by
  have hprod : patternLanguage (p :: ps) = p.language * patternLanguage ps := by
    simp [patternLanguage]
  rw [hprod, Language.mem_mul]
  constructor
  · rintro ⟨u, hu, v, hv, rfl⟩
    refine ⟨u.length, by simp, ?_, ?_⟩
    · rwa [List.take_left]
    · rwa [List.drop_left]
  · rintro ⟨k, -, hu, hv⟩
    exact ⟨w.take k, hu, w.drop k, hv, List.take_append_drop k w⟩

/-- A word of a pattern is cut into blocks, one for each piece and in order. -/
theorem mem_patternLanguage_iff_blocks
    {ps : List (Piece α)} {w : List α} :
    w ∈ patternLanguage ps ↔
      ∃ blocks : List (List α), blocks.flatten = w ∧
        List.Forall₂ (fun p block => block ∈ p.language) ps blocks := by
  induction ps generalizing w with
  | nil =>
      rw [mem_patternLanguage_nil]
      constructor
      · rintro rfl
        exact ⟨[], rfl, .nil⟩
      · rintro ⟨blocks, rfl, hblocks⟩
        cases hblocks
        rfl
  | cons p ps ih =>
      rw [mem_patternLanguage_cons]
      constructor
      · rintro ⟨k, -, hpiece, hrest⟩
        obtain ⟨blocks, hflat, hblocks⟩ := ih.mp hrest
        refine ⟨w.take k :: blocks, ?_, .cons hpiece hblocks⟩
        rw [List.flatten_cons, hflat, List.take_append_drop]
      · rintro ⟨blocks, rfl, hblocks⟩
        cases hblocks with
        | @cons _ block _ blocks hpiece hblocks =>
            refine ⟨block.length, by simp, ?_, ih.mpr ⟨blocks, ?_, hblocks⟩⟩
            · rwa [List.flatten_cons, List.take_left]
            · rw [List.flatten_cons, List.drop_left]

/-- The pattern of a single wildcard for any word matches every word. -/
theorem mem_patternLanguage_many
    (w : List α) :
    w ∈ patternLanguage [(.many : Piece α)] := by
  refine mem_patternLanguage_cons.mpr ⟨w.length, le_rfl, Set.mem_univ _, ?_⟩
  simp

/-- The running disjunction of a row. -/
def carry : Bool → List Bool → List Bool
  | _, [] => []
  | carried, here :: rest => (carried || here) :: carry (carried || here) rest

theorem carry_getElem?
    {carried : Bool} {row : List Bool} {k : Nat} :
    (carry carried row)[k]? = some true ↔
      k < row.length ∧ (carried = true ∨ ∃ j ≤ k, row[j]? = some true) := by
  induction row generalizing carried k with
  | nil =>
      simp [carry]
  | cons here rest ih =>
      cases k with
      | zero =>
          simp [carry]
      | succ k =>
          simp only [carry, List.getElem?_cons_succ, ih, List.length_cons,
            Nat.add_lt_add_iff_right, Bool.or_eq_true, and_congr_right_iff]
          intro _
          constructor
          · rintro ((hc | hh) | ⟨j, hj, hrow⟩)
            · exact .inl hc
            · exact .inr ⟨0, by omega, by simp [hh]⟩
            · exact .inr ⟨j + 1, by omega, by simpa using hrow⟩
          · rintro (hc | ⟨j, hj, hrow⟩)
            · exact .inl (.inl hc)
            · cases j with
              | zero => exact .inl (.inr (by simpa using hrow))
              | succ j => exact .inr ⟨j, by omega, by simpa using hrow⟩

/-- A cut of length one is the letter before its end. -/
theorem take_drop_eq_singleton_iff
    {word : List α} {j k : Nat} {a : α}
    (hk : k ≤ word.length) :
    (word.take k).drop j = [a] ↔ j + 1 = k ∧ word[j]? = some a := by
  constructor
  · intro h
    have hlen := congrArg List.length h
    simp only [List.length_drop, List.length_take, List.length_singleton] at hlen
    have hjk : j + 1 = k := by omega
    subst hjk
    have hhead := congrArg (fun l => l[0]?) h
    simp only [List.getElem?_drop, List.getElem?_cons_zero] at hhead
    rw [List.getElem?_take_of_lt (by omega)] at hhead
    exact ⟨rfl, by simpa using hhead⟩
  · rintro ⟨rfl, ha⟩
    have hlt : j < word.length := by omega
    rw [List.drop_take, Nat.add_sub_cancel_left, List.take_one, List.head?_drop, ha]
    rfl

variable [DecidableEq α]

/-- The next row of the table. -/
def advance (word : List α) (reachable : List Bool) : Piece α → List Bool
  | .many => carry false reachable
  | .one => false :: reachable.take word.length
  | .literal a => false :: List.zipWith (fun here b => here && decide (b = a)) reachable word

theorem carry_length
    (carried : Bool) (row : List Bool) :
    (carry carried row).length = row.length := by
  induction row generalizing carried with
  | nil => rfl
  | cons here rest ih => simp [carry, ih]

theorem advance_length
    {word : List α} {reachable : List Bool}
    (h : reachable.length = word.length + 1)
    (p : Piece α) :
    (advance word reachable p).length = word.length + 1 := by
  cases p with
  | many => simp [advance, carry_length, h]
  | one => simp [advance, h]
  | literal a => simp [advance, h]

/-- One step of the table: the piece reads a cut that starts where the row allows. -/
theorem advance_getElem?
    {word : List α} {reachable : List Bool}
    (h : reachable.length = word.length + 1)
    (p : Piece α) {k : Nat}
    (hk : k ≤ word.length) :
    (advance word reachable p)[k]? = some true ↔
      ∃ j ≤ k, reachable[j]? = some true ∧ (word.take k).drop j ∈ p.language := by
  cases p with
  | many =>
      rw [advance, carry_getElem?]
      constructor
      · rintro ⟨-, hc | ⟨j, hj, hrow⟩⟩
        · cases hc
        · exact ⟨j, hj, hrow, Set.mem_univ _⟩
      · rintro ⟨j, hj, hrow, -⟩
        exact ⟨by omega, .inr ⟨j, hj, hrow⟩⟩
  | one =>
      have hmem : ∀ j, (word.take k).drop j ∈ (Piece.one : Piece α).language ↔ j + 1 = k := by
        intro j
        constructor
        · rintro ⟨a, ha⟩
          exact ((take_drop_eq_singleton_iff hk).mp ha).1
        · rintro hj
          have hlt : j < word.length := by omega
          exact ⟨word[j], (take_drop_eq_singleton_iff hk).mpr ⟨hj, by simp [hlt]⟩⟩
      simp only [hmem]
      cases k with
      | zero =>
          simp [advance]
      | succ i =>
          simp only [advance, List.getElem?_cons_succ, Nat.add_right_cancel_iff]
          rw [List.getElem?_take_of_lt (by omega)]
          constructor
          · intro hrow
            exact ⟨i, by omega, hrow, rfl⟩
          · rintro ⟨j, -, hrow, rfl⟩
            exact hrow
  | literal a =>
      have hmem : ∀ j, (word.take k).drop j ∈ (Piece.literal a).language ↔
          j + 1 = k ∧ word[j]? = some a := by
        intro j
        exact take_drop_eq_singleton_iff hk
      simp only [hmem]
      cases k with
      | zero =>
          simp [advance]
      | succ i =>
          have hlt : i < word.length := by omega
          have hrow : i < reachable.length := by omega
          simp only [advance, List.getElem?_cons_succ, Nat.add_right_cancel_iff,
            List.getElem?_zipWith, List.getElem?_eq_getElem hlt,
            List.getElem?_eq_getElem hrow, Option.some.injEq, Bool.and_eq_true,
            decide_eq_true_eq]
          constructor
          · rintro ⟨hr, hw⟩
            exact ⟨i, by omega, by simp [hrow, hr], rfl, by simp [hlt, hw]⟩
          · rintro ⟨j, -, hr, rfl, hw⟩
            simp only [List.getElem?_eq_getElem hrow, List.getElem?_eq_getElem hlt,
              Option.some.injEq] at hr hw
            exact ⟨hr, hw⟩

/-- The rest of the loop from a row of the table; an empty row ends it. -/
def advanceAll (word : List α) : List Bool → List (Piece α) → Bool
  | reachable, [] => reachable.getD word.length false
  | reachable, p :: ps =>
      let next := advance word reachable p
      if next.any id then advanceAll word next ps else false

/-- Whether `word` matches `pattern`. -/
def globMatches (pattern : List (Piece α)) (word : List α) : Bool :=
  advanceAll word (true :: List.replicate word.length false) pattern

/-- The loop without the early exit: every row of the table is computed. -/
def advanceEach (word : List α) : List Bool → List (Piece α) → Bool
  | reachable, [] => reachable.getD word.length false
  | reachable, p :: ps => advanceEach word (advance word reachable p) ps

/-- The table accepts exactly when the rest of the word is read from a reachable position. -/
theorem advanceEach_iff
    {word : List α} {reachable : List Bool}
    (h : reachable.length = word.length + 1)
    (pattern : List (Piece α)) :
    advanceEach word reachable pattern = true ↔
      ∃ j ≤ word.length, reachable[j]? = some true ∧
        word.drop j ∈ patternLanguage pattern := by
  induction pattern generalizing reachable with
  | nil =>
      simp only [advanceEach, mem_patternLanguage_nil, List.drop_eq_nil_iff]
      constructor
      · intro hlast
        refine ⟨word.length, le_rfl, ?_, le_rfl⟩
        have hlt : word.length < reachable.length := by omega
        simpa [List.getD_eq_getElem?_getD, hlt] using hlast
      · rintro ⟨j, hj, hrow, hlen⟩
        obtain rfl : j = word.length := by omega
        simp [List.getD_eq_getElem?_getD, hrow]
  | cons p ps ih =>
      have hstep (k : Nat) (hk : k ≤ word.length) :
          (advance word reachable p)[k]? = some true ↔
            ∃ j ≤ k, reachable[j]? = some true ∧ (word.take k).drop j ∈ p.language :=
        advance_getElem? h p hk
      rw [advanceEach, ih (advance_length h p)]
      -- reading `p` and then the rest is reading `p :: ps`
      constructor
      · rintro ⟨k, hk, hnext, hrest⟩
        obtain ⟨j, hj, hrow, hpiece⟩ := (hstep k hk).mp hnext
        refine ⟨j, by omega, hrow, mem_patternLanguage_cons.mpr ⟨k - j, ?_, ?_, ?_⟩⟩
        · simp only [List.length_drop]
          omega
        · rwa [← List.drop_take]
        · rwa [List.drop_drop, Nat.add_sub_cancel' hj]
      · rintro ⟨j, hj, hrow, hmem⟩
        obtain ⟨i, hi, hpiece, hrest⟩ := mem_patternLanguage_cons.mp hmem
        simp only [List.length_drop] at hi
        rw [List.drop_drop] at hrest
        refine ⟨j + i, by omega, (hstep _ (by omega)).mpr ⟨j, by omega, hrow, ?_⟩, hrest⟩
        rwa [List.drop_take, Nat.add_sub_cancel_left]

/-- The early exit never changes the answer. -/
theorem advanceAll_eq_advanceEach
    {word : List α} {reachable : List Bool}
    (h : reachable.length = word.length + 1)
    (pattern : List (Piece α)) :
    advanceAll word reachable pattern = advanceEach word reachable pattern := by
  induction pattern generalizing reachable with
  | nil =>
      rfl
  | cons p ps ih =>
      have hlength := advance_length h p
      simp only [advanceAll, advanceEach]
      split
      · exact ih hlength
      -- no position is reachable, so the rest of the table accepts nothing
      · rename_i hnone
        symm
        rw [Bool.eq_false_iff]
        intro haccept
        obtain ⟨k, -, hnext, -⟩ := (advanceEach_iff hlength ps).mp haccept
        exact hnone (List.any_eq_true.mpr ⟨true, List.mem_of_getElem? hnext, rfl⟩)

/-- The table decides membership in the language of the pattern. -/
theorem globMatches_iff
    {pattern : List (Piece α)} {word : List α} :
    globMatches pattern word = true ↔ word ∈ patternLanguage pattern := by
  rw [globMatches, advanceAll_eq_advanceEach (by simp), advanceEach_iff (by simp)]
  constructor
  · rintro ⟨j, -, hrow, hmem⟩
    cases j with
    | zero =>
        exact hmem
    | succ j =>
        simp [List.getElem?_replicate] at hrow
  · intro hmem
    exact ⟨0, Nat.zero_le _, rfl, hmem⟩

end Glob

end Lib
end Secretbae
