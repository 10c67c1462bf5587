import Secretbae.Lib.Bytes

/-!
# Reading from a source that delivers fragments

A source hands its bytes over in fragments of any size, and one call takes as
much of the next fragment as its buffer holds.  `gather` calls until what has
been gathered is enough, and `gather_fits` says what it ends with: it depends on
the bytes of the source, and on where the fragments end only in how much more
than enough is gathered.
-/

namespace Secretbae
namespace Lib

universe u

section Source

/-- What comes after the last fragment. -/
inductive Ending where
  | closed
  | failed (error : String)
deriving DecidableEq

structure Source where
  fragments : List Bytes
  ending : Ending

/-- What the source still holds. -/
def Source.bytes (s : Source) : Bytes :=
  s.fragments.flatten

/-- No fragment is empty: only the end reads as nothing. -/
def Source.Delivers (s : Source) : Prop :=
  [] ∉ s.fragments

/-- `Read::read`, with a buffer of `size` bytes. -/
def Source.read (size : Nat) (s : Source) : Except String (Bytes × Source) :=
  match s.fragments with
  | [] =>
      match s.ending with
      | .closed => .ok ([], s)
      | .failed e => .error e
  | fragment :: fragments =>
      .ok (fragment.take size,
        { s with
          fragments :=
            if fragment.length ≤ size then fragments else fragment.drop size :: fragments })

theorem Source.read_bytes
    {size : Nat} {s rest : Source} {chunk : Bytes}
    (h : s.read size = .ok (chunk, rest)) :
    chunk ++ rest.bytes = s.bytes ∧ rest.ending = s.ending := by
  obtain ⟨fragments, ending⟩ := s
  cases fragments with
  | nil =>
      cases ending with
      | closed =>
          cases h
          exact ⟨rfl, rfl⟩
      | failed e =>
          cases h
  | cons fragment fragments =>
      cases h
      refine ⟨?_, rfl⟩
      unfold Source.bytes
      split
      · rename_i hfits
        rw [List.take_of_length_le hfits, List.flatten_cons]
      · rw [List.flatten_cons, List.flatten_cons, ← List.append_assoc, List.take_append_drop]

/-- A call reads nothing only where the fragments have ended. -/
theorem Source.read_cases
    {size : Nat} {s : Source}
    (hsize : 0 < size)
    (hs : s.Delivers) :
    (s.bytes = [] ∧ s.ending = .closed ∧ s.read size = .ok ([], s)) ∨
      (∃ e, s.bytes = [] ∧ s.ending = .failed e ∧ s.read size = .error e) ∨
      ∃ chunk rest, s.read size = .ok (chunk, rest) ∧ chunk ≠ [] ∧ rest.Delivers := by
  obtain ⟨fragments, ending⟩ := s
  cases fragments with
  | nil =>
      cases ending with
      | closed => exact .inl ⟨rfl, rfl, rfl⟩
      | failed e => exact .inr (.inl ⟨e, rfl, rfl, rfl⟩)
  | cons fragment fragments =>
      obtain ⟨hfirst, hrest⟩ := not_or.mp (List.mem_cons.not.mp hs)
      refine .inr (.inr ⟨_, _, rfl, ?_, ?_⟩)
      · intro hnil
        rcases List.take_eq_nil_iff.mp hnil with h | h
        · omega
        · exact hfirst h.symm
      · unfold Source.Delivers
        dsimp only
        split
        · exact hrest
        · rename_i hlong
          rw [List.mem_cons, not_or]
          refine ⟨fun hnil => ?_, hrest⟩
          have := List.drop_eq_nil_iff.mp hnil.symm
          omega

/-- Whether what has been gathered is enough, or how much to ask for next. -/
inductive Want (α : Type u) where
  | enough (a : α)
  | more (size : Nat)

/-- What gathering ends with: enough, or what there was when the source was closed. -/
inductive Gathered (α : Type u) where
  | enough (a : α) (got : Bytes) (rest : Source)
  | closed (got : Bytes)
  | failed (error : String)

variable {α : Type u}

/-- Read as often as `want` asks for more, with a buffer of the size that it says. -/
def gather (want : Bytes → Want α) (got : Bytes) (s : Source) : Gathered α :=
  match want got with
  | .enough a => .enough a got s
  | .more size =>
      match _hread : s.read size with
      | .error e => .failed e
      | .ok (chunk, rest) =>
          if _hchunk : chunk = [] then .closed got
          else gather want (got ++ chunk) rest
termination_by s.bytes.length
decreasing_by
  rw [← (Source.read_bytes _hread).1, List.length_append]
  exact Nat.lt_add_of_pos_left (List.length_pos_iff.mpr _hchunk)

/-- What is left of `all`, and why gathering ended. -/
def Gathered.Fits (want : Bytes → Want α) (all : Bytes) (ending : Ending) : Gathered α → Prop
  | .enough a got rest =>
      got ++ rest.bytes = all ∧ want got = .enough a ∧ rest.Delivers ∧ rest.ending = ending
  | .closed got => got = all ∧ (∃ size, want all = .more size) ∧ ending = .closed
  | .failed e => (∃ size, want all = .more size) ∧ ending = .failed e

theorem gather_fits
    {want : Bytes → Want α}
    (hwant : ∀ got size, want got = .more size → 0 < size)
    (got : Bytes) {s : Source}
    (hs : s.Delivers) :
    (gather want got s).Fits want (got ++ s.bytes) s.ending := by
  fun_induction gather want got s with
  | case1 got s a hdone =>
      exact ⟨rfl, hdone, hs, rfl⟩
  | case2 got s size hmore e hread =>
      rcases Source.read_cases (hwant _ _ hmore) hs with
        ⟨-, -, h⟩ | ⟨e', hnil, hending, h⟩ | ⟨_, _, h, -⟩
      · cases hread.symm.trans h
      · cases hread.symm.trans h
        rw [hnil, List.append_nil]
        exact ⟨⟨size, hmore⟩, hending⟩
      · cases hread.symm.trans h
  | case3 got s size hmore rest hread =>
      rcases Source.read_cases (hwant _ _ hmore) hs with
        ⟨hnil, hending, -⟩ | ⟨e', -, -, h⟩ | ⟨_, _, h, hne, -⟩
      · rw [hnil, List.append_nil]
        exact ⟨rfl, ⟨size, hmore⟩, hending⟩
      · cases hread.symm.trans h
      · cases hread.symm.trans h
        exact absurd rfl hne
  | case4 got s size hmore chunk rest hread hchunk ih =>
      obtain ⟨hbytes, hending⟩ := Source.read_bytes hread
      have hrest : rest.Delivers := by
        rcases Source.read_cases (hwant _ _ hmore) hs with
          ⟨-, -, h⟩ | ⟨e', -, -, h⟩ | ⟨_, _, h, -, hdelivers⟩
        · cases hread.symm.trans h
          exact hs
        · cases hread.symm.trans h
        · cases hread.symm.trans h
          exact hdelivers
      rw [← hbytes, ← hending, ← List.append_assoc]
      exact ih hrest

end Source

end Lib
end Secretbae
