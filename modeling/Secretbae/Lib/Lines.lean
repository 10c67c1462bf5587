import Secretbae.Lib.Bytes

/-!
# Lines of a byte stream

A stream delivers its bytes in fragments of any size.  `readUntil` reads one
line of it, the newline included, and stops after a number of bytes: it is
`take` and `read_until` of a buffered reader.  `readUntil_eq` says that the
fragments do not matter: what is read and what is left depend on the bytes only,
and are those of `takeLine`.
-/

namespace Secretbae
namespace Lib

section Lines

def newline : UInt8 := 10

/-- The first line of a byte string with its newline, or its first `limit` bytes. -/
def takeLine : Nat → Bytes → Bytes × Bytes
  | 0, bs => ([], bs)
  | _ + 1, [] => ([], [])
  | limit + 1, b :: bs =>
      if b = newline then ([b], bs)
      else
        let (line, rest) := takeLine limit bs
        (b :: line, rest)

/-- Nothing more is read after these bytes. -/
def Complete (limit : Nat) (line : Bytes) : Prop :=
  line.getLast? = some newline ∨ line.length = limit

instance (limit : Nat) (line : Bytes) : Decidable (Complete limit line) :=
  inferInstanceAs (Decidable (_ ∨ _))

/-- `reader.take(limit).read_until(b'\n')`: each round takes what there is of the next
fragment. -/
def readUntil : Nat → List Bytes → Bytes × List Bytes
  | _, [] => ([], [])
  | limit, fragment :: fragments =>
      let (line, rest) := takeLine limit fragment
      if Complete limit line then (line, rest :: fragments)
      else
        let (more, rest) := readUntil (limit - line.length) fragments
        (line ++ more, rest)

theorem complete_cons_iff
    {limit : Nat} {b : UInt8} {line : Bytes}
    (hb : b ≠ newline) :
    Complete (limit + 1) (b :: line) ↔ Complete limit line := by
  cases line with
  | nil => simp [Complete, hb, eq_comm]
  | cons c line => simp [Complete]

theorem takeLine_cons
    {limit : Nat} {b : UInt8} (bs : Bytes)
    (hb : b ≠ newline) :
    takeLine (limit + 1) (b :: bs) = (b :: (takeLine limit bs).1, (takeLine limit bs).2) := by
  rw [takeLine, if_neg hb]

theorem takeLine_append
    (limit : Nat) (bs : Bytes) :
    (takeLine limit bs).1 ++ (takeLine limit bs).2 = bs ∧
      (takeLine limit bs).1.length ≤ limit := by
  induction limit generalizing bs with
  | zero =>
      simp [takeLine]
  | succ limit ih =>
      cases bs with
      | nil =>
          simp [takeLine]
      | cons b bs =>
          rw [takeLine]
          split
          · simp
          · obtain ⟨happend, hlength⟩ := ih bs
            simp [happend, hlength]

/-- A line within the limit is taken whole. -/
theorem takeLine_line
    {limit : Nat} {line : Bytes}
    (hline : newline ∉ line)
    (hlimit : line.length < limit) (rest : Bytes) :
    takeLine limit (line ++ newline :: rest) = (line ++ [newline], rest) := by
  induction line generalizing limit with
  | nil =>
      obtain ⟨limit, rfl⟩ : ∃ n, limit = n + 1 := ⟨limit - 1, by simp at hlimit; omega⟩
      simp [takeLine]
  | cons b line ih =>
      obtain ⟨limit, rfl⟩ : ∃ n, limit = n + 1 := ⟨limit - 1, by simp at hlimit; omega⟩
      rw [List.mem_cons, not_or] at hline
      have hrest := ih hline.2 (by simpa using hlimit)
      rw [List.cons_append, takeLine, if_neg (Ne.symm hline.1), hrest]
      rfl

/-- What is taken holds a newline only at its end. -/
theorem newline_notMem_takeLine
    {limit : Nat} {bs line rest : Bytes}
    (h : takeLine limit bs = (line ++ [newline], rest)) :
    newline ∉ line := by
  induction limit generalizing bs line with
  | zero =>
      simp [takeLine] at h
  | succ limit ih =>
      cases bs with
      | nil =>
          simp [takeLine] at h
      | cons b bs =>
          rw [takeLine] at h
          split at h
          · have hlen := congrArg List.length (Prod.mk.inj h).1
            have hnil : line = [] := List.eq_nil_of_length_eq_zero (by simpa using hlen.symm)
            simp [hnil]
          · rename_i hb
            cases line with
            | nil => simp
            | cons c line =>
                obtain ⟨hcons, hrest⟩ := Prod.mk.inj h
                obtain ⟨rfl, hline⟩ := List.cons.inj hcons
                have hmore : takeLine limit bs = (line ++ [newline], rest) :=
                  Prod.ext hline hrest
                rw [List.mem_cons, not_or]
                exact ⟨Ne.symm hb, ih hmore⟩

/-- A whole line is taken exactly when there is one within the limit. -/
theorem takeLine_eq_line_iff
    {limit : Nat} {bs line rest : Bytes} :
    takeLine limit bs = (line ++ [newline], rest) ↔
      bs = line ++ newline :: rest ∧ newline ∉ line ∧ line.length < limit := by
  constructor
  · intro h
    obtain ⟨happend, hlength⟩ := takeLine_append limit bs
    rw [h] at happend hlength
    refine ⟨by simpa using happend.symm, newline_notMem_takeLine h, ?_⟩
    simpa using hlength
  · rintro ⟨rfl, hline, hlimit⟩
    exact takeLine_line hline hlimit rest

/-- Where the first part is enough, the rest is left alone. -/
theorem takeLine_enough
    {limit : Nat} {bs : Bytes} (bs' : Bytes)
    (h : Complete limit (takeLine limit bs).1) :
    takeLine limit (bs ++ bs') = ((takeLine limit bs).1, (takeLine limit bs).2 ++ bs') := by
  induction limit generalizing bs with
  | zero =>
      simp [takeLine]
  | succ limit ih =>
      cases bs with
      | nil =>
          simp [takeLine, Complete] at h
      | cons b bs =>
          by_cases hb : b = newline
          · simp [takeLine, hb]
          · rw [takeLine_cons bs hb, complete_cons_iff hb] at h
            rw [List.cons_append, takeLine_cons _ hb, takeLine_cons bs hb, ih h]

/-- Where the first part has no newline and is not enough, the rest goes on. -/
theorem takeLine_more
    {limit : Nat} {bs : Bytes} (bs' : Bytes)
    (h : ¬ Complete limit (takeLine limit bs).1) :
    (takeLine limit bs).1 = bs ∧
      takeLine limit (bs ++ bs') =
        (bs ++ (takeLine (limit - bs.length) bs').1, (takeLine (limit - bs.length) bs').2) := by
  induction limit generalizing bs with
  | zero =>
      simp [takeLine, Complete] at h
  | succ limit ih =>
      cases bs with
      | nil =>
          exact ⟨rfl, rfl⟩
      | cons b bs =>
          by_cases hb : b = newline
          · simp [takeLine, hb, Complete] at h
          · rw [takeLine_cons bs hb, complete_cons_iff hb] at h
            obtain ⟨hfirst, hrest⟩ := ih h
            rw [List.cons_append, takeLine_cons bs hb, takeLine_cons (bs ++ bs') hb, hrest, hfirst]
            refine ⟨rfl, ?_⟩
            simp

/-- The fragments of a stream do not matter. -/
theorem readUntil_eq
    (limit : Nat) (fragments : List Bytes) :
    (readUntil limit fragments).1 = (takeLine limit fragments.flatten).1 ∧
      (readUntil limit fragments).2.flatten = (takeLine limit fragments.flatten).2 := by
  induction fragments generalizing limit with
  | nil =>
      cases limit <;> simp [readUntil, takeLine]
  | cons fragment fragments ih =>
      rw [readUntil, List.flatten_cons]
      dsimp only
      split
      · rename_i hdone
        rw [takeLine_enough _ hdone]
        exact ⟨rfl, rfl⟩
      · rename_i hmore
        obtain ⟨hfirst, hrest⟩ := takeLine_more fragments.flatten hmore
        obtain ⟨hline, hleft⟩ := ih (limit - fragment.length)
        rw [hfirst, hrest, ← hline, ← hleft]
        exact ⟨rfl, rfl⟩

end Lines

end Lib
end Secretbae
