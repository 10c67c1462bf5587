import Secretbae.Lib.Text

/-!
# Lines and words of a text

The standard library's `lines`, `split_whitespace` and `eq_ignore_ascii_case`,
and `from_utf8_lossy`, which puts a replacement character for every sequence of
bytes that begins a character and does not complete it.
-/

namespace Secretbae
namespace Lib

section Words

/-- `str::lines`: a line ends at a line feed, which a carriage return may precede. -/
def textLines : List Char → List (List Char)
  | [] => []
  | '\r' :: '\n' :: s => [] :: textLines s
  | '\n' :: s => [] :: textLines s
  | c :: s =>
      match textLines s with
      | [] => [[c]]
      | line :: lines => (c :: line) :: lines

/-- `str::split_whitespace`. -/
def splitWhitespace (s : List Char) : List (List Char) :=
  (s.splitOnP isWhiteSpace).filter fun word => !word.isEmpty

/-- `str::eq_ignore_ascii_case`. -/
def eqIgnoreAsciiCase (a b : List Char) : Bool :=
  decide (a.map Char.toLower = b.map Char.toLower)

theorem textLines_cons
    {c : Char} {s line : List Char} {lines : List (List Char)}
    (hc : c ≠ '\n')
    (hs : s.head? ≠ some '\n')
    (h : textLines s = line :: lines) :
    textLines (c :: s) = (c :: line) :: lines := by
  unfold textLines
  split
  · rename_i heq
    cases heq
  · rename_i heq
    cases heq
    exact absurd rfl hs
  · rename_i heq
    cases heq
    exact absurd rfl hc
  · rename_i heq
    cases heq
    rw [h]

/-- A line that is ended, before a text. -/
theorem textLines_crlf
    {line : List Char}
    (h : '\n' ∉ line) (s : List Char) :
    textLines (line ++ '\r' :: '\n' :: s) = line :: textLines s := by
  induction line with
  | nil =>
      rw [List.nil_append, textLines]
  | cons c line ih =>
      obtain ⟨hc, hline⟩ := not_or.mp (List.mem_cons.not.mp h)
      refine textLines_cons (Ne.symm hc) ?_ (ih hline)
      cases line with
      | nil =>
          change some '\r' ≠ some '\n'
          decide
      | cons d line =>
          change some d ≠ some '\n'
          intro heq
          exact hline (Option.some.inj heq ▸ List.mem_cons_self)

theorem textLines_lines
    {lines : List (List Char)}
    (h : ∀ line ∈ lines, '\n' ∉ line) (s : List Char) :
    textLines (lines.flatMap (fun line => line ++ ['\r', '\n']) ++ s) = lines ++ textLines s := by
  induction lines with
  | nil =>
      rfl
  | cons line lines ih =>
      obtain ⟨hline, hlines⟩ := List.forall_mem_cons.mp h
      rw [List.flatMap_cons, List.append_assoc, List.append_assoc, List.cons_append,
        List.cons_append, List.nil_append, textLines_crlf hline, ih hlines, List.cons_append]

theorem not_mem_of_mem_textLines
    {s line : List Char}
    (h : line ∈ textLines s) :
    '\n' ∉ line := by
  fun_induction textLines s generalizing line with
  | case1 => cases h
  | case2 s ih =>
      rcases List.mem_cons.mp h with rfl | h
      · exact List.not_mem_nil
      · exact ih h
  | case3 s ih =>
      rcases List.mem_cons.mp h with rfl | h
      · exact List.not_mem_nil
      · exact ih h
  | case4 c s _ hc hrest =>
      obtain rfl := List.mem_singleton.mp h
      exact fun hmem => hc (List.mem_singleton.mp hmem).symm
  | case5 c s _ hc first lines hrest ih =>
      rcases List.mem_cons.mp h with rfl | h
      · refine fun hmem => ?_
        rcases List.mem_cons.mp hmem with heq | hmem
        · exact hc heq.symm
        · exact ih (hrest ▸ List.mem_cons_self) hmem
      · exact ih (hrest ▸ List.mem_cons_of_mem _ h)

end Words

section Lossy

def replacementChar : Char := Char.ofNat 0xFFFD

/-- The bits that a first byte carries, and the ranges of the bytes that must follow it. -/
def utf8Lead (b : UInt8) : Option (Nat × List (UInt8 × UInt8)) :=
  if b < 0xC2 then none
  else if b < 0xE0 then some (b.toNat - 0xC0, [(0x80, 0xBF)])
  else if b = 0xE0 then some (0, [(0xA0, 0xBF), (0x80, 0xBF)])
  else if b = 0xED then some (0xD, [(0x80, 0x9F), (0x80, 0xBF)])
  else if b < 0xF0 then some (b.toNat - 0xE0, [(0x80, 0xBF), (0x80, 0xBF)])
  else if b = 0xF0 then some (0, [(0x90, 0xBF), (0x80, 0xBF), (0x80, 0xBF)])
  else if b < 0xF4 then some (b.toNat - 0xF0, [(0x80, 0xBF), (0x80, 0xBF), (0x80, 0xBF)])
  else if b = 0xF4 then some (4, [(0x80, 0x8F), (0x80, 0xBF), (0x80, 0xBF)])
  else none

/-- The characters that a byte completes, and the character that it leaves open. -/
def lossyStart (b : UInt8) : List Char × Option (Nat × List (UInt8 × UInt8)) :=
  if b < 0x80 then ([Char.ofNat b.toNat], none)
  else
    match utf8Lead b with
    | none => ([replacementChar], none)
    | some pending => ([], some pending)

def lossyStep (pending : Option (Nat × List (UInt8 × UInt8))) (b : UInt8) :
    List Char × Option (Nat × List (UInt8 × UInt8)) :=
  match pending with
  | some (bits, (lo, hi) :: ranges) =>
      if lo ≤ b ∧ b ≤ hi then
        let bits := bits * 64 + (b.toNat - 0x80)
        if ranges = [] then ([Char.ofNat bits], none) else ([], some (bits, ranges))
      else
        -- the open character ends here, and this byte starts over
        (replacementChar :: (lossyStart b).1, (lossyStart b).2)
  | _ => lossyStart b

def lossyFrom (pending : Option (Nat × List (UInt8 × UInt8))) : Bytes → List Char
  | [] => if pending.isSome then [replacementChar] else []
  | b :: bs =>
      let (chars, pending) := lossyStep pending b
      chars ++ lossyFrom pending bs

/-- `String::from_utf8_lossy`. -/
def fromUtf8Lossy (bs : Bytes) : String :=
  String.ofList (lossyFrom none bs)

example : fromUtf8Lossy [0x61, 0xE2, 0x82, 0x62, 0xE2, 0x82, 0xAC, 0xC0] = "a\uFFFDb€\uFFFD" := by
  decide

end Lossy

end Lib
end Secretbae
