import Secretbae.Lib.Except
import Secretbae.Lib.Numeral
import Secretbae.Lib.Text

/-!
# Lifetimes of tokens

`TtlSeconds::from_str` reads a number of seconds, or counts with units one after
another.  `fromStr_exact` says that it computes the sum of the counts times
their units wherever that fits into 64 bits, fails wherever it does not, and
accepts nothing else.
-/

namespace Secretbae
namespace Cli

open Lib

/-- The seconds of a unit. -/
def unitSecs : Char → Option Nat
  | 's' | 'S' => some 1
  | 'm' | 'M' => some 60
  | 'h' | 'H' => some 3600
  | 'd' | 'D' => some 86400
  | 'w' | 'W' => some (7 * 86400)
  | _ => none

/-- `checked_add` and `checked_mul` of `u64`, of the exact result. -/
def checked (n : Nat) : Option Nat :=
  if n < 2 ^ 64 then some n else none

/-- The branch of a character that is not a digit. -/
def addUnit (raw : String) (totalSecs : Nat) (numBuf : List Char) (c : Char) :
    Except String Nat :=
  if numBuf = [] then
    .error ("invalid duration '" ++ raw ++ "': missing number before unit '" ++
      String.singleton c ++ "'")
  else
    match parseUnsigned (2 ^ 64) numBuf with
    | none => .error "number too large to fit in target type"
    | some count =>
        match unitSecs c with
        | none =>
            .error ("unknown time unit '" ++ String.singleton c ++ "' in duration '" ++ raw ++
              "' (expected s, m, h, d, or w)")
        | some secs =>
            match checked (count * secs) with
            | none => .error ("duration '" ++ raw ++ "' overflows u64")
            | some product =>
                match checked (totalSecs + product) with
                | none => .error ("duration '" ++ raw ++ "' overflows u64")
                | some sum => .ok sum

/-- The loop over the characters, and the check for a number that is left over. -/
def scan (raw : String) : Nat → List Char → List Char → Except String Nat
  | totalSecs, numBuf, [] =>
      if numBuf = [] then .ok totalSecs
      else .error ("invalid duration '" ++ raw ++ "': trailing number without unit")
  | totalSecs, numBuf, c :: cs =>
      if c.isDigit then scan raw totalSecs (numBuf ++ [c]) cs
      else do
        let totalSecs ← addUnit raw totalSecs numBuf c
        scan raw totalSecs [] cs

/-- `TtlSeconds::from_str`. -/
def TtlSeconds.fromStr (raw : String) : Except String Nat :=
  let raw := trim raw.toList
  if raw = [] then .error "TTL duration cannot be empty"
  else
    match parseUnsigned (2 ^ 64) raw with
    | some secs => .ok secs
    | none => scan (String.ofList raw) 0 [] raw

example : TtlSeconds.fromStr " 1h30M " = .ok 5400 := by
  decide +kernel

/-- A unit of time. -/
inductive TimeUnit where
  | second
  | minute
  | hour
  | day
  | week
deriving DecidableEq

namespace TimeUnit

def seconds : TimeUnit → Nat
  | second => 1
  | minute => 60
  | hour => 60 * 60
  | day => 24 * (60 * 60)
  | week => 7 * (24 * (60 * 60))

/-- Its letter, in either case. -/
def letter (u : TimeUnit) (upper : Bool) : Char :=
  match u with
  | second => if upper then 'S' else 's'
  | minute => if upper then 'M' else 'm'
  | hour => if upper then 'H' else 'h'
  | day => if upper then 'D' else 'd'
  | week => if upper then 'W' else 'w'

theorem seconds_pos
    (u : TimeUnit) :
    0 < u.seconds := by
  cases u <;> decide

theorem unitSecs_letter
    (u : TimeUnit) (upper : Bool) :
    unitSecs (u.letter upper) = some u.seconds := by
  cases u <;> cases upper <;> rfl

theorem letter_char
    (u : TimeUnit) (upper : Bool) :
    (u.letter upper).isDigit = false ∧ u.letter upper ≠ '+' ∧
      isWhiteSpace (u.letter upper) = false := by
  cases u <;> cases upper <;> decide

/-- Only the letters are units. -/
theorem exists_letter
    {c : Char} {secs : Nat}
    (h : unitSecs c = some secs) :
    ∃ (u : TimeUnit) (upper : Bool), c = u.letter upper ∧ secs = u.seconds := by
  unfold unitSecs at h
  split at h <;> cases h
  · exact ⟨second, false, rfl, rfl⟩
  · exact ⟨second, true, rfl, rfl⟩
  · exact ⟨minute, false, rfl, rfl⟩
  · exact ⟨minute, true, rfl, rfl⟩
  · exact ⟨hour, false, rfl, rfl⟩
  · exact ⟨hour, true, rfl, rfl⟩
  · exact ⟨day, false, rfl, rfl⟩
  · exact ⟨day, true, rfl, rfl⟩
  · exact ⟨week, false, rfl, rfl⟩
  · exact ⟨week, true, rfl, rfl⟩

end TimeUnit

/-- A decimal count with a unit. -/
structure Part where
  digits : List Char
  nonempty : digits ≠ []
  decimal : ∀ c ∈ digits, c.isDigit = true
  timeUnit : TimeUnit
  upper : Bool

namespace Part

def text (p : Part) : List Char :=
  p.digits ++ [p.timeUnit.letter p.upper]

def count (p : Part) : Nat :=
  Nat.ofDigitChars 10 p.digits 0

def seconds (p : Part) : Nat :=
  p.count * p.timeUnit.seconds

end Part

/-- The concatenation, and the sum that it stands for. -/
def concatenation (parts : List Part) : List Char :=
  parts.flatMap Part.text

def totalSeconds (parts : List Part) : Nat :=
  (parts.map Part.seconds).sum

section Scan

variable {raw : String}

theorem parseUnsigned_digits
    {digits : List Char}
    (hne : digits ≠ [])
    (hdecimal : ∀ c ∈ digits, c.isDigit = true) :
    parseUnsigned (2 ^ 64) digits = checked (Nat.ofDigitChars 10 digits 0) := by
  have hunsigned : unsigned digits = digits := by
    unfold unsigned
    split
    · exact absurd (hdecimal '+' List.mem_cons_self) (by decide)
    · rfl
  unfold parseUnsigned checked
  rw [hunsigned]
  by_cases hlt : Nat.ofDigitChars 10 digits 0 < 2 ^ 64
  · rw [if_pos ⟨hne, List.all_eq_true.mpr hdecimal, hlt⟩, if_pos hlt]
  · rw [if_neg fun h => hlt h.2.2, if_neg hlt]

theorem checked_eq_some_iff
    {n m : Nat} :
    checked n = some m ↔ n = m ∧ m < 2 ^ 64 := by
  unfold checked
  split
  · rename_i h
    simp only [Option.some.injEq]
    exact ⟨fun heq => ⟨heq, heq ▸ h⟩, fun heq => heq.1⟩
  · rename_i h
    exact iff_of_false (by simp) fun heq => h (heq.1 ▸ heq.2)

/-- What a unit adds, and when it may. -/
theorem addUnit_eq_ok_iff
    {total sum : Nat} {numBuf : List Char} {c : Char} :
    addUnit raw total numBuf c = .ok sum ↔
      numBuf ≠ [] ∧ ∃ count secs, parseUnsigned (2 ^ 64) numBuf = some count ∧
        unitSecs c = some secs ∧ sum = total + count * secs ∧ sum < 2 ^ 64 := by
  unfold addUnit
  constructor
  · intro h
    split at h
    · cases h
    rename_i hne
    split at h
    · cases h
    rename_i count hcount
    split at h
    · cases h
    rename_i secs hsecs
    split at h
    · cases h
    rename_i product hproduct
    split at h
    · cases h
    rename_i sum' hsum
    cases h
    obtain ⟨rfl, -⟩ := checked_eq_some_iff.mp hproduct
    obtain ⟨rfl, hlt⟩ := checked_eq_some_iff.mp hsum
    exact ⟨hne, count, secs, hcount, hsecs, rfl, hlt⟩
  · rintro ⟨hne, count, secs, hcount, hsecs, rfl, hlt⟩
    have hproduct : checked (count * secs) = some (count * secs) :=
      checked_eq_some_iff.mpr ⟨rfl, by omega⟩
    have hsum : checked (total + count * secs) = some (total + count * secs) :=
      checked_eq_some_iff.mpr ⟨rfl, hlt⟩
    simp only [if_neg hne, hcount, hsecs, hproduct, hsum]

/-- Adding a count with its unit succeeds exactly where the sum fits. -/
theorem addUnit_part
    (raw : String) (p : Part) (total : Nat) :
    (total + p.seconds < 2 ^ 64 →
        addUnit raw total p.digits (p.timeUnit.letter p.upper) = .ok (total + p.seconds)) ∧
      (2 ^ 64 ≤ total + p.seconds →
        ∃ e, addUnit raw total p.digits (p.timeUnit.letter p.upper) = .error e) := by
  have hparse := parseUnsigned_digits p.nonempty p.decimal
  constructor
  · intro hlt
    have hle : p.count ≤ p.seconds := Nat.le_mul_of_pos_right _ p.timeUnit.seconds_pos
    have hcount : checked p.count = some p.count :=
      checked_eq_some_iff.mpr ⟨rfl, by omega⟩
    exact addUnit_eq_ok_iff.mpr ⟨p.nonempty, p.count, p.timeUnit.seconds, hparse.trans hcount,
      TimeUnit.unitSecs_letter _ _, rfl, hlt⟩
  · intro hoverflow
    cases h : addUnit raw total p.digits (p.timeUnit.letter p.upper) with
    | error e =>
        exact ⟨e, rfl⟩
    | ok sum =>
        obtain ⟨-, count, secs, hcount, hsecs, rfl, hlt⟩ := addUnit_eq_ok_iff.mp h
        obtain ⟨rfl, -⟩ := checked_eq_some_iff.mp (hparse.symm.trans hcount)
        cases hsecs.symm.trans (TimeUnit.unitSecs_letter p.timeUnit p.upper)
        exact absurd hlt (not_lt.mpr hoverflow)

/-- Digits are gathered. -/
theorem scan_digits
    {digits : List Char}
    (hdecimal : ∀ c ∈ digits, c.isDigit = true) (total : Nat) (numBuf cs : List Char) :
    scan raw total numBuf (digits ++ cs) = scan raw total (numBuf ++ digits) cs := by
  induction digits generalizing numBuf with
  | nil =>
      rw [List.nil_append, List.append_nil]
  | cons d digits ih =>
      rw [List.cons_append, scan, if_pos (hdecimal d List.mem_cons_self),
        ih (fun c hc => hdecimal c (List.mem_cons_of_mem _ hc)), List.append_assoc]
      rfl

theorem scan_part
    (p : Part) (total : Nat) (cs : List Char) :
    scan raw total [] (p.text ++ cs) =
      addUnit raw total p.digits (p.timeUnit.letter p.upper) >>= fun total =>
        scan raw total [] cs := by
  have hunit : ¬ (p.timeUnit.letter p.upper).isDigit = true := by
    rw [(TimeUnit.letter_char _ _).1]
    decide
  rw [Part.text, List.append_assoc, scan_digits p.decimal, List.nil_append]
  change scan raw total p.digits (p.timeUnit.letter p.upper :: cs) = _
  rw [scan, if_neg hunit]

/-- The loop computes the sum wherever it fits, and fails wherever it does not. -/
theorem scan_concatenation
    (raw : String) (parts : List Part) (total : Nat) :
    (total + totalSeconds parts < 2 ^ 64 →
        scan raw total [] (concatenation parts) = .ok (total + totalSeconds parts)) ∧
      (2 ^ 64 ≤ total + totalSeconds parts → total < 2 ^ 64 →
        ∃ e, scan raw total [] (concatenation parts) = .error e) := by
  induction parts generalizing total with
  | nil =>
      refine ⟨fun _ => rfl, fun hle hlt => ?_⟩
      exact absurd hlt (not_lt.mpr hle)
  | cons p parts ih =>
      have hsum : totalSeconds (p :: parts) = p.seconds + totalSeconds parts := rfl
      have htext : concatenation (p :: parts) = p.text ++ concatenation parts := rfl
      rw [hsum, htext, scan_part, ← Nat.add_assoc]
      obtain ⟨hok, herror⟩ := addUnit_part raw p total
      rcases Nat.lt_or_ge (total + p.seconds) (2 ^ 64) with hlt | hge
      · rw [hok hlt]
        exact ⟨(ih _).1, fun hle _ => (ih _).2 hle hlt⟩
      · obtain ⟨e, he⟩ := herror hge
        rw [he]
        exact ⟨fun hlt => by omega, fun _ _ => ⟨e, rfl⟩⟩

/-- What the loop accepts is a concatenation of parts, the first of which has begun already. -/
theorem exists_parts_of_scan
    {total n : Nat} {numBuf cs : List Char}
    (hbuf : ∀ c ∈ numBuf, c.isDigit = true)
    (h : scan raw total numBuf cs = .ok n) :
    ∃ parts, numBuf ++ cs = concatenation parts ∧ n = total + totalSeconds parts := by
  induction cs generalizing total numBuf with
  | nil =>
      rw [scan] at h
      split at h
      · rename_i hnil
        cases h
        exact ⟨[], by rw [hnil]; rfl, rfl⟩
      · cases h
  | cons c cs ih =>
      rw [scan] at h
      split at h
      · rename_i hdigit
        obtain ⟨parts, htext, hn⟩ := ih (by
          intro d hd
          rcases List.mem_append.mp hd with hd | hd
          · exact hbuf d hd
          · rw [List.mem_singleton.mp hd]
            exact hdigit) h
        exact ⟨parts, by rw [← htext, List.append_assoc]; rfl, hn⟩
      · obtain ⟨sum, hsum, h⟩ := bind_eq_ok.mp h
        obtain ⟨hne, count, secs, hcount, hsecs, rfl, -⟩ := addUnit_eq_ok_iff.mp hsum
        obtain ⟨u, upper, rfl, rfl⟩ := TimeUnit.exists_letter hsecs
        obtain ⟨parts, htext, hn⟩ := ih (by simp) h
        rw [parseUnsigned_digits hne hbuf] at hcount
        obtain ⟨rfl, -⟩ := checked_eq_some_iff.mp hcount
        refine ⟨⟨numBuf, hne, hbuf, u, upper⟩ :: parts, ?_, ?_⟩
        · rw [List.nil_append] at htext
          rw [htext]
          simp [concatenation, Part.text]
        · rw [hn, Nat.add_assoc]
          rfl

end Scan

section Text

theorem isWhiteSpace_digit
    {c : Char}
    (h : c.isDigit = true) :
    isWhiteSpace c = false := by
  have hrange := isDigit_range h
  simp only [isWhiteSpace, Bool.or_eq_false_iff, Bool.and_eq_false_iff, decide_eq_false_iff_not,
    beq_eq_false_iff_ne]
  omega

/-- A concatenation begins with a digit and ends with a letter. -/
theorem concatenation_ends
    {parts : List Part}
    (h : parts ≠ []) :
    (∃ c rest, concatenation parts = c :: rest ∧ c.isDigit = true) ∧
      ∃ front u upper, concatenation parts = front ++ [TimeUnit.letter u upper] := by
  constructor
  · obtain ⟨p, parts, rfl⟩ := List.exists_cons_of_ne_nil h
    obtain ⟨c, digits, hdigits⟩ := List.exists_cons_of_ne_nil p.nonempty
    refine ⟨c, digits ++ [p.timeUnit.letter p.upper] ++ concatenation parts, ?_, ?_⟩
    · rw [concatenation, List.flatMap_cons, Part.text, hdigits]
      rfl
    · exact p.decimal c (hdigits ▸ List.mem_cons_self)
  · have hlast := List.dropLast_append_getLast h
    refine ⟨concatenation parts.dropLast ++ (parts.getLast h).digits, (parts.getLast h).timeUnit,
      (parts.getLast h).upper, ?_⟩
    nth_rewrite 1 [← hlast]
    rw [concatenation, List.flatMap_append, List.flatMap_singleton, Part.text, ← List.append_assoc]
    rfl

theorem trim_concatenation
    {parts : List Part}
    (h : parts ≠ []) :
    trim (concatenation parts) = concatenation parts := by
  obtain ⟨⟨c, rest, hfirst, hdigit⟩, front, u, upper, hlast⟩ := concatenation_ends h
  refine trim_eq_self (by simp [hfirst]) ?_ ?_
  · intro d hd
    rw [hfirst] at hd
    cases hd
    exact isWhiteSpace_digit hdigit
  · intro d hd
    rw [hlast, List.getLast?_concat] at hd
    cases hd
    exact (TimeUnit.letter_char u upper).2.2

/-- A concatenation is no plain number. -/
theorem parseUnsigned_concatenation
    {parts : List Part}
    (h : parts ≠ []) :
    parseUnsigned (2 ^ 64) (concatenation parts) = none := by
  obtain ⟨-, front, u, upper, hlast⟩ := concatenation_ends h
  cases hparse : parseUnsigned (2 ^ 64) (concatenation parts) with
  | none => rfl
  | some n =>
      have hmem : u.letter upper ∈ concatenation parts := by simp [hlast]
      obtain ⟨hdigit, hplus, -⟩ := TimeUnit.letter_char u upper
      rcases (parseUnsigned_eq_some_iff.mp hparse).2.mem hmem with heq | heq
      · exact absurd heq hplus
      · rw [hdigit] at heq
        cases heq

end Text

/--
Counts with units are read as their exact sum wherever that is below `2 ^ 64`,
and refused wherever it is not; and beside numbers of seconds nothing else is
read.
-/
theorem fromStr_exact :
    (∀ parts : List Part, parts ≠ [] →
        (totalSeconds parts < 2 ^ 64 →
          TtlSeconds.fromStr (String.ofList (concatenation parts)) = .ok (totalSeconds parts)) ∧
        (2 ^ 64 ≤ totalSeconds parts →
          ∃ e, TtlSeconds.fromStr (String.ofList (concatenation parts)) = .error e)) ∧
      ∀ raw n, TtlSeconds.fromStr raw = .ok n →
        parseUnsigned (2 ^ 64) (trim raw.toList) = none →
        ∃ parts, parts ≠ [] ∧ trim raw.toList = concatenation parts ∧ n = totalSeconds parts := by
  constructor
  · intro parts hne
    have hscan : TtlSeconds.fromStr (String.ofList (concatenation parts)) =
        scan (String.ofList (concatenation parts)) 0 [] (concatenation parts) := by
      have hnil : concatenation parts ≠ [] := by
        obtain ⟨⟨c, rest, hfirst, -⟩, -⟩ := concatenation_ends hne
        simp [hfirst]
      simp only [TtlSeconds.fromStr, String.toList_ofList, trim_concatenation hne, if_neg hnil,
        parseUnsigned_concatenation hne]
    obtain ⟨hok, herror⟩ := scan_concatenation (String.ofList (concatenation parts)) parts 0
    rw [Nat.zero_add] at hok herror
    rw [hscan]
    exact ⟨hok, fun hle => herror hle (by decide)⟩
  · intro raw n h hplain
    unfold TtlSeconds.fromStr at h
    dsimp only at h
    split at h
    · cases h
    rename_i hne
    rw [hplain] at h
    obtain ⟨parts, htext, hn⟩ := exists_parts_of_scan (by simp) h
    refine ⟨parts, ?_, htext, by rw [hn, Nat.zero_add]⟩
    rintro rfl
    exact hne htext

section Witnesses

/-- `1h30M`. -/
def hourAndAHalf : List Part :=
  [⟨['1'], by decide, List.all_eq_true.mp (by decide), .hour, false⟩,
    ⟨['3', '0'], by decide, List.all_eq_true.mp (by decide), .minute, true⟩]

/-- More weeks than there are seconds to count them in. -/
def tooManyWeeks : List Part :=
  [⟨List.replicate 14 '9', by decide, List.all_eq_true.mp (by decide), .week, false⟩]

theorem fromStr_samples :
    TtlSeconds.fromStr (String.ofList (concatenation hourAndAHalf)) = .ok 5400 ∧
      ∃ e, TtlSeconds.fromStr (String.ofList (concatenation tooManyWeeks)) = .error e :=
  ⟨(fromStr_exact.1 hourAndAHalf (by decide)).1 (by decide),
    (fromStr_exact.1 tooManyWeeks (by decide)).2 (by decide)⟩

end Witnesses

end Cli
end Secretbae
