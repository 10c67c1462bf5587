import Secretbae.Service.ResolveRequest

/-!
# Responses on the resolve socket

A success is one block for each value, a header line and the raw bytes behind
it; a failure is one line.  `clientLoop` is the documented client: it reads a
line, and then as many bytes as the line says.

Values are not escaped, so a value may look like a header.  The client still
recovers every list of values (`respond_unambiguous`), since it never looks for
a header inside a value.
-/

namespace Secretbae
namespace Service

open Lib Proto
open Daemon (deniedMessage)

/-- Why a client has no values. -/
inductive ClientError where
  | failed (message : String)
  | malformed
deriving DecidableEq

/-- The client reads a line and strips its newline. -/
def clientLine (bs : Bytes) : Option (String × Bytes) :=
  let (line, rest) := takeLine bs.length bs
  if line.getLast? = some newline then (ofUtf8 line.dropLast).map fun text => (text, rest)
  else none

/-- `int` of a text of digits. -/
def decimal (s : List Char) : Option Nat :=
  if s ≠ [] ∧ s.all Char.isDigit = true then some (Nat.ofDigitChars 10 s 0) else none

/-- `VALUE <version> <length>`. -/
def valueHeader (line : List Char) : Option (Nat × Nat) := do
  let fields ← stripPrefix "VALUE ".toList line
  let (version, length) ← splitOnce ' ' fields
  some (← decimal version, ← decimal length)

/-- The documented client: a header and a value for each path it asked for. -/
def clientLoop : Nat → Bytes → Except ClientError (List (Nat × Bytes)) × Bytes
  | 0, bs => (.ok [], bs)
  | count + 1, bs =>
      match clientLine bs with
      | none => (.error .malformed, bs)
      | some (line, rest) =>
          match stripPrefix "ERROR ".toList line.toList with
          | some message => (.error (.failed (String.ofList message)), rest)
          | none =>
              match valueHeader line.toList with
              | none => (.error .malformed, rest)
              | some (version, length) =>
                  if rest.length < length then (.error .malformed, rest)
                  else
                    match clientLoop count (rest.drop length) with
                    | (.error e, left) => (.error e, left)
                    | (.ok values, left) => (.ok ((version, rest.take length) :: values), left)

section Client

theorem decimal_toDigits
    (n : Nat) :
    decimal (Nat.toDigits 10 n) = some n := by
  have hall : (Nat.toDigits 10 n).all Char.isDigit = true :=
    List.all_eq_true.mpr fun c hc => isDigit_toDigits hc
  rw [decimal, if_pos ⟨Nat.toDigits_ne_nil, hall⟩, Nat.ofDigitChars_ten_toDigits]

/-- A line is what stands before the first newline. -/
theorem clientLine_lineBytes
    {line : String}
    (hline : newline ∉ utf8 line) (rest : Bytes) :
    clientLine (lineBytes line ++ rest) = some (line, rest) := by
  have htake : takeLine (lineBytes line ++ rest).length (lineBytes line ++ rest) =
      (utf8 line ++ [newline], rest) := by
    refine takeLine_eq_line_iff.mpr ⟨by simp [lineBytes], hline, ?_⟩
    simp [lineBytes]
  rw [clientLine, htake]
  simp [ofUtf8_eq_some_iff.mpr rfl]

/-- The header line of a value. -/
def headerOf (item : ResolvedSecret) : String :=
  "VALUE " ++ toString item.version.toNat ++ " " ++ toString item.plaintext.length

theorem valueFrame_eq
    (item : ResolvedSecret) :
    valueFrame item = lineBytes (headerOf item) ++ item.plaintext := by
  have hnewline : utf8 "\n" = [newline] := by decide
  rw [valueFrame, utf8_append, hnewline]
  rfl

theorem headerOf_toList
    (item : ResolvedSecret) :
    (headerOf item).toList = "VALUE ".toList ++
      (Nat.toDigits 10 item.version.toNat ++ ' ' :: Nat.toDigits 10 item.plaintext.length) := by
  simp [headerOf]

theorem newline_notMem_headerOf
    (item : ResolvedSecret) :
    newline ∉ utf8 (headerOf item) := by
  refine newline_notMem_utf8 ?_
  intro hmem
  rw [headerOf_toList, List.mem_append, List.mem_append, List.mem_cons] at hmem
  rcases hmem with hmem | hmem | hmem | hmem
  · revert hmem
    decide
  · exact absurd (isDigit_toDigits hmem) (by decide)
  · cases hmem
  · exact absurd (isDigit_toDigits hmem) (by decide)

theorem valueHeader_headerOf
    (item : ResolvedSecret) :
    valueHeader (headerOf item).toList = some (item.version.toNat, item.plaintext.length) := by
  have hblank : ' ' ∉ Nat.toDigits 10 item.version.toNat := fun hmem =>
    absurd (isDigit_toDigits hmem) (by decide)
  rw [valueHeader, stripPrefix_eq_some_iff.mpr (headerOf_toList item)]
  simp [splitOnce_eq_some_iff.mpr ⟨rfl, hblank⟩, decimal_toDigits]

/-- A header is not taken for an error. -/
theorem stripPrefix_error_headerOf
    (item : ResolvedSecret) :
    stripPrefix "ERROR ".toList (headerOf item).toList = none := by
  rw [headerOf_toList]
  rfl

/-- One block is read, and the client goes on behind it. -/
theorem clientLoop_valueFrame
    (item : ResolvedSecret) (count : Nat) (rest : Bytes)
    {values : List (Nat × Bytes)} {left : Bytes}
    (h : clientLoop count rest = (.ok values, left)) :
    clientLoop (count + 1) (valueFrame item ++ rest) =
      (.ok ((item.version.toNat, item.plaintext) :: values), left) := by
  rw [clientLoop, valueFrame_eq, List.append_assoc,
    clientLine_lineBytes (newline_notMem_headerOf item)]
  dsimp only
  rw [stripPrefix_error_headerOf]
  dsimp only
  rw [valueHeader_headerOf]
  dsimp only
  rw [if_neg (by simp), List.drop_left, List.take_left, h]

/-- The blocks of a response are read one after another. -/
theorem clientLoop_respond
    (resolved : List ResolvedSecret) :
    clientLoop resolved.length (respond (.ok resolved)) =
      (.ok (resolved.map fun item => (item.version.toNat, item.plaintext)), []) := by
  induction resolved with
  | nil =>
      rfl
  | cons item resolved ih =>
      exact clientLoop_valueFrame item resolved.length _ ih

/-- A success starts with the header of its first value. -/
theorem not_error_prefix
    {resolved : List ResolvedSecret}
    (h : resolved ≠ []) :
    ¬ utf8 "ERROR " <+: respond (.ok resolved) := by
  cases resolved with
  | nil => exact absurd rfl h
  | cons item resolved =>
      rintro ⟨rest, hrest⟩
      have hframe : respond (.ok (item :: resolved)) =
          utf8 "VALUE " ++ (utf8 (toString item.version.toNat ++ (" " ++
            (toString item.plaintext.length ++ "\n"))) ++ item.plaintext ++
            respond (.ok resolved)) := by
        simp [respond, valueFrame, utf8_append]
      rw [hframe] at hrest
      have herror : (utf8 "ERROR ").head? = some 69 := by decide
      have hvalue : (utf8 "VALUE ").head? = some 86 := by decide
      have hhead := congrArg List.head? hrest
      rw [List.head?_append, herror, List.head?_append, hvalue, Option.some_or,
        Option.some_or] at hhead
      exact absurd hhead (by decide)

/-- An error is one line, when its message is. -/
theorem errorFrame_eq
    (message : String) :
    errorFrame message = lineBytes ("ERROR " ++ message) := by
  have hnewline : utf8 "\n" = [newline] := by decide
  rw [errorFrame, utf8_append, hnewline]
  rfl

theorem newline_notMem_message
    (failure : ResolveFailure) :
    '\n' ∉ failure.message.toList := by
  unfold ResolveFailure.message
  split
  · decide
  · split <;> decide
  · decide
  · decide

/-- A client that waits for a value is told of the failure. -/
theorem clientLoop_error
    {message : String}
    (h : '\n' ∉ message.toList) (count : Nat) :
    clientLoop (count + 1) (lineBytes ("ERROR " ++ message)) = (.error (.failed message), []) := by
  have hline : newline ∉ utf8 ("ERROR " ++ message) := by
    refine newline_notMem_utf8 ?_
    intro hmem
    rw [String.toList_append, List.mem_append] at hmem
    rcases hmem with hmem | hmem
    · revert hmem
      decide
    · exact h hmem
  have hread := clientLine_lineBytes hline []
  rw [List.append_nil] at hread
  have hstrip : stripPrefix "ERROR ".toList ("ERROR " ++ message).toList = some message.toList :=
    stripPrefix_eq_some_iff.mpr (String.toList_append)
  rw [clientLoop, hread]
  dsimp only
  rw [hstrip]
  simp

/-- The documented client recovers every list of values and reads the whole response; a
success does not look like a failure, and every failure is one `ERROR` line. -/
theorem respond_unambiguous :
    (∀ resolved, clientLoop resolved.length (respond (.ok resolved)) =
      (.ok (resolved.map fun item => (item.version.toNat, item.plaintext)), [])) ∧
    (∀ resolved, resolved ≠ [] → ¬ utf8 "ERROR " <+: respond (.ok resolved)) ∧
    (∀ failure : ResolveFailure, '\n' ∉ failure.message.toList ∧
      respond (.error failure) = lineBytes ("ERROR " ++ failure.message) ∧
      ∀ count, clientLoop (count + 1) (respond (.error failure)) =
        (.error (.failed failure.message), [])) ∧
    ∀ (P : Core.Primitives) (F : Foreign) peer env (s : State P) violation,
      ((handle P F peer env (.violation violation)).alone s).1 =
        .ok (lineBytes ("ERROR " ++ deniedMessage)) := by
  refine ⟨clientLoop_respond, fun _ h => not_error_prefix h, ?_, ?_⟩
  · intro failure
    have hframe : respond (.error failure) = lineBytes ("ERROR " ++ failure.message) :=
      errorFrame_eq failure.message
    refine ⟨newline_notMem_message failure, hframe, ?_⟩
    intro count
    rw [hframe]
    exact clientLoop_error (newline_notMem_message failure) count
  · intro P F peer env s violation
    rw [handle, Script.alone_bind, Script.alone_attempt, ← errorFrame_eq]
    rfl

end Client

end Service
end Secretbae
