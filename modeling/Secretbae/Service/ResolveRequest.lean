import Secretbae.Service.Resolve
import Secretbae.Proto.Text
import Secretbae.Lib.Lines

/-!
# Requests on the resolve socket

`read_request` takes a request apart line by line, from a stream that delivers
its bytes in fragments of any size.  Time limits are left out: a stream that
stalls ends the connection.

`readRequest_exact` says what the parser accepts: the lines of a request, with
some freedom in how its numbers are spelled, and nothing else.
-/

namespace Secretbae
namespace Service

open Lib Proto
open Daemon (Violation)

def resolveSocketVerb : String := "RESOLVE"
def resolveSocketVersion : Nat := 1
def resolveSocketMaxLineBytes : Nat := 4096
def resolveSocketMaxPaths : Nat := 256

/-- `read_capped_line`: a line without its newline, or nothing at the end of the stream. -/
def readCappedLine (stream : List Bytes) : Except Violation (Option String) × List Bytes :=
  let (buf, rest) := readUntil resolveSocketMaxLineBytes stream
  if buf = [] then (.ok none, rest)
  else if buf.getLast? ≠ some newline then (.error .lineTooLong, rest)
  else
    match ofUtf8 buf.dropLast with
    | some line => (.ok (some line), rest)
    | none => (.error .lineTooLong, rest)

/-- The first line of a request: its token and the number of its targets. -/
def parseHeader (first : String) : Except Violation (String × Nat) :=
  match splitN 4 ' ' first.toList with
  | [verb, version, token, count] =>
      if token = [] then .error .malformedRequestLine
      else if String.ofList verb ≠ resolveSocketVerb then .error .unknownVerb
      else
        match parseUnsigned (2 ^ 32) version with
        | none => .error .malformedProtocolVersion
        | some version =>
            if version ≠ resolveSocketVersion then .error .unsupportedProtocolVersion
            else
              match parseUnsigned (2 ^ 64) count with
              | none => .error .malformedPathCount
              | some count =>
                  if count > resolveSocketMaxPaths then .error .tooManyPaths
                  else .ok (String.ofList token, count)
  | _ => .error .malformedRequestLine

/-- The part of a line before the last `@`, and the part behind it. -/
def splitVersion (line : List Char) : List Char × Option (List Char) :=
  match rsplitOnce '@' line with
  | none => (line, none)
  | some (path, version) => (path, some version)

/-- A line that names a target. -/
def parseTarget (line : String) : Except Violation ResolveTarget :=
  match SecretPath.new (String.ofList (splitVersion line.toList).1) with
  | .error _ => .error .malformedPath
  | .ok path =>
      match (splitVersion line.toList).2 with
      | none => .ok ⟨path, none⟩
      | some raw =>
          match Version.parse raw with
          | .error _ => .error .malformedVersion
          | .ok version => .ok ⟨path, some version⟩

/-- The loop over the lines of the targets. -/
def readTargets : Nat → List Bytes → Except Violation (List ResolveTarget) × List Bytes
  | 0, stream => (.ok [], stream)
  | count + 1, stream =>
      match readCappedLine stream with
      | (.error violation, rest) => (.error violation, rest)
      | (.ok none, rest) => (.error .requestTruncated, rest)
      | (.ok (some line), rest) =>
          match parseTarget line with
          | .error violation => (.error violation, rest)
          | .ok target =>
              match readTargets count rest with
              | (.error violation, rest) => (.error violation, rest)
              | (.ok targets, rest) => (.ok (target :: targets), rest)

/-- `read_request`: what was asked for, and what is left of the stream. -/
def readRequest (stream : List Bytes) : ParsedRequest × List Bytes :=
  match readCappedLine stream with
  | (.error violation, rest) => (.violation violation, rest)
  | (.ok none, rest) => (.disconnected, rest)
  | (.ok (some first), rest) =>
      match parseHeader first with
      | .error violation => (.violation violation, rest)
      | .ok (token, count) =>
          match readTargets count rest with
          | (.error violation, rest) => (.violation violation, rest)
          | (.ok targets, rest) => (.ready token targets, rest)

section Lines

/-- A line as it is sent. -/
def lineBytes (line : String) : Bytes :=
  utf8 line ++ [newline]

/-- What a line leaves of a stream does not depend on the fragments. -/
theorem readCappedLine_congr
    {stream stream' : List Bytes}
    (h : stream.flatten = stream'.flatten) :
    (readCappedLine stream).1 = (readCappedLine stream').1 ∧
      (readCappedLine stream).2.flatten = (readCappedLine stream').2.flatten := by
  obtain ⟨hline, hrest⟩ := readUntil_eq resolveSocketMaxLineBytes stream
  obtain ⟨hline', hrest'⟩ := readUntil_eq resolveSocketMaxLineBytes stream'
  have hbuf : (readUntil resolveSocketMaxLineBytes stream).1 =
      (readUntil resolveSocketMaxLineBytes stream').1 := by
    rw [hline, hline', h]
  have hleft : (readUntil resolveSocketMaxLineBytes stream).2.flatten =
      (readUntil resolveSocketMaxLineBytes stream').2.flatten := by
    rw [hrest, hrest', h]
  unfold readCappedLine
  dsimp only
  rw [hbuf]
  split
  · exact ⟨rfl, hleft⟩
  split
  · exact ⟨rfl, hleft⟩
  split
  · exact ⟨rfl, hleft⟩
  · exact ⟨rfl, hleft⟩

/-- What is left of a stream after a line, however that turned out. -/
theorem readCappedLine_rest
    (stream : List Bytes) :
    (readCappedLine stream).2 = (readUntil resolveSocketMaxLineBytes stream).2 := by
  unfold readCappedLine
  dsimp only
  split
  · rfl
  split
  · rfl
  split <;> rfl

theorem readCappedLine_consumed
    (stream : List Bytes) :
    ∃ consumed, stream.flatten = consumed ++ (readCappedLine stream).2.flatten ∧
      consumed.length ≤ resolveSocketMaxLineBytes := by
  obtain ⟨happend, hlength⟩ := takeLine_append resolveSocketMaxLineBytes stream.flatten
  refine ⟨_, ?_, hlength⟩
  rw [readCappedLine_rest, (readUntil_eq resolveSocketMaxLineBytes stream).2, happend]

/-- A line is read exactly when the stream starts with it. -/
theorem readCappedLine_eq_some_iff
    {stream : List Bytes} {line : String} :
    (readCappedLine stream).1 = .ok (some line) ↔
      stream.flatten = lineBytes line ++ (readCappedLine stream).2.flatten ∧
        newline ∉ utf8 line ∧ (lineBytes line).length ≤ resolveSocketMaxLineBytes := by
  obtain ⟨hbuf, hrest⟩ := readUntil_eq resolveSocketMaxLineBytes stream
  rw [readCappedLine_rest, hrest]
  have hline : takeLine resolveSocketMaxLineBytes stream.flatten =
      (utf8 line ++ [newline], (takeLine resolveSocketMaxLineBytes stream.flatten).2) ↔
      stream.flatten = lineBytes line ++ (takeLine resolveSocketMaxLineBytes stream.flatten).2 ∧
        newline ∉ utf8 line ∧ (lineBytes line).length ≤ resolveSocketMaxLineBytes := by
    rw [takeLine_eq_line_iff]
    simp [lineBytes]
  rw [← hline]
  unfold readCappedLine
  dsimp only
  rw [hbuf]
  generalize takeLine resolveSocketMaxLineBytes stream.flatten = taken
  obtain ⟨buf, left⟩ := taken
  rcases List.eq_nil_or_concat buf with rfl | ⟨init, b, rfl⟩
  · simp
  · have hne : init ++ [b] ≠ [] := by simp
    dsimp only
    rw [List.concat_eq_append, if_neg hne, List.getLast?_concat, List.dropLast_concat]
    by_cases hb : b = newline
    · subst hb
      rw [if_neg (by simp)]
      cases htext : ofUtf8 init with
      | none =>
          have hnot : init ≠ utf8 line := by
            intro heq
            cases htext.symm.trans (ofUtf8_eq_some_iff.mpr heq)
          simp [hnot]
      | some text =>
          obtain rfl := ofUtf8_eq_some_iff.mp htext
          simp only [Except.ok.injEq, Option.some.injEq, Prod.mk.injEq, and_true,
            List.append_cancel_right_eq]
          exact ⟨congrArg utf8, utf8_inj⟩
    · rw [if_pos (by simpa using hb)]
      simp [hb]

/-- A line at the start of a stream is read, however it is cut up. -/
theorem readCappedLine_of_line
    {stream : List Bytes} {line : String} {rest : Bytes}
    (h : stream.flatten = lineBytes line ++ rest)
    (hline : newline ∉ utf8 line)
    (hlength : (lineBytes line).length ≤ resolveSocketMaxLineBytes) :
    ∃ left, readCappedLine stream = (.ok (some line), left) ∧ left.flatten = rest := by
  have htake : takeLine resolveSocketMaxLineBytes stream.flatten =
      (utf8 line ++ [newline], rest) := by
    refine takeLine_eq_line_iff.mpr ⟨?_, hline, ?_⟩
    · rw [h, lineBytes]
      simp
    · simpa [lineBytes] using hlength
  have hleft : (readCappedLine stream).2.flatten = rest := by
    rw [readCappedLine_rest, (readUntil_eq resolveSocketMaxLineBytes stream).2, htake]
  refine ⟨(readCappedLine stream).2, Prod.ext ?_ rfl, hleft⟩
  refine readCappedLine_eq_some_iff.mpr ⟨?_, hline, hlength⟩
  rw [hleft, h]

end Lines

section Parsing

/-- The first line of a request, with its two numbers spelled in any way. -/
def HeaderLine (token : String) (count : Nat) (line : String) : Prop :=
  ∃ version numeral, Spells resolveSocketVersion version ∧ Spells count numeral ∧
    line.toList = resolveSocketVerb.toList ++
      ' ' :: (version ++ ' ' :: (token.toList ++ ' ' :: numeral))

/-- The line of a target, with a pinned version spelled in any way. -/
def TargetLine (target : ResolveTarget) (line : String) : Prop :=
  match target.version with
  | none => line = target.path.asStr
  | some version =>
      ∃ numeral, Spells version.toNat numeral ∧
        line.toList = target.path.asStr.toList ++ '@' :: numeral

/-- Four pieces: three without a blank, and the rest. -/
theorem splitN_four_iff
    {s verb version token count : List Char} :
    splitN 4 ' ' s = [verb, version, token, count] ↔
      s = verb ++ ' ' :: (version ++ ' ' :: (token ++ ' ' :: count)) ∧
        ' ' ∉ verb ∧ ' ' ∉ version ∧ ' ' ∉ token := by
  constructor
  · intro h
    obtain ⟨rest, rfl, hverb, h⟩ := splitN_cons.mp h
    obtain ⟨rest, rfl, hversion, h⟩ := splitN_cons.mp h
    obtain ⟨rest, rfl, htoken, h⟩ := splitN_cons.mp h
    cases h
    exact ⟨rfl, hverb, hversion, htoken⟩
  · rintro ⟨rfl, hverb, hversion, htoken⟩
    refine splitN_cons.mpr ⟨_, rfl, hverb, ?_⟩
    refine splitN_cons.mpr ⟨_, rfl, hversion, ?_⟩
    exact splitN_cons.mpr ⟨_, rfl, htoken, rfl⟩

/-- Which first lines are accepted. -/
theorem parseHeader_eq_ok_iff
    {first token : String} {count : Nat} :
    parseHeader first = .ok (token, count) ↔
      token ≠ "" ∧ ' ' ∉ token.toList ∧ count ≤ resolveSocketMaxPaths ∧
        HeaderLine token count first := by
  unfold parseHeader
  constructor
  · intro h
    split at h
    · rename_i verb version token' numeral hsplit
      obtain ⟨hfirst, -, -, hblank⟩ := splitN_four_iff.mp hsplit
      split at h
      · cases h
      rename_i hempty
      split at h
      · cases h
      rename_i hverb
      split at h
      · cases h
      rename_i n hversion
      split at h
      · cases h
      rename_i hone
      split at h
      · cases h
      rename_i m hcount
      split at h
      · cases h
      rename_i hmax
      cases h
      simp only [ne_eq, not_not] at hverb hone
      subst hone
      refine ⟨?_, by rwa [String.toList_ofList], Nat.le_of_not_lt hmax, version, numeral,
        (parseUnsigned_eq_some_iff.mp hversion).2, (parseUnsigned_eq_some_iff.mp hcount).2, ?_⟩
      · intro heq
        exact hempty (by simpa using congrArg String.toList heq)
      · rw [hfirst, ← hverb, String.toList_ofList, String.toList_ofList]
    · cases h
  · rintro ⟨hempty, hblank, hmax, version, numeral, hversion, hcount, hfirst⟩
    have hversionBlank : ' ' ∉ version := by
      intro hmem
      rcases hversion.mem hmem with heq | hdigit
      · cases heq
      · cases hdigit
    have hsplit : splitN 4 ' ' first.toList =
        [resolveSocketVerb.toList, version, token.toList, numeral] :=
      splitN_four_iff.mpr ⟨hfirst, by decide, hversionBlank, hblank⟩
    have hne : token.toList ≠ [] := by
      intro heq
      exact hempty (String.toList_inj.mp heq)
    have hcountLt : count < 2 ^ 64 := by
      unfold resolveSocketMaxPaths at hmax
      omega
    rw [hsplit]
    simp only [if_neg hne, String.ofList_toList, ne_eq, not_true_eq_false, if_false,
      parseUnsigned_eq_some_iff.mpr ⟨(by decide : resolveSocketVersion < 2 ^ 32), hversion⟩,
      parseUnsigned_eq_some_iff.mpr ⟨hcountLt, hcount⟩]
    rw [if_neg (by omega)]

/-- Which lines name a target. -/
theorem parseTarget_eq_ok_iff
    {line : String} {target : ResolveTarget} :
    parseTarget line = .ok target ↔ TargetLine target line := by
  unfold parseTarget splitVersion
  constructor
  · intro h
    split at h
    · cases h
    rename_i path hpath
    have htext := congrArg String.toList (SecretPath.new_eq_ok_iff.mp hpath)
    rw [String.toList_ofList] at htext
    cases hsplit : rsplitOnce '@' line.toList with
    | none =>
        rw [hsplit] at h htext
        cases h
        exact String.toList_inj.mp htext
    | some parts =>
        obtain ⟨before, raw⟩ := parts
        obtain ⟨hline, -⟩ := rsplitOnce_eq_some_iff.mp hsplit
        rw [hsplit] at h htext
        dsimp only at h htext
        split at h
        · cases h
        rename_i version hversion
        cases h
        refine ⟨raw, Version.parse_eq_ok_iff.mp hversion, ?_⟩
        rw [hline, htext]
  · intro h
    obtain ⟨path, version⟩ := target
    have hpath : '@' ∉ path.asStr.toList := path.notMem (by decide) (by decide)
    cases version with
    | none =>
        obtain rfl : line = path.asStr := h
        rw [rsplitOnce_eq_none_iff.mpr hpath]
        simp [SecretPath.new_eq_ok_iff.mpr rfl]
    | some version =>
        obtain ⟨numeral, hspells, hline⟩ := h
        have hat : '@' ∉ numeral := by
          intro hmem
          rcases hspells.mem hmem with heq | hdigit
          · cases heq
          · cases hdigit
        rw [rsplitOnce_eq_some_iff.mpr ⟨hline, hat⟩]
        simp [SecretPath.new_eq_ok_iff.mpr rfl, Version.parse_eq_ok_iff.mpr hspells]

end Parsing

section Streams

/-- A line that can be read. -/
def Readable (line : String) : Prop :=
  newline ∉ utf8 line ∧ (lineBytes line).length ≤ resolveSocketMaxLineBytes

theorem readCappedLine_line
    {stream rest : List Bytes} {line : String}
    (h : readCappedLine stream = (.ok (some line), rest)) :
    stream.flatten = lineBytes line ++ rest.flatten ∧ Readable line := by
  have hread := readCappedLine_eq_some_iff.mp (congrArg Prod.fst h)
  rw [h] at hread
  exact hread

/-- What the loop has read. -/
theorem readTargets_eq_ok
    {count : Nat} {stream rest : List Bytes} {targets : List ResolveTarget}
    (h : readTargets count stream = (.ok targets, rest)) :
    targets.length = count ∧
      ∃ lines, List.Forall₂ TargetLine targets lines ∧
        stream.flatten = lines.flatMap lineBytes ++ rest.flatten ∧
        ∀ line ∈ lines, Readable line := by
  induction count generalizing stream targets with
  | zero =>
      cases h
      exact ⟨rfl, [], .nil, rfl, by simp⟩
  | succ count ih =>
      unfold readTargets at h
      split at h
      · cases h
      · cases h
      rename_i line mid hline
      obtain ⟨hstream, hreadable⟩ := readCappedLine_line hline
      split at h
      · cases h
      rename_i target htarget
      split at h
      · cases h
      rename_i more left hmore
      cases h
      obtain ⟨hlength, lines, hlines, hmid, hall⟩ := ih hmore
      refine ⟨by simp [hlength], line :: lines, .cons (parseTarget_eq_ok_iff.mp htarget) hlines,
        ?_, ?_⟩
      · rw [hstream, hmid, List.flatMap_cons, List.append_assoc]
      · intro l hl
        rcases List.mem_cons.mp hl with rfl | hl
        · exact hreadable
        · exact hall l hl

/-- Lines that name targets are read as these. -/
theorem readTargets_of_lines
    {targets : List ResolveTarget} {lines : List String} {rest : Bytes}
    (hlines : List.Forall₂ TargetLine targets lines)
    (hall : ∀ line ∈ lines, Readable line)
    {stream : List Bytes}
    (hstream : stream.flatten = lines.flatMap lineBytes ++ rest) :
    ∃ left, readTargets targets.length stream = (.ok targets, left) ∧ left.flatten = rest := by
  induction hlines generalizing stream with
  | nil =>
      exact ⟨stream, rfl, by simpa using hstream⟩
  | @cons target line targets lines htarget _ ih =>
      obtain ⟨hnewline, hlength⟩ := hall line (by simp)
      rw [List.flatMap_cons, List.append_assoc] at hstream
      obtain ⟨mid, hline, hmid⟩ := readCappedLine_of_line hstream hnewline hlength
      obtain ⟨left, hmore, hleft⟩ := ih (fun l hl => hall l (by simp [hl])) hmid
      refine ⟨left, ?_, hleft⟩
      rw [List.length_cons, readTargets, hline]
      simp only [parseTarget_eq_ok_iff.mpr htarget, hmore]

theorem readTargets_consumed
    (count : Nat) (stream : List Bytes) :
    ∃ consumed, stream.flatten = consumed ++ (readTargets count stream).2.flatten ∧
      consumed.length ≤ count * resolveSocketMaxLineBytes := by
  induction count generalizing stream with
  | zero =>
      exact ⟨[], rfl, by simp⟩
  | succ count ih =>
      obtain ⟨line, hstream, hlength⟩ := readCappedLine_consumed stream
      have hone : line.length ≤ (count + 1) * resolveSocketMaxLineBytes := by
        rw [Nat.succ_mul]
        omega
      unfold readTargets
      split
      · rename_i hread
        rw [hread] at hstream
        exact ⟨line, hstream, hone⟩
      · rename_i hread
        rw [hread] at hstream
        exact ⟨line, hstream, hone⟩
      rename_i text rest hread
      rw [hread] at hstream
      split
      · exact ⟨line, hstream, hone⟩
      · obtain ⟨more, hrest, hmore⟩ := ih rest
        have hleft : ∀ result : Except Violation (List ResolveTarget) × List Bytes,
            result.2 = (readTargets count rest).2 →
            ∃ consumed, stream.flatten = consumed ++ result.2.flatten ∧
              consumed.length ≤ (count + 1) * resolveSocketMaxLineBytes := by
          intro result hresult
          refine ⟨line ++ more, ?_, ?_⟩
          · rw [hstream, hrest, hresult, List.append_assoc]
          · rw [List.length_append, Nat.succ_mul]
            omega
        split
        · rename_i hmore
          exact hleft _ (by rw [hmore])
        · rename_i hmore
          exact hleft _ (by rw [hmore])

/-- Two readers that agree, up to the fragments of what they leave. -/
theorem exists_of_agree
    {α : Type} {read read' : α × List Bytes}
    (hresult : read.1 = read'.1)
    (hrest : read.2.flatten = read'.2.flatten) :
    ∃ result rest rest', read = (result, rest) ∧ read' = (result, rest') ∧
      rest.flatten = rest'.flatten :=
  ⟨read.1, read.2, read'.2, rfl, Prod.ext hresult.symm rfl, hrest⟩

theorem readTargets_congr
    (count : Nat) {stream stream' : List Bytes}
    (h : stream.flatten = stream'.flatten) :
    (readTargets count stream).1 = (readTargets count stream').1 ∧
      (readTargets count stream).2.flatten = (readTargets count stream').2.flatten := by
  induction count generalizing stream stream' with
  | zero =>
      exact ⟨rfl, h⟩
  | succ count ih =>
      obtain ⟨hline, hflat⟩ := readCappedLine_congr h
      obtain ⟨result, rest, rest', hread, hread', hrest⟩ := exists_of_agree hline hflat
      unfold readTargets
      rw [hread, hread']
      match result with
      | .error violation => exact ⟨rfl, hrest⟩
      | .ok none => exact ⟨rfl, hrest⟩
      | .ok (some line) =>
          dsimp only
          split
          · exact ⟨rfl, hrest⟩
          · obtain ⟨htargets, hflat⟩ := ih hrest
            obtain ⟨more, left, left', hmore, hmore', hleft⟩ := exists_of_agree htargets hflat
            rw [hmore, hmore']
            cases more with
            | error violation => exact ⟨rfl, hleft⟩
            | ok targets => exact ⟨rfl, hleft⟩

theorem readRequest_congr
    {stream stream' : List Bytes}
    (h : stream.flatten = stream'.flatten) :
    (readRequest stream).1 = (readRequest stream').1 ∧
      (readRequest stream).2.flatten = (readRequest stream').2.flatten := by
  obtain ⟨hline, hflat⟩ := readCappedLine_congr h
  obtain ⟨result, rest, rest', hread, hread', hrest⟩ := exists_of_agree hline hflat
  unfold readRequest
  rw [hread, hread']
  match result with
  | .error violation => exact ⟨rfl, hrest⟩
  | .ok none => exact ⟨rfl, hrest⟩
  | .ok (some first) =>
      dsimp only
      split
      · exact ⟨rfl, hrest⟩
      · rename_i token count _
        obtain ⟨htargets, hflat⟩ := readTargets_congr count hrest
        obtain ⟨more, left, left', hmore, hmore', hleft⟩ := exists_of_agree htargets hflat
        rw [hmore, hmore']
        cases more with
        | error violation => exact ⟨rfl, hleft⟩
        | ok targets => exact ⟨rfl, hleft⟩

/-- One line for the header, and at most 256 more. -/
theorem readRequest_consumed
    (stream : List Bytes) :
    ∃ consumed, stream.flatten = consumed ++ (readRequest stream).2.flatten ∧
      consumed.length ≤ (resolveSocketMaxPaths + 1) * resolveSocketMaxLineBytes := by
  obtain ⟨line, hstream, hlength⟩ := readCappedLine_consumed stream
  have hone : line.length ≤ (resolveSocketMaxPaths + 1) * resolveSocketMaxLineBytes := by
    rw [Nat.succ_mul]
    omega
  unfold readRequest
  split
  · rename_i hread
    rw [hread] at hstream
    exact ⟨line, hstream, hone⟩
  · rename_i hread
    rw [hread] at hstream
    exact ⟨line, hstream, hone⟩
  rename_i first rest hread
  rw [hread] at hstream
  split
  · exact ⟨line, hstream, hone⟩
  rename_i token count hheader
  obtain ⟨-, -, hcount, -⟩ := parseHeader_eq_ok_iff.mp hheader
  obtain ⟨more, hrest, hmore⟩ := readTargets_consumed count rest
  have hleft : ∀ result : ParsedRequest × List Bytes, result.2 = (readTargets count rest).2 →
      ∃ consumed, stream.flatten = consumed ++ result.2.flatten ∧
        consumed.length ≤ (resolveSocketMaxPaths + 1) * resolveSocketMaxLineBytes := by
    intro result hresult
    refine ⟨line ++ more, ?_, ?_⟩
    · rw [hstream, hrest, hresult, List.append_assoc]
    · have hbound := Nat.mul_le_mul_right resolveSocketMaxLineBytes hcount
      rw [List.length_append, Nat.succ_mul]
      omega
  split
  · rename_i htargets
    exact hleft _ (by rw [htargets])
  · rename_i htargets
    exact hleft _ (by rw [htargets])

/-- What has been read when a request is ready. -/
theorem readRequest_eq_ready
    {stream rest : List Bytes} {token : String} {targets : List ResolveTarget}
    (h : readRequest stream = (.ready token targets, rest)) :
    (token ≠ "" ∧ ' ' ∉ token.toList ∧ targets.length ≤ resolveSocketMaxPaths) ∧
      ∃ header lines, HeaderLine token targets.length header ∧
        List.Forall₂ TargetLine targets lines ∧
        stream.flatten = (header :: lines).flatMap lineBytes ++ rest.flatten ∧
        ∀ line ∈ header :: lines, Readable line := by
  unfold readRequest at h
  split at h
  · cases h
  · cases h
  rename_i first mid hfirst
  obtain ⟨hstream, hreadable⟩ := readCappedLine_line hfirst
  split at h
  · cases h
  rename_i token' count hheader
  obtain ⟨hempty, hblank, hcount, hline⟩ := parseHeader_eq_ok_iff.mp hheader
  split at h
  · cases h
  rename_i targets' left htargets
  cases h
  obtain ⟨rfl, lines, hlines, hmid, hall⟩ := readTargets_eq_ok htargets
  refine ⟨⟨hempty, hblank, hcount⟩, first, lines, hline, hlines, ?_, ?_⟩
  · rw [hstream, hmid, List.flatMap_cons, List.append_assoc]
  · intro l hl
    rcases List.mem_cons.mp hl with rfl | hl
    · exact hreadable
    · exact hall l hl

/-- Lines of a request, in any fragments, are read as it. -/
theorem readRequest_of_lines
    {token header : String} {targets : List ResolveTarget} {lines : List String} {rest : Bytes}
    (hempty : token ≠ "")
    (hblank : ' ' ∉ token.toList)
    (hcount : targets.length ≤ resolveSocketMaxPaths)
    (hheader : HeaderLine token targets.length header)
    (hlines : List.Forall₂ TargetLine targets lines)
    (hall : ∀ line ∈ header :: lines, Readable line)
    {stream : List Bytes}
    (hstream : stream.flatten = (header :: lines).flatMap lineBytes ++ rest) :
    ∃ left, readRequest stream = (.ready token targets, left) ∧ left.flatten = rest := by
  obtain ⟨hnewline, hlength⟩ := hall header (by simp)
  rw [List.flatMap_cons, List.append_assoc] at hstream
  obtain ⟨mid, hfirst, hmid⟩ := readCappedLine_of_line hstream hnewline hlength
  obtain ⟨left, htargets, hleft⟩ :=
    readTargets_of_lines hlines (fun l hl => hall l (by simp [hl])) hmid
  have hparse := parseHeader_eq_ok_iff.mpr ⟨hempty, hblank, hcount, hheader⟩
  refine ⟨left, ?_, hleft⟩
  unfold readRequest
  rw [hfirst]
  simp only [hparse, htargets]

end Streams

section Rendering

/-- The first line of a request as a client writes it. -/
def headerText (token : String) (count : Nat) : String :=
  "RESOLVE 1 " ++ token ++ " " ++ toString count

/-- The line of a target as a client writes it. -/
def targetText (target : ResolveTarget) : String :=
  match target.version with
  | none => target.path.asStr
  | some version => target.path.asStr ++ "@" ++ toString version.toNat

/-- A request as a client sends it. -/
def renderRequest (token : String) (targets : List ResolveTarget) : Bytes :=
  (headerText token targets.length :: targets.map targetText).flatMap lineBytes

theorem headerLine_headerText
    (token : String) (count : Nat) :
    HeaderLine token count (headerText token count) := by
  refine ⟨['1'], Nat.toDigits 10 count, ⟨[], 0, .inl rfl, rfl⟩, spells_toDigits count, ?_⟩
  simp [headerText, resolveSocketVerb]

theorem targetLine_targetText
    (target : ResolveTarget) :
    TargetLine target (targetText target) := by
  obtain ⟨path, version⟩ := target
  cases version with
  | none => rfl
  | some version =>
      refine ⟨Nat.toDigits 10 version.toNat, spells_toDigits _, ?_⟩
      simp [targetText]

theorem newline_notMem_utf8
    {s : String}
    (h : '\n' ∉ s.toList) :
    newline ∉ utf8 s := by
  intro hmem
  exact h ((mem_utf8_iff (by decide)).mp hmem)

theorem utf8_toString_length
    (n : Nat) :
    (utf8 (toString n)).length = (Nat.toDigits 10 n).length := by
  have hascii : ∀ c ∈ Nat.toDigits 10 n, c.toNat < 128 := by
    intro c hc
    have hdigit := isDigit_toDigits hc
    simp only [Char.isDigit, Bool.and_eq_true, decide_eq_true_eq] at hdigit
    have hle := UInt32.le_iff_toNat_le.mp hdigit.2
    exact Nat.lt_of_le_of_lt hle (by decide)
  rw [Nat.toString_eq_ofList_toDigits, utf8_ofList_ascii hascii, List.length_map]

/-- The line of a target is always short enough, and it is one line. -/
theorem readable_targetText
    (target : ResolveTarget) :
    Readable (targetText target) := by
  obtain ⟨path, version⟩ := target
  have hpath := path.utf8ByteSize_le
  have hchars : '\n' ∉ path.asStr.toList := path.notMem (by decide) (by decide)
  unfold Readable lineBytes
  cases version with
  | none =>
      refine ⟨newline_notMem_utf8 hchars, ?_⟩
      simp only [targetText, List.length_append, utf8_length, List.length_singleton]
      unfold maxPathLen at hpath
      unfold resolveSocketMaxLineBytes
      omega
  | some version =>
      have hdigits : (Nat.toDigits 10 version.toNat).length ≤ 10 := by
        refine (Nat.length_toDigits_le_iff (by decide) (by decide)).mpr ?_
        have := version.toNat_lt
        omega
      refine ⟨newline_notMem_utf8 ?_, ?_⟩
      · intro hmem
        simp only [targetText, String.toList_append, List.mem_append] at hmem
        rcases hmem with (hmem | hmem) | hmem
        · exact hchars hmem
        · revert hmem
          decide
        · rw [Nat.toString_eq_ofList_toDigits, String.toList_ofList] at hmem
          exact absurd (isDigit_toDigits hmem) (by decide)
      · have hat : (utf8 "@").length = 1 := rfl
        simp only [targetText, utf8_append, List.length_append, List.length_singleton, hat,
          utf8_toString_length]
        rw [utf8_length]
        unfold maxPathLen at hpath
        unfold resolveSocketMaxLineBytes
        omega

/-- The first line is one line when the token is. -/
theorem newline_notMem_headerText
    {token : String} (count : Nat)
    (htoken : '\n' ∉ token.toList) :
    newline ∉ utf8 (headerText token count) := by
  refine newline_notMem_utf8 ?_
  intro hmem
  simp only [headerText, String.toList_append, List.mem_append] at hmem
  rcases hmem with ((hmem | hmem) | hmem) | hmem
  · revert hmem
    decide
  · exact htoken hmem
  · revert hmem
    decide
  · rw [Nat.toString_eq_ofList_toDigits, String.toList_ofList] at hmem
    exact absurd (isDigit_toDigits hmem) (by decide)

/-- A line that can be read has no newline in it, nor has what it contains. -/
theorem newline_notMem_token
    {token header : String} {count : Nat}
    (hheader : HeaderLine token count header)
    (hreadable : Readable header) :
    '\n' ∉ token.toList := by
  intro hmem
  obtain ⟨version, numeral, -, -, hline⟩ := hheader
  refine hreadable.1 ((mem_utf8_iff (by decide : '\n'.toNat < 128)).mpr ?_)
  rw [hline]
  simp [hmem]

/-- The parser reads every request as it was written, in any fragments and whatever follows;
a request that it reads was written so, up to the spelling of its numbers; it stops in time;
and only the bytes matter. -/
theorem readRequest_exact :
    (∀ token targets rest stream, token ≠ "" → ' ' ∉ token.toList → '\n' ∉ token.toList →
      targets.length ≤ 256 → (lineBytes (headerText token targets.length)).length ≤ 4096 →
      stream.flatten = renderRequest token targets ++ rest →
      ∃ left, readRequest stream = (.ready token targets, left) ∧ left.flatten = rest) ∧
    (∀ stream left token targets, readRequest stream = (.ready token targets, left) →
      (token ≠ "" ∧ ' ' ∉ token.toList ∧ '\n' ∉ token.toList ∧ targets.length ≤ 256) ∧
      ∃ header lines, HeaderLine token targets.length header ∧
        List.Forall₂ TargetLine targets lines ∧
        stream.flatten = (header :: lines).flatMap lineBytes ++ left.flatten ∧
        ∀ line ∈ header :: lines, (lineBytes line).length ≤ 4096) ∧
    (∀ stream, ∃ consumed, stream.flatten = consumed ++ (readRequest stream).2.flatten ∧
      consumed.length ≤ 257 * 4096) ∧
    ∀ stream stream', stream.flatten = stream'.flatten →
      (readRequest stream).1 = (readRequest stream').1 ∧
        (readRequest stream).2.flatten = (readRequest stream').2.flatten := by
  refine ⟨?_, ?_, readRequest_consumed, fun _ _ h => readRequest_congr h⟩
  · intro token targets rest stream hempty hblank hnewline hcount hlength hstream
    refine readRequest_of_lines hempty hblank hcount (headerLine_headerText token targets.length)
      (List.forall₂_map_right_iff.mpr (List.forall₂_same.mpr fun t _ => targetLine_targetText t))
      ?_ hstream
    intro line hline
    rcases List.mem_cons.mp hline with rfl | hline
    · exact ⟨newline_notMem_headerText targets.length hnewline, hlength⟩
    · obtain ⟨target, -, rfl⟩ := List.mem_map.mp hline
      exact readable_targetText target
  · intro stream left token targets h
    obtain ⟨⟨hempty, hblank, hcount⟩, header, lines, hheader, hlines, hstream, hall⟩ :=
      readRequest_eq_ready h
    have hnewline := newline_notMem_token hheader (hall header (by simp))
    exact ⟨⟨hempty, hblank, hnewline, hcount⟩, header, lines, hheader, hlines, hstream,
      fun line hline => (hall line hline).2⟩

end Rendering

end Service
end Secretbae
