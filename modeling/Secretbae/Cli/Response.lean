import Secretbae.Lib.Numeral
import Secretbae.Lib.Slice
import Secretbae.Lib.Source
import Secretbae.Lib.Words

/-!
# Reading a response of the daemon

`parse_http_response` reads until it has seen a blank line, takes the status and
the length of the body from what stands before it, and reads the rest of the
body.  `parseHttpResponse_of_fragments` says that it does not matter how the
response arrives: the whole body is decoded, or the connection is reported to
have ended early.
-/

namespace Secretbae
namespace Cli

open Lib

/-- The JSON decoders of a response and of the text of an `ErrorResponse`. -/
structure Decoders (Resp : Type) where
  response : Bytes → Except String Resp
  errorResponse : Bytes → Option String

/-- Why there is no response. -/
inductive ResponseError where
  | read (error : String)
  | closedInHeaders
  | notUtf8 (headers : Bytes)
  | empty
  | invalidStatusLine
  | missingStatus
  | malformedStatus (code : String)
  | readBody (error : String)
  | closedInBody (expected received : Nat)
  | readRest (error : String)
  | badJson (error : String)
  | daemon (error : String)
  | http (status : Nat) (body : String)
deriving DecidableEq

/-- The text of the error; what is said of bytes that are no text is the standard library's. -/
def ResponseError.message (utf8Error : Bytes → String) : ResponseError → String
  | .read error => "failed to read from daemon: " ++ error
  | .closedInHeaders => "daemon closed socket prematurely before completing HTTP headers"
  | .notUtf8 headers => "daemon returned non-UTF-8 HTTP headers: " ++ utf8Error headers
  | .empty => "empty HTTP response"
  | .invalidStatusLine => "invalid HTTP status line"
  | .missingStatus => "missing status code in HTTP status line"
  | .malformedStatus code => "malformed status code '" ++ code ++ "' in HTTP response"
  | .readBody error => "failed to read HTTP body from daemon: " ++ error
  | .closedInBody expected received =>
      "daemon closed socket prematurely; expected " ++ toString expected ++ " bytes, received " ++
        toString received
  | .readRest error => "failed to read HTTP body: " ++ error
  | .badJson error => "failed to parse daemon JSON response: " ++ error
  | .daemon error => error
  | .http status body => "daemon error (HTTP " ++ toString status ++ "): " ++ body

def crlf : Bytes := [13, 10]

def blankLine : Bytes := crlf ++ crlf

/-- The length of `chunk`. -/
def chunkSize : Nat := 4096

/-- The first loop: until the buffer holds a blank line. -/
def wantHeaders (buffer : Bytes) : Want Nat :=
  match findSlice blankLine buffer with
  | some pos => .enough pos
  | none => .more chunkSize

/-- The second loop: until the body is as long as expected. -/
def wantBody (expected : Nat) (body : Bytes) : Want Unit :=
  if body.length < expected then .more (min (expected - body.length) chunkSize) else .enough ()

/-- The third loop, where no length is known: never enough. -/
def wantRest (_ : Bytes) : Want Empty :=
  .more chunkSize

def statusOf (statusLine : List Char) : Except ResponseError Nat :=
  match splitWhitespace statusLine with
  | [] => .error .invalidStatusLine
  | [_] => .error .missingStatus
  | _ :: code :: _ =>
      match parseUnsigned (2 ^ 16) code with
      | some status => .ok status
      | none => .error (.malformedStatus (String.ofList code))

/-- The field that gives the length, if the line is one. -/
def lengthField (line : List Char) : Option (List Char) :=
  match splitOnce ':' line with
  | some (name, val) =>
      if eqIgnoreAsciiCase (trim name) "content-length".toList then some val else none
  | none => none

/-- The loop over the lines after the status line. -/
def contentLength (lines : List (List Char)) : Option Nat :=
  lines.foldl
    (fun length line =>
      match lengthField line with
      | some val => parseUnsigned (2 ^ 64) (trim val)
      | none => length)
    none

/-- The status and the length, from the bytes before the blank line. -/
def parseHead (headers : Bytes) : Except ResponseError (Nat × Option Nat) :=
  match ofUtf8 headers with
  | none => .error (.notUtf8 headers)
  | some text =>
      match textLines text.toList with
      | [] => .error .empty
      | statusLine :: lines => do
          let status ← statusOf statusLine
          .ok (status, contentLength lines)

/-- The body, from what has arrived with the headers. -/
def readBody (length : Option Nat) (body : Bytes) (stream : Source) :
    Except ResponseError Bytes :=
  match length with
  | some expected =>
      match gather (wantBody expected) body stream with
      | .enough _ body _ => .ok body
      | .closed body => .error (.closedInBody expected body.length)
      | .failed e => .error (.readBody e)
  | none =>
      match gather wantRest body stream with
      | .closed body => .ok body
      | .failed e => .error (.readRest e)

/-- What the status makes of a whole body. -/
def finish {Resp : Type} (decoders : Decoders Resp) (status : Nat) (body : Bytes) :
    Except ResponseError Resp :=
  if 200 ≤ status ∧ status ≤ 299 then (decoders.response body).mapError .badJson
  else
    match decoders.errorResponse body with
    | some error => .error (.daemon error)
    | none => .error (.http status (fromUtf8Lossy body))

/-- `parse_http_response`. -/
def parseHttpResponse {Resp : Type} (decoders : Decoders Resp) (stream : Source) :
    Except ResponseError Resp :=
  match gather wantHeaders [] stream with
  | .failed e => .error (.read e)
  | .closed _ => .error .closedInHeaders
  | .enough headerEndPos buffer stream => do
      let (status, length) ← parseHead (buffer.take headerEndPos)
      let body ← readBody length (buffer.drop (headerEndPos + 4)) stream
      finish decoders status body

/-- The status line has a numeric status. -/
def HasStatus (statusLine : List Char) (status : Nat) : Prop :=
  ∃ protocol code rest, splitWhitespace statusLine = protocol :: code :: rest ∧
    parseUnsigned (2 ^ 16) code = some status

/-- The last line that gives a length gives this one. -/
def HasLength (lines : List (List Char)) (length : Nat) : Prop :=
  ∃ before line after val, lines = before ++ line :: after ∧ lengthField line = some val ∧
    parseUnsigned (2 ^ 64) (trim val) = some length ∧ ∀ later ∈ after, lengthField later = none

/-- A header block: no blank line in it, a status, and the length of a body. -/
structure IsHead (head : String) (status length : Nat) : Prop where
  noBlankLine : ¬ blankLine <:+: utf8 head ++ crlf
  lines : ∃ statusLine lines, textLines head.toList = statusLine :: lines ∧
    HasStatus statusLine status ∧ HasLength lines length

section Head

variable {head : String} {status length : Nat}

theorem statusOf_of_hasStatus
    {statusLine : List Char}
    (h : HasStatus statusLine status) :
    statusOf statusLine = .ok status := by
  obtain ⟨protocol, code, rest, hwords, hcode⟩ := h
  simp only [statusOf, hwords, hcode]

/-- Lines that give no length leave the one that was found. -/
theorem foldl_lengthField_of_none
    {lines : List (List Char)}
    (h : ∀ line ∈ lines, lengthField line = none) (found : Option Nat) :
    lines.foldl
      (fun length line =>
        match lengthField line with
        | some val => parseUnsigned (2 ^ 64) (trim val)
        | none => length)
      found = found := by
  induction lines with
  | nil =>
      rfl
  | cons line lines ih =>
      rw [List.foldl_cons, h line List.mem_cons_self]
      exact ih fun later hlater => h later (List.mem_cons_of_mem _ hlater)

theorem contentLength_of_hasLength
    {lines : List (List Char)}
    (h : HasLength lines length) :
    contentLength lines = some length := by
  obtain ⟨before, line, after, val, rfl, hfield, hparse, hafter⟩ := h
  rw [contentLength, List.foldl_append, List.foldl_cons, hfield]
  dsimp only
  rw [hparse, foldl_lengthField_of_none hafter]

theorem IsHead.parseHead
    (h : IsHead head status length) :
    parseHead (utf8 head) = .ok (status, some length) := by
  obtain ⟨statusLine, lines, htext, hstatus, hlength⟩ := h.lines
  simp only [Cli.parseHead, ofUtf8_eq_some_iff.mpr rfl, htext, statusOf_of_hasStatus hstatus,
    contentLength_of_hasLength hlength]
  rfl

/-- The blank line is found right behind the header block. -/
theorem IsHead.findSlice
    (h : IsHead head status length) (body : Bytes) :
    findSlice blankLine (utf8 head ++ (blankLine ++ body)) = some (utf8 head).length := by
  refine findSlice_append_needle (by decide) ?_ body
  intro hinner
  refine h.noBlankLine ?_
  -- the blank line does not end in a carriage return
  have hlast : utf8 head ++ blankLine.dropLast = (utf8 head ++ crlf) ++ [13] := by
    rw [List.append_assoc]
    rfl
  rw [hlast] at hinner
  rcases List.infix_concat_iff.mp hinner with hsuffix | hinner
  · rcases List.suffix_concat_iff.mp hsuffix with hnil | ⟨t, ht, -⟩
    · cases hnil
    · have hend := congrArg List.getLast? ht
      simp [blankLine, crlf] at hend
  · exact hinner

/-- What has arrived of a message that begins with `first` and `second`. -/
theorem exists_rest_of_part
    {first second third got : Bytes}
    (h : got <+: first ++ (second ++ third))
    (hlen : first.length + second.length ≤ got.length) :
    ∃ rest, got = first ++ (second ++ rest) ∧ rest <+: third := by
  rw [← List.append_assoc] at h
  have hbegin : first ++ second <+: got :=
    List.prefix_of_prefix_length_le (List.prefix_append _ _) h (by rwa [List.length_append])
  obtain ⟨rest, rfl⟩ := hbegin
  refine ⟨rest, List.append_assoc _ _ _, ?_⟩
  exact (List.prefix_append_right_inj _).mp h

/-- What has arrived holds the blank line exactly when it reaches behind it. -/
theorem IsHead.findSlice_of_part
    (h : IsHead head status length) {body got : Bytes}
    (hgot : got <+: utf8 head ++ (blankLine ++ body)) :
    Lib.findSlice blankLine got =
      if (utf8 head).length + 4 ≤ got.length then some (utf8 head).length else none := by
  obtain ⟨more, hmore⟩ := hgot
  have hwhole := h.findSlice body
  have hfound : ∀ i, Lib.findSlice blankLine got = some i →
      i = (utf8 head).length ∧ (utf8 head).length + 4 ≤ got.length := by
    intro i hi
    have hsame := findSlice_append_right hi more
    rw [hmore, hwhole] at hsame
    obtain rfl := Option.some.inj hsame
    have hlen := (findSlice_occurs hi).length_le
    rw [List.length_drop] at hlen
    have hfour : blankLine.length = 4 := rfl
    exact ⟨rfl, by omega⟩
  split
  · rename_i hlong
    -- the bytes up to there are those of the whole response
    obtain ⟨start, rfl, -⟩ := exists_rest_of_part ⟨more, hmore⟩ hlong
    exact h.findSlice start
  · rename_i hshort
    cases hi : Lib.findSlice blankLine got with
    | none => rfl
    | some i => exact absurd (hfound i hi).2 hshort

theorem IsHead.wantHeaders_of_part
    (h : IsHead head status length) {body got : Bytes}
    (hgot : got <+: utf8 head ++ (blankLine ++ body)) :
    wantHeaders got =
      if (utf8 head).length + 4 ≤ got.length then .enough (utf8 head).length
      else .more chunkSize := by
  rw [wantHeaders, h.findSlice_of_part hgot]
  by_cases hlong : (utf8 head).length + 4 ≤ got.length
  · rw [if_pos hlong, if_pos hlong]
  · rw [if_neg hlong, if_neg hlong]

end Head

section Fragments

theorem wantHeaders_pos
    (buffer : Bytes) (size : Nat)
    (h : wantHeaders buffer = .more size) :
    0 < size := by
  unfold wantHeaders at h
  split at h
  · cases h
  · cases h
    decide

theorem wantBody_pos
    {expected : Nat} (body : Bytes) (size : Nat)
    (h : wantBody expected body = .more size) :
    0 < size := by
  unfold wantBody at h
  split at h
  · cases h
    have : 0 < chunkSize := by decide
    omega
  · cases h

/-- The error for a source that ends, where `closed` is the one for its being closed. -/
def endingError (closed : ResponseError) (failed : String → ResponseError) :
    Ending → ResponseError
  | .closed => closed
  | .failed e => failed e

/-- The rest of a body is read whole, however it arrives, or is missed. -/
theorem readBody_of_part
    {expected body : Bytes} {stream : Source}
    (hs : stream.Delivers)
    (h : body ++ stream.bytes <+: expected) :
    readBody (some expected.length) body stream =
      if body ++ stream.bytes = expected then .ok expected
      else .error (endingError (.closedInBody expected.length (body ++ stream.bytes).length)
        .readBody stream.ending) := by
  have hfits : (gather (wantBody expected.length) body stream).Fits (wantBody expected.length)
      (body ++ stream.bytes) stream.ending :=
    gather_fits wantBody_pos body hs
  have hmissing : (∃ size, wantBody expected.length (body ++ stream.bytes) = .more size) →
      body ++ stream.bytes ≠ expected := by
    rintro ⟨size, hwant⟩ hall
    rw [wantBody, hall, if_neg (lt_irrefl _)] at hwant
    cases hwant
  unfold readBody
  dsimp only
  cases hgather : gather (wantBody expected.length) body stream with
  | enough u got rest =>
      rw [hgather] at hfits
      obtain ⟨hall, hwant, -, -⟩ := hfits
      have hlen : expected.length ≤ got.length := by
        unfold wantBody at hwant
        split at hwant
        · cases hwant
        · omega
      have hprefix : got <+: expected := (List.prefix_append _ _).trans (hall ▸ h)
      have hgot : got = expected := hprefix.eq_of_length (le_antisymm hprefix.length_le hlen)
      have hwhole : body ++ stream.bytes = expected := by
        refine h.eq_of_length (le_antisymm h.length_le ?_)
        rw [← hall, List.length_append]
        omega
      rw [if_pos hwhole, ← hgot]
  | closed got =>
      rw [hgather] at hfits
      obtain ⟨rfl, hwant, hending⟩ := hfits
      rw [if_neg (hmissing hwant), hending]
      rfl
  | failed e =>
      rw [hgather] at hfits
      obtain ⟨hwant, hending⟩ := hfits
      rw [if_neg (hmissing hwant), hending]
      rfl

end Fragments

/-- What is reported of a response of which only some bytes arrive. -/
def interrupted (headLength bodyLength received : Nat) (ending : Ending) : ResponseError :=
  if received < headLength + 4 then endingError .closedInHeaders .read ending
  else endingError (.closedInBody bodyLength (received - (headLength + 4))) .readBody ending

section Parse

variable {head : String} {status : Nat} {body : Bytes} {stream : Source}

/-- The first loop reads behind the blank line, or there is no more before it. -/
theorem IsHead.gather_headers
    (hhead : IsHead head status body.length)
    (hs : stream.Delivers)
    (h : stream.bytes <+: utf8 head ++ (blankLine ++ body)) :
    (∃ start rest,
        gather wantHeaders [] stream =
          .enough (utf8 head).length (utf8 head ++ (blankLine ++ start)) rest ∧
        stream.bytes = utf8 head ++ (blankLine ++ (start ++ rest.bytes)) ∧
        rest.Delivers ∧ rest.ending = stream.ending) ∨
      stream.bytes.length < (utf8 head).length + 4 ∧
        ((∃ got, gather wantHeaders [] stream = .closed got ∧ stream.ending = .closed) ∨
          ∃ e, gather wantHeaders [] stream = .failed e ∧ stream.ending = .failed e) := by
  have hfits : (gather wantHeaders [] stream).Fits wantHeaders stream.bytes stream.ending :=
    gather_fits wantHeaders_pos [] hs
  have hshort : (∃ size, wantHeaders stream.bytes = .more size) →
      stream.bytes.length < (utf8 head).length + 4 := by
    rintro ⟨size, hwant⟩
    by_contra hlong
    rw [hhead.wantHeaders_of_part h, if_pos (not_lt.mp hlong)] at hwant
    cases hwant
  cases hgather : gather wantHeaders [] stream with
  | enough pos got rest =>
      rw [hgather] at hfits
      obtain ⟨hall, hwant, hrest, hending⟩ := hfits
      have hgot : got <+: utf8 head ++ (blankLine ++ body) :=
        (List.prefix_append _ _).trans (hall ▸ h)
      rw [hhead.wantHeaders_of_part hgot] at hwant
      split at hwant
      swap
      · cases hwant
      rename_i hlong
      cases hwant
      obtain ⟨start, rfl, -⟩ := exists_rest_of_part hgot hlong
      refine .inl ⟨start, rest, rfl, ?_, hrest, hending⟩
      rw [← hall, List.append_assoc, List.append_assoc]
  | closed got =>
      rw [hgather] at hfits
      obtain ⟨-, hwant, hending⟩ := hfits
      exact .inr ⟨hshort hwant, .inl ⟨got, rfl, hending⟩⟩
  | failed e =>
      rw [hgather] at hfits
      obtain ⟨hwant, hending⟩ := hfits
      exact .inr ⟨hshort hwant, .inr ⟨e, rfl, hending⟩⟩

/-- What stands before the blank line is the header block, what stands behind it the body. -/
theorem cut_at_blankLine
    (head : String) (start : Bytes) :
    (utf8 head ++ (blankLine ++ start)).take (utf8 head).length = utf8 head ∧
      (utf8 head ++ (blankLine ++ start)).drop ((utf8 head).length + 4) = start := by
  refine ⟨List.take_left, ?_⟩
  rw [← List.drop_drop, List.drop_left]
  rfl

/-- A response that has arrived so far is read to its end, or reported as interrupted. -/
theorem parseHttpResponse_of_part
    {Resp : Type} (decoders : Decoders Resp)
    (hhead : IsHead head status body.length)
    (hs : stream.Delivers)
    (h : stream.bytes <+: utf8 head ++ (blankLine ++ body)) :
    parseHttpResponse decoders stream =
      if stream.bytes = utf8 head ++ (blankLine ++ body) then finish decoders status body
      else .error (interrupted (utf8 head).length body.length stream.bytes.length
        stream.ending) := by
  have hlength : ∀ bytes : Bytes, (utf8 head ++ (blankLine ++ bytes)).length =
      (utf8 head).length + 4 + bytes.length := by
    intro bytes
    rw [List.length_append, List.length_append, ← Nat.add_assoc]
    rfl
  unfold parseHttpResponse
  rcases hhead.gather_headers hs h with
    ⟨start, rest, hgather, hbytes, hrest, hending⟩ | ⟨hshort, hended⟩
  · have hbody : start ++ rest.bytes <+: body := by
      rw [hbytes] at h
      exact (List.prefix_append_right_inj _).mp ((List.prefix_append_right_inj _).mp h)
    obtain ⟨htake, hdrop⟩ := cut_at_blankLine head start
    rw [hgather]
    dsimp only
    rw [htake, hdrop, hhead.parseHead]
    change (readBody (some body.length) start rest >>= finish decoders status) = _
    rw [readBody_of_part hrest hbody, hbytes, ← hending]
    by_cases hwhole : start ++ rest.bytes = body
    · rw [if_pos hwhole, if_pos (by rw [hwhole])]
      rfl
    · have hcut : utf8 head ++ (blankLine ++ (start ++ rest.bytes)) ≠
          utf8 head ++ (blankLine ++ body) :=
        fun heq => hwhole (List.append_cancel_left (List.append_cancel_left heq))
      rw [if_neg hwhole, if_neg hcut, interrupted, hlength, if_neg (by omega),
        Nat.add_sub_cancel_left]
      rfl
  · have hcut : stream.bytes ≠ utf8 head ++ (blankLine ++ body) := by
      intro hall
      rw [hall, hlength] at hshort
      omega
    rw [if_neg hcut, interrupted, if_pos hshort]
    rcases hended with ⟨got, hgather, hending⟩ | ⟨e, hgather, hending⟩
    · rw [hgather, hending]
      rfl
    · rw [hgather, hending]
      rfl

end Parse

section Finish

variable {Resp : Type} (decoders : Decoders Resp) {status : Nat} (body : Bytes)

/-- Under a status of success the body is decoded as the response. -/
theorem finish_of_success
    (h : 200 ≤ status ∧ status ≤ 299) :
    finish decoders status body =
      match decoders.response body with
      | .ok resp => .ok resp
      | .error e => .error (.badJson e) := by
  rw [finish, if_pos h]
  cases decoders.response body with
  | ok resp => rfl
  | error e => rfl

/-- Under any other status the body is decoded as the text of an error, or shown as it is. -/
theorem finish_of_failure
    (h : ¬ (200 ≤ status ∧ status ≤ 299)) :
    finish decoders status body =
      match decoders.errorResponse body with
      | some error => .error (.daemon error)
      | none => .error (.http status (fromUtf8Lossy body)) := by
  rw [finish, if_neg h]

end Finish

/--
However a response arrives, exactly its whole body is decoded, as the response
under a status of success and as the text of an error under any other; and where
the stream ends inside it, that is an error that says what is missing.
-/
theorem parseHttpResponse_of_fragments
    {Resp : Type} (decoders : Decoders Resp)
    {head : String} {status : Nat} {body : Bytes}
    (hhead : IsHead head status body.length) :
    (∀ fragments ending, [] ∉ fragments →
        fragments.flatten = utf8 head ++ (blankLine ++ body) →
        (200 ≤ status ∧ status ≤ 299 →
          parseHttpResponse decoders ⟨fragments, ending⟩ =
            match decoders.response body with
            | .ok resp => .ok resp
            | .error e => .error (.badJson e)) ∧
        (¬ (200 ≤ status ∧ status ≤ 299) →
          parseHttpResponse decoders ⟨fragments, ending⟩ =
            match decoders.errorResponse body with
            | some error => .error (.daemon error)
            | none => .error (.http status (fromUtf8Lossy body)))) ∧
      ∀ fragments ending, [] ∉ fragments →
        fragments.flatten <+: utf8 head ++ (blankLine ++ body) →
        fragments.flatten ≠ utf8 head ++ (blankLine ++ body) →
        parseHttpResponse decoders ⟨fragments, ending⟩ =
          .error (interrupted (utf8 head).length body.length fragments.flatten.length ending) := by
  constructor
  · intro fragments ending hne hall
    have hs : Source.Delivers ⟨fragments, ending⟩ := hne
    have hall' : Source.bytes ⟨fragments, ending⟩ = utf8 head ++ (blankLine ++ body) := hall
    rw [parseHttpResponse_of_part decoders hhead hs (hall' ▸ List.prefix_refl _),
      if_pos hall']
    exact ⟨finish_of_success decoders body, finish_of_failure decoders body⟩
  · intro fragments ending hne hprefix hcut
    have hs : Source.Delivers ⟨fragments, ending⟩ := hne
    have hcut' : Source.bytes ⟨fragments, ending⟩ ≠ utf8 head ++ (blankLine ++ body) := hcut
    rw [parseHttpResponse_of_part decoders hhead hs hprefix, if_neg hcut']
    rfl

section Witnesses

/-- The body of an acknowledgement. -/
def ackBody : Bytes :=
  utf8 "\x7b\"ok\":true\x7d"

def ackDecoders : Decoders Bool where
  response body := if body = ackBody then .ok true else .error "expected value at line 1 column 1"
  errorResponse _ := none

def ackHead : String :=
  "HTTP/1.1 200 OK\r\nContent-Length: 11"

theorem isHead_ackHead : IsHead ackHead 200 ackBody.length where
  noBlankLine := by
    decide +kernel
  lines := by
    refine ⟨"HTTP/1.1 200 OK".toList, ["Content-Length: 11".toList], by decide +kernel,
      ⟨"HTTP/1.1".toList, "200".toList, ["OK".toList], by decide +kernel, by decide +kernel⟩,
      [], _, [], " 11".toList, rfl, by decide +kernel, by decide +kernel, nofun⟩

/-- The blank line and the body arrive cut in two each. -/
def ackFragments : List Bytes :=
  [utf8 ackHead ++ [13, 10, 13], 10 :: ackBody.take 4, ackBody.drop 4]

theorem ack_in_fragments :
    parseHttpResponse ackDecoders ⟨ackFragments, .closed⟩ = .ok true ∧
      parseHttpResponse ackDecoders ⟨ackFragments.take 2, .closed⟩ =
        .error (.closedInBody 11 4) := by
  have hne : [] ∉ ackFragments := by
    decide +kernel
  have hne' : [] ∉ ackFragments.take 2 := by
    decide +kernel
  obtain ⟨hwhole, hcut⟩ := parseHttpResponse_of_fragments ackDecoders isHead_ackHead
  constructor
  · rw [(hwhole ackFragments .closed hne (by decide +kernel)).1 (by decide)]
    decide +kernel
  · rw [hcut (ackFragments.take 2) .closed hne' (by decide +kernel) (by decide +kernel)]
    decide +kernel

end Witnesses

end Cli
end Secretbae
