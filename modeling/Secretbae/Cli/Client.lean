import Secretbae.Cli.Response
import Secretbae.Service.Lives
import Secretbae.Service.Messages

/-!
# The client

What `send_http_request` writes, and what `put` and `get` make of the values
that go back and forth.  The lines of a request are the intended ones exactly
where the token brings no line feed with it (`request_lines_iff`).  What `put`
was given is what `get` prints, whatever becomes of the daemon between the two
and however its answer arrives (`get_prints_put`).
-/

namespace Secretbae
namespace Cli

open Lib Proto Core Policies Service

section Request

/-- `api::AUTH_HEADER`. -/
def authHeader : String :=
  "authorization"

/-- The field with the token. -/
def authField (token : String) : String :=
  authHeader ++ ": " ++ String.ofList bearerPrefix ++ token

/-- The lines that are meant. -/
def requestLines (route : String) (token : Option String) (length : Nat) : List String :=
  ["POST " ++ route ++ " HTTP/1.1", "Host: localhost", "Content-Type: application/json",
    "Content-Length: " ++ toString length, "Connection: close"] ++ token.toList.map authField

/-- The header that `send_http_request` writes. -/
def requestHead (route : String) (token : Option String) (length : Nat) : String :=
  "POST " ++ route ++ " HTTP/1.1" ++ "\r\n" ++ "Host: localhost" ++ "\r\n" ++
    "Content-Type: application/json" ++ "\r\n" ++ "Content-Length: " ++ toString length ++
    "\r\n" ++ "Connection: close" ++ "\r\n" ++
    (token.map fun token => authField token ++ "\r\n").getD "" ++ "\r\n"

theorem requestHead_toList
    (route : String) (token : Option String) (length : Nat) :
    (requestHead route token length).toList =
      ((requestLines route token length).map String.toList).flatMap
        (fun line => line ++ ['\r', '\n']) ++ ['\r', '\n'] := by
  have hend : "\r\n".toList = ['\r', '\n'] := by
    decide
  unfold requestHead requestLines
  -- what the fixed texts are does not matter
  generalize "POST " = post, " HTTP/1.1" = http, "Host: localhost" = host,
    "Content-Type: application/json" = type, "Content-Length: " = size,
    "Connection: close" = close
  cases token <;> simp [hend]

theorem newline_not_mem_toString
    (n : Nat) :
    '\n' ∉ (toString n).toList := by
  rw [Nat.toString_eq_ofList_toDigits, String.toList_ofList]
  exact fun h => absurd (isDigit_toDigits h) (by decide)

theorem newline_not_mem_requestLines
    {route : String} {token : Option String} (length : Nat)
    (hroute : '\n' ∉ route.toList)
    (htoken : ∀ text ∈ token, '\n' ∉ text.toList) :
    ∀ line ∈ requestLines route token length, '\n' ∉ line.toList := by
  intro line hline
  rcases List.mem_append.mp hline with hfixed | hauth
  · simp only [List.mem_cons, List.not_mem_nil, or_false] at hfixed
    rcases hfixed with rfl | rfl | rfl | rfl | rfl
    · simp only [String.toList_append, List.mem_append, not_or]
      exact ⟨⟨by decide, hroute⟩, by decide⟩
    · decide
    · decide
    · rw [String.toList_append, List.mem_append, not_or]
      exact ⟨by decide, newline_not_mem_toString length⟩
    · decide
  · obtain ⟨text, htext, rfl⟩ := List.mem_map.mp hauth
    rw [authField, String.toList_append, List.mem_append, not_or]
    exact ⟨by decide, htoken text (Option.mem_toList.mp htext)⟩

/--
The lines before the first empty one are those that are meant, and the rest is
the body, exactly where neither the route nor the token has a line feed.
-/
theorem request_lines_iff
    (route : String) (token : Option String) (length : Nat) (body : String) :
    textLines (requestHead route token length ++ body).toList =
        (requestLines route token length).map String.toList ++ [] :: textLines body.toList ↔
      '\n' ∉ route.toList ∧ ∀ text ∈ token, '\n' ∉ text.toList := by
  constructor
  · intro heq
    have hno : ∀ line ∈ requestLines route token length, '\n' ∉ line.toList := by
      intro line hline
      refine not_mem_of_mem_textLines (s := (requestHead route token length ++ body).toList) ?_
      rw [heq]
      exact List.mem_append_left _ (List.mem_map_of_mem hline)
    constructor
    · intro hmem
      refine hno _ List.mem_cons_self ?_
      rw [String.toList_append, String.toList_append]
      exact List.mem_append_left _ (List.mem_append_right _ hmem)
    · intro text htext hmem
      refine hno (authField text) ?_ ?_
      · exact List.mem_append_right _ (List.mem_map_of_mem (Option.mem_toList.mpr htext))
      · rw [authField, String.toList_append]
        exact List.mem_append_right _ hmem
  · rintro ⟨hroute, htoken⟩
    have hno : ∀ line ∈ (requestLines route token length).map String.toList, '\n' ∉ line := by
      intro line hline
      obtain ⟨text, htext, rfl⟩ := List.mem_map.mp hline
      exact newline_not_mem_requestLines length hroute htoken text htext
    rw [String.toList_append, requestHead_toList, List.append_assoc, textLines_lines hno]
    change _ ++ textLines ([] ++ '\r' :: '\n' :: body.toList) = _
    rw [textLines_crlf List.not_mem_nil]

end Request

section Values

/-- What the client decodes a response with; `complaint` is said of what it cannot decode. -/
def jsonDecoders {α : Type} (T : JsonBytes) (c : Codec α) (complaint : Bytes → String) :
    Decoders α where
  response bytes := (T.decode c bytes).elim (.error (complaint bytes)) .ok
  errorResponse := T.decode Api.errorResponse

end Values

section Commands

variable (F : Foreign) (T : JsonBytes)

/-- The arguments of `put`. -/
structure PutArgs where
  path : SecretPath
  stdin : Bool
  file : Option String
  value : Option String
  tags : List Tag
  comment : Option String

/-- What can be read from outside. -/
structure Inputs where
  stdin : Except String Bytes
  file : String → Except String Bytes

/-- The bytes that `put` is given. -/
def putPayload (inputs : Inputs) (args : PutArgs) : Except String Bytes :=
  if args.stdin then
    inputs.stdin.mapError fun e => "failed to read secret payload from stdin: " ++ e
  else
    match args.file, args.value with
    | some file, _ =>
        (inputs.file file).mapError
          fun e => "failed to read secret payload from '" ++ file ++ "': " ++ e
    | none, some value => .ok (utf8 value)
    | none, none => .error "one of --stdin, --file, or --value must be provided"

/-- The request of `put`. -/
def putRequest (inputs : Inputs) (args : PutArgs) : Except String Service.WriteRequest := do
  let payload ← putPayload inputs args
  .ok ⟨args.path, F.base64Encode payload, args.tags, args.comment⟩

/-- Why `get` prints nothing. -/
inductive GetError where
  | post (error : ResponseError)
  | malformedPayload (value : String)

/-- `print_read`: what is printed. -/
def printRead (response : ReadResponse) (raw json : Bool) : Except GetError Bytes :=
  match F.base64Decode response.value with
  | none => .error (.malformedPayload response.value)
  | some bytes =>
      if raw then .ok bytes
      else if json then
        .ok (utf8 (T.toStringPretty (Api.readResponse.codec.encode response) ++ "\n"))
      else
        match ofUtf8 bytes with
        | some text => .ok (utf8 (text ++ "\n"))
        | none => .ok (utf8 (response.value ++ "\n"))

/-- `get`, from the stream of the response on. -/
def get (complaint : Bytes → String) (raw json : Bool) (stream : Source) :
    Except GetError Bytes := do
  let response ← (parseHttpResponse (jsonDecoders T Api.readResponse.codec complaint)
    stream).mapError .post
  printRead F T response raw json

/-- The response arrives whole, in fragments. -/
structure Arrives (response : ReadResponse) (stream : Source) : Prop where
  rereads : T.Rereads (Api.readResponse.codec.encode response)
  whole : ∃ head, IsHead head 200 (T.encode Api.readResponse.codec response).length ∧
    stream.bytes = utf8 head ++ (blankLine ++ T.encode Api.readResponse.codec response)
  delivers : stream.Delivers

/-- The `i`-th request of an era is what `put` sent, and it was told the version. -/
structure Sent {P : Primitives} {ι : Type} [DecidableEq ι] (eras : List (Era P ι)) (n : ℕ)
    (i : ι) (args : PutArgs) (payload : Bytes) (v : Version) : Prop where
  received : ∃ inputs sent request era conn draws env,
    putPayload inputs args = .ok payload ∧ putRequest F inputs args = .ok sent ∧
    T.Rereads (Api.writeRequest.codec.encode sent) ∧
    T.decode Api.writeRequest.codec (T.encode Api.writeRequest.codec sent) = some request ∧
    eras[n]? = some era ∧ era.requests i = .write conn request draws env
  told : Told F eras n i (.written ⟨args.path, v⟩)

end Commands

section RoundTrip

variable {F : Foreign} {T : JsonBytes}

/-- A response that arrives is the daemon's. -/
theorem Arrives.parsed
    {response : ReadResponse} {stream : Source}
    (h : Arrives T response stream) (complaint : Bytes → String) :
    parseHttpResponse (jsonDecoders T Api.readResponse.codec complaint) stream = .ok response := by
  obtain ⟨head, hhead, hbytes⟩ := h.whole
  rw [parseHttpResponse_of_part _ hhead h.delivers (hbytes ▸ List.prefix_refl _), if_pos hbytes,
    finish, if_pos (by decide)]
  have hdecoded : (jsonDecoders T Api.readResponse.codec complaint).response
      (T.encode Api.readResponse.codec response) = .ok response := by
    simp only [jsonDecoders, JsonBytes.decode_encode h.rereads, Option.elim_some]
  rw [hdecoded]
  rfl

/-- The daemon receives what `put` was given. -/
theorem Sent.write
    {P : Primitives} {ι : Type} [DecidableEq ι] {eras : List (Era P ι)} {n : ℕ} {i : ι}
    {args : PutArgs} {payload : Bytes} {v : Version}
    (h : Sent F T eras n i args payload v) :
    ∃ request era conn draws env, eras[n]? = some era ∧
      era.requests i = .write conn request draws env ∧
      request.value = F.base64Encode payload := by
  obtain ⟨inputs, sent, request, era, conn, draws, env, hpayload, hsent, hrereads, hrequest, hera,
    hwrite⟩ := h.received
  refine ⟨request, era, conn, draws, env, hera, hwrite, ?_⟩
  rw [JsonBytes.decode_encode hrereads] at hrequest
  cases hrequest
  rw [putRequest, hpayload] at hsent
  cases hsent
  rfl

/-- What is printed of a response with these bytes. -/
theorem printRead_of_encoded
    {response : ReadResponse} {payload : Bytes}
    (hdecode : F.base64Decode response.value = some payload) :
    (∀ json, printRead F T response true json = .ok payload) ∧
    (∀ text, payload = utf8 text →
      printRead F T response false false = .ok (utf8 (text ++ "\n"))) ∧
    (ofUtf8 payload = none →
      printRead F T response false false = .ok (utf8 (response.value ++ "\n"))) := by
  refine ⟨fun json => ?_, fun text htext => ?_, fun hnone => ?_⟩
  · simp only [printRead, hdecode, if_true]
  · have hutf8 : ofUtf8 payload = some text := ofUtf8_eq_some_iff.mpr htext
    simp [printRead, hdecode, hutf8]
  · simp [printRead, hdecode, hnone]

variable {P : Primitives} {J : PolicyJson} {K : Kernel} {keyfile : Option Daemon.Keyfile}
  {s s' : State P} {ι : Type} [DecidableEq ι] {eras : List (Era P ι)}

/--
What `put` was given is what `get` prints of the version that it was told, in
the same life of the daemon or in another: as it is with `--raw`, as a line of
text where it is one, and in base64 elsewhere.
-/
theorem get_prints_put
    (hP : AeadCorrect P) (hK : K.Documented)
    (hbase64 : ∀ x, F.base64Decode (F.base64Encode x) = some x)
    (hlives : Lives F J K keyfile s eras s')
    (hs : s.Sealed)
    (hopens : Opens keyfile s.backend)
    {n m : ℕ} {i j : ι} {args : PutArgs} {payload : Bytes} {v : Version}
    {response : ReadResponse} {stream : Source}
    (hsent : Sent F T eras n i args payload v)
    (hread : Told F eras m j (.read response))
    (hpath : response.path = args.path)
    (hversion : response.version = v)
    (harrives : Arrives T response stream) (complaint : Bytes → String) :
    (∀ json, get F T complaint true json stream = .ok payload) ∧
    (∀ text, payload = utf8 text →
      get F T complaint false false stream = .ok (utf8 (text ++ "\n"))) ∧
    (ofUtf8 payload = none →
      get F T complaint false false stream = .ok (utf8 (F.base64Encode payload ++ "\n"))) := by
  obtain ⟨history, hall, hreported, -⟩ := history_of_lives hP hK hlives hs hopens
  have hbounded : (s.plain P).Bounded := Storage.Store.bounded_plain s.db.store
  obtain ⟨request, era, conn, draws, env, hera, hwrite, hvalue⟩ := hsent.write
  obtain ⟨era', hera', hfirst⟩ := hsent.told.answers hreported
  cases hera.symm.trans hera'
  obtain ⟨_, -, hsecond⟩ := hread.answers hreported
  have hshown := hsecond.shown_read
  rw [hpath, hversion] at hshown
  obtain ⟨conn', request', draws', env', x, hwrite', hdecode, hencode⟩ :=
    value_written hall hbounded hfirst hsecond hshown
  cases hwrite.symm.trans hwrite'
  rw [hvalue, hbase64] at hdecode
  cases hdecode
  have hencoded : response.value = F.base64Encode payload := hencode
  have hdecoded : F.base64Decode response.value = some payload := hencoded ▸ hbase64 payload
  have hprinted := @printRead_of_encoded F T response payload hdecoded
  have hget : ∀ raw json, get F T complaint raw json stream = printRead F T response raw json := by
    intro raw json
    rw [get, harrives.parsed complaint]
    rfl
  simp only [hget, ← hencoded]
  exact hprinted

end RoundTrip

section Samples

open Storage (samplePath secondVersion)

def sampleRead : ReadResponse :=
  ⟨samplePath, secondVersion, "AQID"⟩

def samplePut : Service.WriteRequest :=
  ⟨samplePath, "AQID", [], none⟩

def sampleReadText : Bytes :=
  utf8 "\x7b\"path\":\"prod/db\",\"version\":2,\"value\":\"AQID\"\x7d"

def samplePutText : Bytes :=
  utf8 "\x7b\"path\":\"prod/db\",\"value\":\"AQID\"\x7d"

/-- The bytes of these two values. -/
def sampleBytes : JsonBytes where
  toVec v := if (Api.readResponse.codec.decode v).isSome then sampleReadText else samplePutText
  fromSlice bytes :=
    if bytes = sampleReadText then some (Api.readResponse.codec.encode sampleRead)
    else if bytes = samplePutText then some (Api.writeRequest.codec.encode samplePut)
    else none
  toStringPretty _ := ""

theorem rereads_sampleRead :
    sampleBytes.Rereads (Api.readResponse.codec.encode sampleRead) := by
  simp [JsonBytes.Rereads, sampleBytes, Codec.decode_encode]

theorem rereads_samplePut :
    sampleBytes.Rereads (Api.writeRequest.codec.encode samplePut) := by
  have hother : (Api.readResponse.codec.decode
      (Api.writeRequest.codec.encode samplePut)).isSome = false := by
    decide +kernel
  have hne : samplePutText ≠ sampleReadText := by
    decide +kernel
  simp [JsonBytes.Rereads, sampleBytes, hother, hne]

def sampleReadHead : String :=
  "HTTP/1.1 200 OK\r\nContent-Length: 45"

theorem isHead_sampleReadHead : IsHead sampleReadHead 200 sampleReadText.length where
  noBlankLine := by
    decide +kernel
  lines := by
    refine ⟨"HTTP/1.1 200 OK".toList, ["Content-Length: 45".toList], by decide +kernel,
      ⟨"HTTP/1.1".toList, "200".toList, ["OK".toList], by decide +kernel, by decide +kernel⟩,
      [], _, [], " 45".toList, rfl, by decide +kernel, by decide +kernel, nofun⟩

/-- The blank line arrives cut in two. -/
def sampleStream : Source :=
  ⟨[utf8 sampleReadHead ++ [13, 10, 13], 10 :: sampleReadText], .closed⟩

theorem arrives_sampleStream : Arrives sampleBytes sampleRead sampleStream where
  rereads := rereads_sampleRead
  whole := by
    have hbytes : sampleBytes.encode Api.readResponse.codec sampleRead = sampleReadText := by
      simp [JsonBytes.encode, sampleBytes, Codec.decode_encode]
    rw [hbytes]
    exact ⟨sampleReadHead, isHead_sampleReadHead, by decide +kernel⟩
  delivers := by
    unfold Source.Delivers
    decide +kernel

/-- What was put before a rotation that is killed is printed after the next start. -/
theorem get_prints_put_sample :
    get wholeForeign sampleBytes (fun _ => "") true false sampleStream = .ok [1, 2, 3] := by
  have hsent : Sent wholeForeign sampleBytes [firstEra, secondEra] 0 1
      ⟨samplePath, true, none, none, [], none⟩ [1, 2, 3] secondVersion :=
    ⟨⟨⟨.ok [1, 2, 3], fun _ => .error ""⟩, samplePut, samplePut, firstEra, _, _, _, rfl, rfl,
      rereads_samplePut, JsonBytes.decode_encode rereads_samplePut, rfl, rfl⟩, told_firstEra⟩
  obtain ⟨hraw, -, -⟩ := get_prints_put samplePrimitives_correct Kernel.documented_standard
    Base64.decode_encode lives_filledState sealed_filledState opens_sampleKeyfile hsent
    told_secondEra rfl rfl arrives_sampleStream fun _ => ""
  exact hraw false

end Samples

end Cli
end Secretbae
