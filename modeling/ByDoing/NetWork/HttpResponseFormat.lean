import ByDoing.Lib.Decimal
import ByDoing.Lib.Lines
import ByDoing.NetWork.BufferGrowth
import ByDoing.NetWork.HttpServer

namespace NetWork
namespace HttpResponse

structure Decoded where
  statusCode : Int
  statusMessage : List UInt8
  headers : List (List UInt8 × List UInt8)
  body : List UInt8
  deriving Repr, DecidableEq

def HTTP11 : List UInt8 := ascii "HTTP/1.1 "

def decodeStatusLine (line : List UInt8) : Option (Int × List UInt8) :=
  if HTTP11.isPrefixOf line then
    let rest := line.drop HTTP11.length
    match Search.find SP rest with
    | none => none
    | some n => some (Decimal.readInt (rest.take n), rest.drop (n + 1))
  else
    none

def decodeHeader (line : List UInt8) : List UInt8 × List UInt8 :=
  match Search.find COLON line with
  | none => (line, [])
  | some n => (line.take n, line.drop (n + 2))

def decode (bytes : List UInt8) : Option Decoded :=
  match Lines.emptyEnd 13 10 bytes, Lines.untilEmpty 13 10 bytes with
  | some n, line :: lines =>
    match decodeStatusLine line with
    | none => none
    | some (statusCode, statusMessage) =>
      some { statusCode, statusMessage, headers := lines.map decodeHeader, body := bytes.drop n }
  | _, _ => none

def contentLength (body : List UInt8) : List UInt8 × List UInt8 :=
  (ascii "Content-Length", Decimal.nat body.length)

def connectionHeaders (r : HttpResponse) (body : List UInt8) : List (List UInt8 × List UInt8) :=
  if r.keepConnected then
    [(CONNECTION, CLOSE)]
  else
    [contentLength body, (CONNECTION, KEEP_ALIVE)]

def Decoded.Delimited (d : Decoded) : Prop :=
  (∃ value, (ascii "Content-Length", value) ∈ d.headers ∧ Decimal.readNat value = d.body.length)
  ∨ (CONNECTION, CLOSE) ∈ d.headers

def RoundTrips (realloc : Realloc) (r : HttpResponse) (output : Buffer) : Prop :=
  ∃ output' bytes d, r.httpResponseEncodeBuffer realloc output = .ok output'
    ∧ output'.readable = output.readable ++ bytes
    ∧ decode bytes = some d
    ∧ d.statusCode = r.statusCode
    ∧ r.statusMessage = some d.statusMessage
    ∧ d.headers = r.connectionHeaders d.body ++ r.responseHeaders
    ∧ r.body = some d.body
    ∧ d.Delimited

def headerLine (header : List UInt8 × List UInt8) : List UInt8 :=
  header.fst ++ COLON ++ header.snd

def statusLine (r : HttpResponse) (message : List UInt8) : List UInt8 :=
  HTTP11 ++ (Decimal.int r.statusCode ++ SP ++ message)

def text (r : HttpResponse) (message body : List UInt8) : List UInt8 :=
  Lines.join 13 10 (r.statusLine message
    :: (r.connectionHeaders body ++ r.responseHeaders).map headerLine) ++ (CRLF ++ body)

def INT_LIMIT : Nat := 2147483648

structure Encodable (r : HttpResponse) (message body : List UInt8) : Prop where
  message_eq : r.statusMessage = some message
  body_eq : r.body = some body
  statusCode_isInt : r.statusCode.natAbs ≤ INT_LIMIT
  message_bytes : 13 ∉ message ∧ 10 ∉ message
  key_bytes : ∀ header ∈ r.responseHeaders, 13 ∉ header.fst ∧ 10 ∉ header.fst ∧ 58 ∉ header.fst
  value_bytes : ∀ header ∈ r.responseHeaders, 13 ∉ header.snd ∧ 10 ∉ header.snd
  length_lt : (r.text message body).length < INT_LIMIT

def strings (r : HttpResponse) (message body : List UInt8) : List (List UInt8) :=
  let connection :=
    if r.keepConnected then
      [ascii "Connection: close" ++ CRLF]
    else
      [ascii "Content-Length: " ++ Decimal.nat body.length ++ CRLF,
        ascii "Connection: Keep-Alive" ++ CRLF]
  let headers := r.responseHeaders.flatMap fun header => [header.fst, COLON, header.snd, CRLF]
  [HTTP11 ++ Decimal.int r.statusCode ++ SP, message, CRLF] ++ connection ++ (headers ++ [CRLF, body])

theorem ascii_append (s t : String) : ascii (s ++ t) = ascii s ++ ascii t := by
  simp [ascii]

theorem ascii_toString_nat (n : Nat) : ascii (toString n) = Decimal.nat n := by
  simp [ascii, Decimal.nat, Decimal.bytes]

theorem ascii_toString_int (i : Int) : ascii (toString i) = Decimal.int i := by
  cases i with
  | ofNat n => exact ascii_toString_nat n
  | negSucc n =>
    rw [show toString (Int.negSucc n) = "-" ++ toString (n + 1) from rfl, ascii_append,
      ascii_toString_nat]
    rfl

section Encoding

variable {r : HttpResponse} {message body : List UInt8}

theorem length_lt_of_encodable (h : r.Encodable message body) : body.length < INT_LIMIT := by
  have hlen := h.length_lt
  unfold text at hlen
  simp only [List.length_append] at hlen
  omega

theorem snprintf_statusCode (h : r.Encodable message body)
    : snprintf s!"HTTP/1.1 {r.statusCode} " = HTTP11 ++ Decimal.int r.statusCode ++ SP := by
  have hcode := h.statusCode_isInt
  have hlen := @Decimal.length_int_le r.statusCode 10 (by omega) (by unfold INT_LIMIT at hcode; omega)
  unfold snprintf
  rw [show s!"HTTP/1.1 {r.statusCode} " = "HTTP/1.1 " ++ toString r.statusCode ++ " " from rfl,
    ascii_append, ascii_append, ascii_toString_int, List.take_of_length_le]
  . rfl
  . have hhttp : (ascii "HTTP/1.1 ").length = 9 := by decide
    have hsp : (ascii " ").length = 1 := by decide
    simp only [List.length_append, hhttp, hsp]
    omega

theorem snprintf_contentLength (h : r.Encodable message body)
    : (ascii s!"Content-Length: {body.length}" ++ CRLF).take 31
        =
      ascii "Content-Length: " ++ Decimal.nat body.length ++ CRLF := by
  have hbody := length_lt_of_encodable h
  have hlen := @Decimal.length_nat_le body.length 10 (by omega) (by unfold INT_LIMIT at hbody; omega)
  rw [show s!"Content-Length: {body.length}" = "Content-Length: " ++ toString body.length from rfl,
    ascii_append, ascii_toString_nat, List.take_of_length_le]
  have hkey : (ascii "Content-Length: ").length = 16 := by decide
  simp only [List.length_append, hkey, CRLF, List.length_cons, List.length_nil]
  omega

theorem encodedStrings_eq (h : r.Encodable message body)
    : r.encodedStrings = .ok ((r.strings message body).map some) := by
  unfold encodedStrings strings
  dsimp only
  rw [snprintf_statusCode h, h.message_eq, h.body_eq]
  have hheaders : r.responseHeaders.flatMap headerStrings
      = (r.responseHeaders.flatMap fun header => [header.fst, COLON, header.snd, CRLF]).map some := by
    rw [List.map_flatMap]
    rfl
  rw [hheaders]
  cases r.keepConnected with
  | true => simp
  | false =>
    simp only [Bool.false_eq_true, if_false, snprintf_contentLength h]
    simp

theorem flatten_headers (headers : List (List UInt8 × List UInt8))
    : (headers.flatMap fun header => [header.fst, COLON, header.snd, CRLF]).flatten
        =
      Lines.join 13 10 (headers.map headerLine) := by
  induction headers with
  | nil => rfl
  | cons header headers ih =>
    rw [List.flatMap_cons, List.flatten_append, ih, List.map_cons, Lines.join_cons]
    simp [headerLine, CRLF]

theorem flatten_strings : (r.strings message body).flatten = r.text message body := by
  unfold strings text
  rw [Lines.join_cons, List.map_append, Lines.join_append]
  dsimp only
  rw [List.flatten_append, List.flatten_append, List.flatten_append, flatten_headers]
  cases hkeep : r.keepConnected with
  | true =>
    have hconnection : ascii "Connection: close" ++ CRLF = headerLine (CONNECTION, CLOSE) ++ CRLF := by
      decide
    simp only [connectionHeaders, hkeep, if_true, hconnection]
    simp [statusLine, Lines.join, CRLF]
  | false =>
    have hlength : ascii "Content-Length: " ++ Decimal.nat body.length
        = headerLine (contentLength body) := by
      rw [contentLength, headerLine, show ascii "Content-Length: " = ascii "Content-Length" ++ COLON by decide]
    have hconnection : ascii "Connection: Keep-Alive" ++ CRLF
        = headerLine (CONNECTION, KEEP_ALIVE) ++ CRLF := by
      decide
    simp only [connectionHeaders, hkeep, Bool.false_eq_true, if_false, hconnection, hlength]
    simp [statusLine, Lines.join, CRLF]

theorem not_mem_numeral {b : UInt8} (h : b ∈ [10, 13, 32, 58]) (i : Int) : b ∉ Decimal.int i := by
  intro hmem
  have hrange := Decimal.mem_int hmem
  simp only [List.mem_cons, List.not_mem_nil, or_false] at h
  rcases h with rfl | rfl | rfl | rfl <;> simp at hrange

theorem decodeStatusLine_statusLine (r : HttpResponse) (message : List UInt8)
    : decodeStatusLine (r.statusLine message) = some (r.statusCode, message) := by
  have hprefix : HTTP11.isPrefixOf (r.statusLine message) = true := by
    rw [List.isPrefixOf_iff_prefix]
    apply List.prefix_append
  have hfind : Search.find SP (Decimal.int r.statusCode ++ SP ++ message)
      = some (Decimal.int r.statusCode).length :=
    Search.find_append_self_of_not_mem _ (not_mem_numeral (by simp) _)
  unfold decodeStatusLine
  rw [if_pos hprefix, statusLine, List.drop_left]
  dsimp only
  rw [hfind]
  dsimp only
  rw [List.append_assoc, List.take_left, Decimal.readInt_int, ← List.drop_drop, List.drop_left]
  rfl

theorem decodeHeader_headerLine {header : List UInt8 × List UInt8} (h : 58 ∉ header.fst)
    : decodeHeader (headerLine header) = header := by
  have hfind : Search.find COLON (headerLine header) = some header.fst.length :=
    Search.find_append_self_of_not_mem _ h
  unfold decodeHeader
  rw [hfind]
  dsimp only
  rw [headerLine, List.append_assoc, List.take_left, ← List.drop_drop, List.drop_left]
  rfl

theorem connectionHeaders_bytes {header : List UInt8 × List UInt8}
    (h : header ∈ r.connectionHeaders body)
    : 13 ∉ header.fst ∧ 58 ∉ header.fst ∧ 13 ∉ header.snd := by
  have hlength : 13 ∉ Decimal.nat body.length := @not_mem_numeral 13 (by simp) (Int.ofNat body.length)
  unfold connectionHeaders at h
  split at h
  . simp only [List.mem_singleton] at h
    subst h
    decide
  . simp only [List.mem_cons, List.not_mem_nil, or_false] at h
    cases h with
    | inl heq =>
      subst heq
      exact ⟨by simp [contentLength, ascii], by simp [contentLength, ascii], hlength⟩
    | inr heq =>
      subst heq
      decide

theorem headers_bytes (h : r.Encodable message body) {header : List UInt8 × List UInt8}
    (hmem : header ∈ r.connectionHeaders body ++ r.responseHeaders)
    : 13 ∉ header.fst ∧ 58 ∉ header.fst ∧ 13 ∉ header.snd := by
  rw [List.mem_append] at hmem
  cases hmem with
  | inl hconnection => exact connectionHeaders_bytes hconnection
  | inr hgiven =>
    obtain ⟨hcr, _, hcolon⟩ := h.key_bytes header hgiven
    exact ⟨hcr, hcolon, (h.value_bytes header hgiven).left⟩

theorem decode_text (h : r.Encodable message body)
    : decode (r.text message body)
        =
      some {
        statusCode := r.statusCode
        statusMessage := message
        headers := r.connectionHeaders body ++ r.responseHeaders
        body
      } := by
  have hne : ∀ line ∈ r.statusLine message
      :: (r.connectionHeaders body ++ r.responseHeaders).map headerLine, line ≠ [] := by
    intro line hline
    simp only [List.mem_cons, List.mem_map] at hline
    rcases hline with rfl | ⟨header, _, rfl⟩
    . simp [statusLine, HTTP11, ascii]
    . simp [headerLine, COLON]
  have hcr : ∀ line ∈ r.statusLine message
      :: (r.connectionHeaders body ++ r.responseHeaders).map headerLine, 13 ∉ line := by
    intro line hline
    simp only [List.mem_cons, List.mem_map] at hline
    rcases hline with rfl | ⟨header, hheader, rfl⟩
    . have hhttp : 13 ∉ HTTP11 := by decide
      have hcode : 13 ∉ Decimal.int r.statusCode := not_mem_numeral (by simp) _
      simp [statusLine, hhttp, hcode, SP, h.message_bytes.left]
    . obtain ⟨hkey, _, hvalue⟩ := headers_bytes h hheader
      simp [headerLine, hkey, hvalue, COLON]
  obtain ⟨huntil, hend⟩ := @Lines.untilEmpty_join _ _ 13 10 _ hne hcr body
  have hdrop : (r.text message body).drop ((Lines.join 13 10 (r.statusLine message
      :: (r.connectionHeaders body ++ r.responseHeaders).map headerLine)).length + 2) = body := by
    rw [text, ← List.drop_drop, List.drop_left]
    rfl
  have hheaders : ((r.connectionHeaders body ++ r.responseHeaders).map headerLine).map decodeHeader
      = r.connectionHeaders body ++ r.responseHeaders := by
    rw [List.map_map]
    have hid : ∀ header ∈ r.connectionHeaders body ++ r.responseHeaders,
        (decodeHeader ∘ headerLine) header = id header := by
      intro header hheader
      apply decodeHeader_headerLine
      exact (headers_bytes h hheader).right.left
    rw [List.map_congr_left hid, List.map_id]
  have htext : Lines.emptyEnd 13 10 (r.text message body) = _ := hend
  have huntil' : Lines.untilEmpty 13 10 (r.text message body) = _ := huntil
  unfold decode
  rw [htext, huntil']
  dsimp only
  rw [decodeStatusLine_statusLine, hdrop, hheaders]

theorem delimited_connectionHeaders {d : Decoded}
    (h : d.headers = r.connectionHeaders d.body ++ r.responseHeaders)
    : d.Delimited := by
  unfold Decoded.Delimited
  rw [h]
  unfold connectionHeaders
  cases r.keepConnected with
  | true =>
    apply Or.inr
    simp
  | false =>
    apply Or.inl
    exact ⟨Decimal.nat d.body.length, by simp [contentLength], Decimal.readNat_nat _⟩

variable {realloc : Realloc}

theorem appendStrings_of_served {output : Buffer} (hwf : output.Wf) (ss : List (List UInt8))
    (h : ∀ n ∈ Buffer.requested output.spare output.totalSize (ss.map List.length),
      (realloc n).isSome = true)
    : ∃ output', appendStrings realloc output (ss.map some) = .ok output'
        ∧ output'.readable = output.readable ++ ss.flatten := by
  induction ss generalizing output with
  | nil => exact ⟨output, rfl, by simp⟩
  | cons src ss ih =>
    rw [List.map_cons, Buffer.requested] at h
    rw [List.map_cons, appendStrings, Buffer.bufferAppendString]
    split at h
    . next hle =>
      obtain ⟨next, happend, hwf', hreadable, hspare, htotal⟩ := Buffer.bufferAppend_of_le realloc hwf hle
      rw [← hspare, ← htotal] at h
      obtain ⟨output', hrest, hflatten⟩ := ih hwf' h
      rw [happend]
      exact ⟨output', hrest, by rw [hflatten, hreadable, List.flatten_cons, List.append_assoc]⟩
    . next hlt =>
      rw [List.forall_mem_cons] at h
      obtain ⟨next, happend, hwf', hreadable, hspare, htotal⟩ :=
        Buffer.bufferAppend_of_lt hwf (Nat.lt_of_not_le hlt) h.left
      rw [← hspare, ← htotal] at h
      obtain ⟨output', hrest, hflatten⟩ := ih hwf' h.right
      rw [happend]
      exact ⟨output', hrest, by rw [hflatten, hreadable, List.flatten_cons, List.append_assoc]⟩

theorem served_of_appendStrings {output output' : Buffer} (hwf : output.Wf) (ss : List (List UInt8))
    (h : appendStrings realloc output (ss.map some) = .ok output')
    : ∀ n ∈ Buffer.requested output.spare output.totalSize (ss.map List.length),
        (realloc n).isSome = true := by
  induction ss generalizing output with
  | nil => simp [Buffer.requested]
  | cons src ss ih =>
    rw [List.map_cons, appendStrings, Buffer.bufferAppendString] at h
    rw [List.map_cons, Buffer.requested]
    split
    . next hle =>
      obtain ⟨next, happend, hwf', _, hspare, htotal⟩ := Buffer.bufferAppend_of_le realloc hwf hle
      rw [happend] at h
      rw [← hspare, ← htotal]
      exact ih hwf' h
    . next hlt =>
      have hrealloc : (realloc (output.totalSize + src.length)).isSome = true := by
        by_contra hnull
        rw [Bool.not_eq_true, Option.isSome_eq_false_iff, Option.isNone_iff_eq_none] at hnull
        rw [Buffer.bufferAppend_of_reallocFails hwf ⟨Nat.lt_of_not_le hlt, hnull⟩] at h
        simp at h
      obtain ⟨next, happend, hwf', _, hspare, htotal⟩ :=
        Buffer.bufferAppend_of_lt hwf (Nat.lt_of_not_le hlt) hrealloc
      rw [happend] at h
      rw [List.forall_mem_cons]
      refine ⟨hrealloc, ?_⟩
      rw [← htotal, ← hspare]
      exact ih hwf' h

theorem served_of_roundTrips (h : r.Encodable message body) {output : Buffer} (hwf : output.Wf)
    (hroundTrips : r.RoundTrips realloc output)
    : ∀ n ∈ Buffer.requested output.spare output.totalSize ((r.strings message body).map List.length),
        (realloc n).isSome = true := by
  unfold RoundTrips httpResponseEncodeBuffer at hroundTrips
  rw [encodedStrings_eq h] at hroundTrips
  obtain ⟨output', _, _, hencode, _⟩ := hroundTrips
  apply served_of_appendStrings hwf _ hencode

theorem roundTrips_of_served (h : r.Encodable message body) {output : Buffer} (hwf : output.Wf)
    (hserved : ∀ n ∈ Buffer.requested output.spare output.totalSize
      ((r.strings message body).map List.length), (realloc n).isSome = true)
    : r.RoundTrips realloc output := by
  obtain ⟨output', hencode, hreadable⟩ := appendStrings_of_served hwf _ hserved
  rw [flatten_strings] at hreadable
  unfold RoundTrips httpResponseEncodeBuffer
  rw [encodedStrings_eq h]
  exact ⟨output', r.text message body, _, hencode, hreadable, decode_text h, rfl, h.message_eq, rfl,
    h.body_eq, delimited_connectionHeaders rfl⟩

end Encoding

theorem roundTrips_iff (realloc : Realloc) (r : HttpResponse) (message body : List UInt8)
    (h : r.Encodable message body) (output : Buffer) (hwf : output.Wf)
    : r.RoundTrips realloc output
        ↔
      ∀ n ∈ Buffer.requested output.spare output.totalSize ((r.strings message body).map List.length),
        (realloc n).isSome = true := by
  constructor
  . intro hroundTrips
    apply served_of_roundTrips h hwf hroundTrips
  . intro hserved
    apply roundTrips_of_served h hwf hserved

theorem le_of_mem_requested {spare total : Nat} {ss : List (List UInt8)} {n : Nat}
    (h : n ∈ Buffer.requested spare total (ss.map List.length))
    : n ≤ total + ss.flatten.length := by
  induction ss generalizing spare total with
  | nil => simp [Buffer.requested] at h
  | cons s ss ih =>
    rw [List.map_cons, Buffer.requested] at h
    rw [List.flatten_cons, List.length_append]
    split at h
    . have := ih h
      omega
    . rw [List.mem_cons] at h
      cases h with
      | inl heq => omega
      | inr hmem =>
        have := ih hmem
        omega

theorem roundTrips_of_length_lt {realloc : Realloc} (hserves : ∀ n < INT_LIMIT, (realloc n).isSome = true)
    {r : HttpResponse} {message body : List UInt8} (h : r.Encodable message body) {output : Buffer}
    (hwf : output.Wf) (hlt : output.totalSize + (r.text message body).length < INT_LIMIT)
    : r.RoundTrips realloc output := by
  apply roundTrips_of_served h hwf
  intro n hn
  have hle := le_of_mem_requested hn
  rw [flatten_strings] at hle
  apply hserves
  omega

def okResponse : HttpResponse :=
  {
    statusCode := 200
    statusMessage := some (ascii "OK")
    body := some (ascii "hello")
    responseHeaders := [(ascii "Content-Type", ascii "text/plain")]
    keepConnected := false
  }

theorem roundTrips_iff_okResponse
    : okResponse.RoundTrips (fun _ => none) (Buffer.bufferNew fun _ => 0) := by
  have hencodable : okResponse.Encodable (ascii "OK") (ascii "hello") := by
    constructor <;> decide
  rw [roundTrips_iff _ _ _ _ hencodable _ (Buffer.bufferNew_wf fun _ => 0)]
  decide

def largeBody : List UInt8 := List.replicate 2147480000 97

def largeResponse : HttpResponse :=
  {
    statusCode := 200
    statusMessage := some (ascii "OK")
    body := some largeBody
    responseHeaders := []
    keepConnected := true
  }

def intRealloc : Realloc :=
  fun n => if n < INT_LIMIT then some fun _ => 0 else none

theorem largeResponse_encodable : largeResponse.Encodable (ascii "OK") largeBody := by
  constructor
  . rfl
  . rfl
  . decide
  . decide
  . simp [largeResponse]
  . simp [largeResponse]
  . have hbody : largeBody.length = 2147480000 := List.length_replicate
    have hjoin : (Lines.join 13 10 (largeResponse.statusLine (ascii "OK")
        :: (largeResponse.connectionHeaders largeBody ++ largeResponse.responseHeaders).map
          headerLine)).length = 36 := by
      decide
    unfold text INT_LIMIT
    rw [List.length_append, List.length_append, hbody, hjoin]
    decide

theorem not_roundTrips_largeResponse
    : largeResponse.Encodable (ascii "OK") largeBody
        ∧ ¬ largeResponse.RoundTrips intRealloc (Buffer.bufferNew fun _ => 0) := by
  refine ⟨largeResponse_encodable, ?_⟩
  intro h
  have hserved := served_of_roundTrips largeResponse_encodable (Buffer.bufferNew_wf fun _ => 0) h
  have hlengths : (largeResponse.strings (ascii "OK") largeBody).map List.length
      = [13, 2, 2, 19, 2, largeBody.length] := rfl
  rw [hlengths, largeBody, List.length_replicate] at hserved
  have hlast := hserved 2147545536 (by decide)
  simp [intRealloc, INT_LIMIT] at hlast

end HttpResponse
end NetWork
