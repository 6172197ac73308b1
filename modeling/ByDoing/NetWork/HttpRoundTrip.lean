import ByDoing.NetWork.HttpHandling

namespace NetWork

structure SentRequest where
  method : List UInt8
  url : List UInt8
  version : List UInt8
  headers : List (List UInt8 × List UInt8)
  deriving Repr, DecidableEq

namespace SentRequest

def requestLine (m : SentRequest) : List UInt8 :=
  m.method ++ SP ++ (m.url ++ SP ++ m.version)

def headerLine (header : List UInt8 × List UInt8) : List UInt8 :=
  header.fst ++ COLON ++ header.snd

def headerLines (headers : List (List UInt8 × List UInt8)) : List UInt8 :=
  headers.flatMap fun header => headerLine header ++ CRLF

def serialise (m : SentRequest) : List UInt8 :=
  m.requestLine ++ CRLF ++ (headerLines m.headers ++ CRLF)

structure Wf (m : SentRequest) : Prop where
  method_bytes : ∀ b ∈ m.method, b ∉ [32, 13, 10, 0]
  url_bytes : ∀ b ∈ m.url, b ∉ [32, 13, 10, 0]
  version_bytes : ∀ b ∈ m.version, b ∉ [32, 13, 10, 0]
  headers_length : m.headers.length ≤ INIT_REQUEST_HEADER_SIZE
  key_pattern : ∀ header ∈ m.headers, ¬ COLON <:+: header.fst
  key_bytes : ∀ header ∈ m.headers, ∀ b ∈ header.fst, b ∉ [13, 10, 0]
  value_bytes : ∀ header ∈ m.headers, ∀ b ∈ header.snd, b ∉ [13, 10, 0]

def parsed (m : SentRequest) : ParsedRequest :=
  {
    method := m.method
    url := m.url
    version := m.version
    headers := m.headers
    consumed := m.serialise.length
  }

def Holds (block : Option CharBlock) (s : List UInt8) : Prop :=
  ∃ b, block = some b ∧ b.cString = some s ∧ b.overrun = false

def RoundTrips (heap : Heap) (p : Parser) (m : SentRequest) : Prop :=
  ∃ p', Parser.Returns heap p p'
    ∧ p'.request.currentState = .REQUEST_DONE
    ∧ Holds p'.request.method m.method
    ∧ Holds p'.request.url m.url
    ∧ Holds p'.request.version m.version
    ∧ HttpRequest.viewHeaders p'.request.requestHeaders = some m.headers
    ∧ (∀ h ∈ p'.request.requestHeaders, h.key.overrun = false ∧ h.value.overrun = false)
    ∧ p'.request.overrun = false
    ∧ p'.input.readIndex = p.input.readIndex + m.serialise.length

section Parsing

variable {m : SentRequest}

theorem not_mem_headerLine {header : List UInt8 × List UInt8} {b : UInt8}
    (hkey : b ∉ header.fst) (hvalue : b ∉ header.snd) (hb : b ∈ [13, 10, 0])
    : b ∉ headerLine header := by
  have hcolon : b ∉ COLON := by
    intro hmem
    simp [COLON] at hmem hb
    rcases hmem with rfl | rfl <;> simp at hb
  simp [headerLine, hkey, hvalue, hcolon]

theorem headersOf_headerLines {headers : List (List UInt8 × List UInt8)}
    (hpattern : ∀ header ∈ headers, ¬ COLON <:+: header.fst)
    (hkey : ∀ header ∈ headers, 13 ∉ header.fst) (hvalue : ∀ header ∈ headers, 13 ∉ header.snd)
    : ParsedRequest.headersOf (headerLines headers ++ CRLF)
        =
      some (headers, (headerLines headers).length + 2) := by
  induction headers with
  | nil =>
    have hfind : Search.find CRLF CRLF = some 0 := by decide
    simpa [headerLines] using ParsedRequest.headersOf_of_last hfind (by decide)
  | cons header headers ih =>
    rw [List.forall_mem_cons] at hpattern hkey hvalue
    have hlines : headerLines (header :: headers) ++ CRLF
        = headerLine header ++ CRLF ++ (headerLines headers ++ CRLF) := by
      simp [headerLines]
    have hcr : 13 ∉ headerLine header := not_mem_headerLine hkey.left hvalue.left (by simp)
    obtain ⟨hfind, htake, _⟩ :=
      find_CRLF_of_covered hcr (List.prefix_refl (headerLine header ++ CRLF ++ (headerLines headers ++ CRLF)))
        (by simp [CRLF])
    have hdrop : (headerLine header ++ CRLF ++ (headerLines headers ++ CRLF)).drop
        ((headerLine header).length + 2) = headerLines headers ++ CRLF := by
      rw [show (headerLine header).length + 2 = (headerLine header ++ CRLF).length by simp [CRLF],
        List.drop_left]
    have hcolon : Search.find COLON (headerLine header) = some header.fst.length :=
      Search.find_pair_append_of_not_infix (by decide) _ hpattern.left
    rw [hlines, ParsedRequest.headersOf_of_header hfind (by rw [htake]; exact hcolon), hdrop,
      ih hpattern.right hkey.right hvalue.right, htake]
    simp [headerLine, headerLines, COLON, CRLF]
    omega

theorem not_mem_requestLine (hwf : m.Wf) {b : UInt8} (hb : b ∈ [13, 10, 0]) : b ∉ m.requestLine := by
  have hb' : b ∈ [32, 13, 10, 0] := List.mem_cons_of_mem 32 hb
  have hsp : b ∉ SP := by
    intro hmem
    simp [SP] at hmem hb
    subst hmem
    simp at hb
  have hmethod : b ∉ m.method := fun hmem => hwf.method_bytes b hmem hb'
  have hurl : b ∉ m.url := fun hmem => hwf.url_bytes b hmem hb'
  have hversion : b ∉ m.version := fun hmem => hwf.version_bytes b hmem hb'
  simp [requestLine, hmethod, hurl, hversion, hsp]

theorem not_mem_serialise (hwf : m.Wf) : 0 ∉ m.serialise := by
  intro hmem
  simp only [serialise, headerLines, List.mem_append, List.mem_flatMap] at hmem
  rcases hmem with (hmem | hmem) | ⟨header, hheader, hmem | hmem⟩ | hmem
  . exact not_mem_requestLine hwf (by simp) hmem
  . simp [CRLF] at hmem
  . refine not_mem_headerLine ?_ ?_ (by simp) hmem
    . exact fun hkey => hwf.key_bytes header hheader 0 hkey (by simp)
    . exact fun hvalue => hwf.value_bytes header hheader 0 hvalue (by simp)
  . simp [CRLF] at hmem
  . simp [CRLF] at hmem

theorem ofContent_serialise (hwf : m.Wf) : ParsedRequest.ofContent m.serialise = some m.parsed := by
  have hcr : 13 ∉ m.requestLine := not_mem_requestLine hwf (by simp)
  have hmethod : 32 ∉ m.method := fun hmem => hwf.method_bytes 32 hmem (by simp)
  have hurl : 32 ∉ m.url := fun hmem => hwf.url_bytes 32 hmem (by simp)
  obtain ⟨hfind, htake, _⟩ :=
    find_CRLF_of_covered hcr (List.prefix_refl (m.requestLine ++ CRLF ++ (headerLines m.headers ++ CRLF)))
      (by simp [CRLF])
  have hdrop : m.serialise.drop (m.requestLine.length + 2) = headerLines m.headers ++ CRLF := by
    rw [serialise, show m.requestLine.length + 2 = (m.requestLine ++ CRLF).length by simp [CRLF],
      List.drop_left]
  obtain ⟨hfindMethod, hmethodTake, hmethodDrop⟩ : Search.find SP m.requestLine = _ ∧ _ :=
    find_SP_append hmethod (m.url ++ SP ++ m.version)
  obtain ⟨hfindUrl, hurlTake, hurlDrop⟩ := find_SP_append hurl m.version
  rw [← requestLine] at hmethodTake hmethodDrop
  have hheaders := headersOf_headerLines hwf.key_pattern
    (fun header hheader hmem => hwf.key_bytes header hheader 13 hmem (by simp))
    (fun header hheader hmem => hwf.value_bytes header hheader 13 hmem (by simp))
  rw [← serialise] at hfind htake
  unfold ParsedRequest.ofContent
  simp only [hfind, htake, hfindMethod, hmethodTake, hmethodDrop, hfindUrl, hurlTake, hurlDrop, hdrop,
    hheaders, parsed]
  simp [serialise, CRLF]
  omega

variable {heap : Heap} {p : Parser}

theorem returns_serialise (hwf : m.Wf) (hnew : p.request = HttpRequest.httpRequestNew)
    (hcontent : p.input.readable = m.serialise) {p' : Parser}
    : Parser.Returns heap p p' ↔ p' = p.afterRequest heap m.parsed := by
  have hzero : 0 ∉ p.input.readable := by
    rw [hcontent]
    exact not_mem_serialise hwf
  rw [Parser.returns_iff_ofContent (by rw [hnew]; rfl) hzero, hcontent, ofContent_serialise hwf]
  simp

theorem not_holds_of_overrun {bytes s : List UInt8} : ¬ Holds (some ⟨bytes, true⟩) s := by
  intro h
  obtain ⟨b, hb, _, hoverrun⟩ := h
  rw [Option.some.injEq] at hb
  subst hb
  simp at hoverrun

structure Recovered (heap : Heap) (p : Parser) (m : SentRequest) (p' : Parser) : Prop where
  isDone : p'.isDone = true
  method_eq : p'.request.method = some ⟨m.method ++ [heap p.mallocs m.method.length], true⟩
  url_eq : p'.request.url = some ⟨m.url ++ [heap (p.mallocs + 1) m.url.length], true⟩
  version_eq : p'.request.version = some ⟨m.version ++ [heap (p.mallocs + 2) m.version.length], true⟩
  headers_eq : HttpRequest.viewHeaders p'.request.requestHeaders = some m.headers
  overrun_eq : p'.request.overrun = false
  readIndex_eq : p'.input.readIndex = p.input.readIndex + m.serialise.length

theorem recovered_afterRequest (hwf : m.Wf) (hnew : p.request = HttpRequest.httpRequestNew)
    : Recovered heap p m (p.afterRequest heap m.parsed) := by
  have hframe := Parser.addHeaders_frame
    (p.afterRequestLine heap m.method m.url m.version 0).request m.headers
  have hheaders := Parser.addHeaders_requestHeaders
    (p.afterRequestLine heap m.method m.url m.version 0).request m.headers
  have hempty : (p.afterRequestLine heap m.method m.url m.version 0).request.requestHeaders = [] := by
    simp [Parser.afterRequestLine, hnew, HttpRequest.httpRequestNew]
  have hoverrun := Parser.addHeaders_overrun
    (p.afterRequestLine heap m.method m.url m.version 0).request m.headers (by simp [hempty])
  rw [hempty] at hheaders hoverrun
  constructor
  . rfl
  . exact hframe.left
  . exact hframe.right.left
  . exact hframe.right.right
  . unfold Parser.afterRequest Parser.afterHeaders
    dsimp only [parsed]
    rw [hheaders, List.nil_append]
    apply Parser.viewHeaders_block
    intro header hheader
    constructor
    . exact fun hmem => hwf.key_bytes header hheader 0 hmem (by simp)
    . exact fun hmem => hwf.value_bytes header hheader 0 hmem (by simp)
  . have hlen := hwf.headers_length
    unfold Parser.afterRequest Parser.afterHeaders
    dsimp only [parsed]
    rw [hoverrun]
    have hfew : ¬ HttpRequest.headerCapacity < m.headers.length := by
      have hcapacity : INIT_REQUEST_HEADER_SIZE ≤ HttpRequest.headerCapacity := by decide
      omega
    simp [Parser.afterRequestLine, hnew, HttpRequest.httpRequestNew, hfew]
  . rfl

theorem not_roundTrips_of_wf (hwf : m.Wf) (hnew : p.request = HttpRequest.httpRequestNew)
    (hcontent : p.input.readable = m.serialise)
    : ¬ RoundTrips heap p m := by
  intro h
  obtain ⟨p', hreturns, _, hmethod, _⟩ := h
  rw [returns_serialise hwf hnew hcontent] at hreturns
  subst hreturns
  rw [(recovered_afterRequest hwf hnew).method_eq] at hmethod
  exact not_holds_of_overrun hmethod

end Parsing

theorem not_roundTrips (heap : Heap) (p : Parser) (m : SentRequest) (hwf : m.Wf)
    (hnew : p.request = HttpRequest.httpRequestNew) (hcontent : p.input.readable = m.serialise)
    : ¬ RoundTrips heap p m ∧ ∃ p', Parser.Returns heap p p' ∧ Recovered heap p m p' := by
  constructor
  . exact not_roundTrips_of_wf hwf hnew hcontent
  . exact ⟨_, (returns_serialise hwf hnew hcontent).mpr rfl, recovered_afterRequest hwf hnew⟩

def getHost : SentRequest :=
  {
    method := ascii "GET"
    url := ascii "/"
    version := ascii "HTTP/1.1"
    headers := [(ascii "Host", ascii "x")]
  }

theorem not_mem_of_all {bytes bad : List UInt8} (h : (bytes.all fun b => !bad.contains b) = true)
    : ∀ b ∈ bytes, b ∉ bad := by
  intro b hb
  have hnot := List.all_eq_true.mp h b hb
  simpa using hnot

theorem getHost_wf : getHost.Wf := by
  constructor
  . apply not_mem_of_all
    decide
  . apply not_mem_of_all
    decide
  . apply not_mem_of_all
    decide
  . decide
  . decide
  . intro header hheader
    cases List.mem_singleton.mp hheader
    apply not_mem_of_all
    decide
  . intro header hheader
    cases List.mem_singleton.mp hheader
    apply not_mem_of_all
    decide

theorem not_roundTrips_getHost
    : ∃ input, (Buffer.bufferNew fun _ => 0).bufferSocketRead (fun _ => none) getHost.serialise = some input
        ∧ (¬ RoundTrips (fun _ _ => 0) { input, request := HttpRequest.httpRequestNew, mallocs := 0 } getHost
          ∧ ∃ p', Parser.Returns (fun _ _ => 0)
              { input, request := HttpRequest.httpRequestNew, mallocs := 0 } p'
            ∧ Recovered (fun _ _ => 0)
              { input, request := HttpRequest.httpRequestNew, mallocs := 0 } getHost p') := by
  obtain ⟨input, hread, hreadable⟩ := Parser.exists_received getHost.serialise (by decide)
  exact ⟨input, hread, not_roundTrips _ _ getHost getHost_wf rfl hreadable⟩

-- The terminator of the method's three bytes is stored at index 4 of a block of 4 bytes.
theorem method_overrun_getHost
    : ∃ input, (Buffer.bufferNew fun _ => 0).bufferSocketRead (fun _ => none) getHost.serialise = some input
        ∧ ¬ RoundTrips (fun _ _ => 255)
              { input, request := HttpRequest.httpRequestNew, mallocs := 0 } getHost := by
  obtain ⟨input, hread, hreadable⟩ := Parser.exists_received getHost.serialise (by decide)
  exact ⟨input, hread, not_roundTrips_of_wf getHost_wf rfl hreadable⟩

end SentRequest
end NetWork
