import Mathlib.Data.List.Induction
import ByDoing.NetWork.HttpMessage

namespace NetWork

namespace HttpMessage

def stored (m : HttpMessage) : HttpRequest :=
  {
    version := some ⟨m.version ++ [0], true⟩
    method := some ⟨m.method ++ [0], true⟩
    url := some ⟨m.url ++ [0], true⟩
    currentState := .REQUEST_DONE
    requestHeaders := m.headers.map fun header => ⟨Parser.block header.fst, Parser.block header.snd⟩
    overrun := false
  }

def closes (m : HttpMessage) : Option Bool :=
  m.stored.httpRequestCloseConnection

structure Terminated (heap : Heap) (mallocs : Nat) (m : HttpMessage) : Prop where
  method : heap mallocs m.method.length = 0
  url : heap (mallocs + 1) m.url.length = 0
  version : heap (mallocs + 2) m.version.length = 0

end HttpMessage

namespace ParsedRequest

structure NoZero (q : ParsedRequest) : Prop where
  method : 0 ∉ q.method
  url : 0 ∉ q.url
  version : 0 ∉ q.version
  headers : ∀ header ∈ q.headers, 0 ∉ header.fst ∧ 0 ∉ header.snd

theorem noZero_headersOf {content : List UInt8} (hzero : 0 ∉ content)
    {headers : List (List UInt8 × List UInt8)} {e : Nat} (h : headersOf content = some (headers, e))
    : ∀ header ∈ headers, 0 ∉ header.fst ∧ 0 ∉ header.snd := by
  cases hfind : Search.find CRLF content with
  | none => simp [headersOf_of_none hfind] at h
  | some n =>
    have hlen := Search.find_add_length_le hfind
    cases hcolon : Search.find COLON (content.take n) with
    | none =>
      rw [headersOf_of_last hfind hcolon, Option.some.injEq, Prod.mk.injEq] at h
      simp [← h.left]
    | some colon =>
      rw [headersOf_of_header hfind hcolon, Option.map_eq_some_iff] at h
      obtain ⟨res, hres, heq⟩ := h
      rw [Prod.mk.injEq] at heq
      rw [← heq.left, List.forall_mem_cons]
      refine ⟨⟨?_, ?_⟩, ?_⟩
      . intro hmem
        exact hzero (List.mem_of_mem_take (List.mem_of_mem_take hmem))
      . intro hmem
        exact hzero (List.mem_of_mem_take (List.mem_of_mem_drop hmem))
      . apply noZero_headersOf _ hres
        intro hmem
        exact hzero (List.mem_of_mem_drop hmem)
termination_by content.length
decreasing_by
  simp [CRLF] at hlen ⊢
  omega

theorem noZero_ofContent {content : List UInt8} (hzero : 0 ∉ content) {q : ParsedRequest}
    (h : ofContent content = some q)
    : q.NoZero := by
  unfold ofContent at h
  dsimp only at h
  split at h
  . simp at h
  . next n _ =>
    split at h
    . simp at h
    . next methodSize _ =>
      split at h
      . simp at h
      . next urlSize _ =>
        split at h
        . simp at h
        . next headers e hheaders =>
          cases h
          have hline : 0 ∉ content.take n := fun hmem => hzero (List.mem_of_mem_take hmem)
          have hrest : 0 ∉ (content.take n).drop (methodSize + 1) :=
            fun hmem => hline (List.mem_of_mem_drop hmem)
          constructor
          . exact fun hmem => hline (List.mem_of_mem_take hmem)
          . exact fun hmem => hrest (List.mem_of_mem_take hmem)
          . exact fun hmem => hrest (List.mem_of_mem_drop hmem)
          . apply noZero_headersOf _ hheaders
            exact fun hmem => hzero (List.mem_of_mem_drop hmem)

end ParsedRequest

namespace Parser

theorem addHeaders_requestHeaders (r : HttpRequest) (headers : List (List UInt8 × List UInt8))
    : (addHeaders r headers).requestHeaders
        =
      r.requestHeaders ++ headers.map fun header => ⟨block header.fst, block header.snd⟩ := by
  induction headers generalizing r with
  | nil => simp [addHeaders]
  | cons header headers ih =>
    rw [addHeaders, List.foldl_cons]
    have := ih (r.httpRequestAddHeader (block header.fst) (block header.snd))
    rw [addHeaders] at this
    rw [this]
    simp [HttpRequest.httpRequestAddHeader]

theorem addHeaders_frame (r : HttpRequest) (headers : List (List UInt8 × List UInt8))
    : (addHeaders r headers).method = r.method ∧ (addHeaders r headers).url = r.url
        ∧ (addHeaders r headers).version = r.version := by
  induction headers generalizing r with
  | nil => exact ⟨rfl, rfl, rfl⟩
  | cons header headers ih => exact ih (r.httpRequestAddHeader (block header.fst) (block header.snd))

theorem addHeaders_overrun (r : HttpRequest) (headers : List (List UInt8 × List UInt8))
    (h : r.requestHeaders.length ≤ HttpRequest.headerCapacity)
    : (addHeaders r headers).overrun
        =
      (r.overrun || decide (HttpRequest.headerCapacity < r.requestHeaders.length + headers.length)) := by
  induction headers using List.reverseRecOn with
  | nil => simp [addHeaders, Nat.not_lt_of_le h]
  | append_singleton headers header ih =>
    have hlen := congrArg List.length (addHeaders_requestHeaders r headers)
    rw [List.length_append, List.length_map] at hlen
    have hsnoc : addHeaders r (headers ++ [header])
        = (addHeaders r headers).httpRequestAddHeader (block header.fst) (block header.snd) := by
      simp [addHeaders]
    have hlt : HttpRequest.headerCapacity < r.requestHeaders.length + headers.length
          ∨ HttpRequest.headerCapacity ≤ r.requestHeaders.length + headers.length
        ↔ HttpRequest.headerCapacity < r.requestHeaders.length + (headers.length + 1) := by
      omega
    rw [hsnoc, HttpRequest.httpRequestAddHeader, List.length_append, List.length_singleton, ih, hlen,
      Bool.or_assoc, ← Bool.decide_or]
    simp only [hlt]

theorem cString_block {s : List UInt8} (h : 0 ∉ s) : (block s).cString = some s := by
  rw [block, CharBlock.cString_append h, if_pos rfl]

theorem viewHeaders_block {headers : List (List UInt8 × List UInt8)}
    (h : ∀ header ∈ headers, 0 ∉ header.fst ∧ 0 ∉ header.snd)
    : HttpRequest.viewHeaders (headers.map fun header => ⟨block header.fst, block header.snd⟩)
        =
      some headers := by
  induction headers with
  | nil => rfl
  | cons header headers ih =>
    rw [List.forall_mem_cons] at h
    rw [List.map_cons, HttpRequest.viewHeaders, cString_block h.left.left, cString_block h.left.right,
      ih h.right]

theorem view_afterRequest (heap : Heap) (p : Parser) {q : ParsedRequest} (hq : q.NoZero)
    (hp : p.request = HttpRequest.httpRequestNew)
    : (p.afterRequest heap q).request.view
        =
      if heap p.mallocs q.method.length = 0 ∧ heap (p.mallocs + 1) q.url.length = 0
          ∧ heap (p.mallocs + 2) q.version.length = 0
          ∧ q.headers.length ≤ HttpRequest.headerCapacity then
        some { method := q.method, url := q.url, version := q.version, headers := q.headers }
      else
        none := by
  have hframe := addHeaders_frame (p.afterRequestLine heap q.method q.url q.version 0).request q.headers
  have hheaders :=
    addHeaders_requestHeaders (p.afterRequestLine heap q.method q.url q.version 0).request q.headers
  have hoverrun :=
    addHeaders_overrun (p.afterRequestLine heap q.method q.url q.version 0).request q.headers
  have hempty : (p.afterRequestLine heap q.method q.url q.version 0).request.requestHeaders = [] := by
    simp [afterRequestLine, hp, HttpRequest.httpRequestNew]
  have hfalse : (p.afterRequestLine heap q.method q.url q.version 0).request.overrun = false := by
    simp [afterRequestLine, hp, HttpRequest.httpRequestNew]
  rw [hempty] at hheaders hoverrun
  rw [hfalse] at hoverrun
  unfold HttpRequest.view afterRequest afterHeaders
  dsimp only
  rw [hframe.left, hframe.right.left, hframe.right.right, hheaders, hoverrun (Nat.zero_le _),
    List.nil_append, viewHeaders_block hq.headers]
  simp only [afterRequestLine, Option.bind_some, CharBlock.cString_append hq.method,
    CharBlock.cString_append hq.url, CharBlock.cString_append hq.version]
  by_cases hmethod : heap p.mallocs q.method.length = 0
  . by_cases hurl : heap (p.mallocs + 1) q.url.length = 0
    . by_cases hversion : heap (p.mallocs + 2) q.version.length = 0
      . by_cases hlen : q.headers.length ≤ HttpRequest.headerCapacity
        . simp [hmethod, hurl, hversion, hlen]
        . simp [hmethod, hurl, hversion, hlen, Nat.lt_of_not_le hlen]
      . simp [hversion]
    . simp [hurl]
  . simp [hmethod]

end Parser
namespace HttpServer

structure Answers (server : HttpServer) (callback : HttpRequest → HttpResponse) : Prop where
  callback_eq : server.requestCallback = some callback
  encodable : ∀ r, (callback r).keepConnected = true ∨ (callback r).body.isSome = true
  small : ∀ r ss, (callback r).encodedStrings = .ok ss → (ss.flatMap (·.getD [])).length < 2 ^ 31

def TakesAll (server : HttpServer) : Prop :=
  ∀ n size, server.write n size = .count size

end HttpServer

namespace HttpConnection

variable {server : HttpServer} {callback : HttpRequest → HttpResponse} {heap : Heap} {realloc : Realloc}

def Reads (server : HttpServer) (heap : Heap) (realloc : Realloc) (c : HttpConnection)
    (chunk : List UInt8) (c' : HttpConnection) : Prop :=
  ∃ fuel, c.handleRead server heap realloc fuel chunk = some (.ok c')

def Delivers (server : HttpServer) (heap : Heap) (realloc : Realloc) (c : HttpConnection)
    (chunks : List (List UInt8)) (c' : HttpConnection) : Prop :=
  ∃ fuel, c.deliver server heap realloc fuel chunks = some (.ok c')

theorem parseHttpRequest_mono {p : Parser} {fuel fuel' : Nat} (hle : fuel ≤ fuel')
    {res : Except HttpFault (Int × Parser)} (h : p.parseHttpRequest heap fuel = some res)
    : p.parseHttpRequest heap fuel' = some res := by
  unfold Parser.parseHttpRequest at h ⊢
  split at h
  . simp at h
  . next hrun => rw [While.run_mono hle hrun, ← h]
  . next hrun => rw [While.run_mono hle hrun, ← h]

theorem parseHttpRequest_ok {p p' : Parser} {fuel : Nat} {ok : Int}
    (h : p.parseHttpRequest heap fuel = some (.ok (ok, p')))
    : ok = 1 := by
  unfold Parser.parseHttpRequest at h
  split at h <;> simp_all

theorem handleRead_mono {c : HttpConnection} {chunk : List UInt8} {fuel fuel' : Nat} (hle : fuel ≤ fuel')
    {res : Except HttpFault HttpConnection}
    (h : c.handleRead server heap realloc fuel chunk = some res)
    : c.handleRead server heap realloc fuel' chunk = some res := by
  unfold handleRead at h ⊢
  split at h
  . exact h
  . dsimp only at h ⊢
    split at h
    . next hpos =>
      rw [if_pos hpos]
      unfold httpOnMessage at h ⊢
      dsimp only at h ⊢
      split at h
      . simp at h
      . next hparse => rw [parseHttpRequest_mono hle hparse, ← h]
      . next hparse =>
        rw [parseHttpRequest_mono hle hparse]
        exact h
    . next hpos =>
      rw [if_neg hpos]
      exact h

theorem deliver_mono {c : HttpConnection} {chunks : List (List UInt8)} {fuel fuel' : Nat}
    (hle : fuel ≤ fuel') {res : Except HttpFault HttpConnection}
    (h : c.deliver server heap realloc fuel chunks = some res)
    : c.deliver server heap realloc fuel' chunks = some res := by
  induction chunks generalizing c with
  | nil => exact h
  | cons chunk chunks ih =>
    unfold deliver at h ⊢
    split at h
    . simp at h
    . next hread => rw [handleRead_mono hle hread, ← h]
    . next hread =>
      rw [handleRead_mono hle hread]
      exact ih h

theorem delivers_nil {c c' : HttpConnection}
    : Delivers server heap realloc c [] c' ↔ c' = c := by
  unfold Delivers deliver
  simp [eq_comm]

theorem delivers_cons {c c' : HttpConnection} {chunk : List UInt8} {chunks : List (List UInt8)}
    : Delivers server heap realloc c (chunk :: chunks) c'
        ↔
      ∃ c1, Reads server heap realloc c chunk c1 ∧ Delivers server heap realloc c1 chunks c' := by
  constructor
  . intro h
    obtain ⟨fuel, h⟩ := h
    unfold deliver at h
    split at h
    . simp at h
    . simp at h
    . next c1 hread => exact ⟨c1, ⟨fuel, hread⟩, fuel, h⟩
  . intro h
    obtain ⟨c1, ⟨fuel, hread⟩, fuel', hrest⟩ := h
    refine ⟨max fuel fuel', ?_⟩
    unfold deliver
    rw [handleRead_mono (Nat.le_max_left fuel fuel') hread]
    exact deliver_mono (Nat.le_max_right fuel fuel') hrest

def responded (c : HttpConnection) (bytes : List UInt8) (close : Bool) : HttpConnection :=
  {
    parser := { c.parser with request := c.parser.request.httpRequestReset }
    conn := { c.conn with socket := c.conn.socket ++ bytes }
    closed := c.closed
    shutdown := c.shutdown || close
    overrun := c.overrun
    callbacks := c.callbacks ++ [c.parser.request.view]
    responses := c.responses ++ [bytes]
  }

theorem encode_ok (hanswers : server.Answers callback) (hrealloc : ∀ n, (realloc n).isSome = true)
    (r : HttpRequest)
    : ∃ buffer, (callback r).httpResponseEncodeBuffer realloc (Buffer.bufferNew fun _ => 0) = .ok buffer
        ∧ buffer.Wf ∧ buffer.bufferReadableSize < 2 ^ 31 := by
  have hstrings : ∃ ss, (callback r).encodedStrings = .ok ss := by
    unfold HttpResponse.encodedStrings
    cases hkeep : (callback r).keepConnected with
    | true => exact ⟨_, rfl⟩
    | false =>
      have hbody := (hanswers.encodable r).resolve_left (by simp [hkeep])
      rw [Option.isSome_iff_exists] at hbody
      obtain ⟨body, hbody⟩ := hbody
      simp [hbody]
  obtain ⟨ss, hss⟩ := hstrings
  have hsmall := hanswers.small r ss hss
  obtain ⟨buffer, hbuffer, hwf, hreadable⟩ :=
    HttpResponse.appendStrings_ok hrealloc (Buffer.bufferNew_wf fun _ => 0) ss
  refine ⟨buffer, ?_, hwf, ?_⟩
  . unfold HttpResponse.httpResponseEncodeBuffer
    rw [hss]
    exact hbuffer
  . rw [← Buffer.length_readable hwf, hreadable, Buffer.readable_bufferNew, List.nil_append]
    exact hsmall

theorem sendBuffer_eq {c : HttpConnection} (htakes : server.TakesAll) (hidle : c.conn.Idle)
    (hshutdown : c.shutdown = false) {buffer : Buffer} (hwf : buffer.Wf)
    : c.sendBuffer server realloc buffer
        = .ok { c with
          conn := { c.conn with socket := c.conn.socket ++ buffer.readable }
          responses := c.responses ++ [buffer.readable]
        } := by
  unfold sendBuffer writeResult TcpConnection.tcpConnectionSendBuffer
  rw [hshutdown]
  simp only [Bool.false_eq_true, ↓reduceIte, htakes _ _, hidle.sendData_of_count, TcpConnection.bytes_readPtr hwf]

theorem sendBuffer_of_shutdown {c : HttpConnection} (hidle : c.conn.Idle) (hshutdown : c.shutdown = true)
    {buffer : Buffer} (hsize : buffer.bufferReadableSize < 2 ^ 31)
    : c.sendBuffer server realloc buffer = .error .outOfBlock := by
  have hsend := hidle.sendData_of_ne_count realloc (TcpConnection.readPtr buffer fun _ => 0) hsize
    (Nat.zero_le _) (show WriteResult.error .EPIPE ≠ .count buffer.bufferReadableSize from nofun)
  unfold sendBuffer writeResult TcpConnection.tcpConnectionSendBuffer
  rw [hshutdown]
  simp only [↓reduceIte, hsend]

theorem respond_eq (hanswers : server.Answers callback) (hrealloc : ∀ n, (realloc n).isSome = true)
    (htakes : server.TakesAll) {c : HttpConnection} (hidle : c.conn.Idle) (hshutdown : c.shutdown = false)
    : ∃ bytes, c.respond server realloc
        =
      match c.parser.request.httpRequestCloseConnection with
      | none => .error .nullPointer
      | some close => .ok (c.responded bytes close) := by
  obtain ⟨buffer, hencode, hwf, _⟩ := encode_ok hanswers hrealloc c.parser.request
  refine ⟨buffer.readable, ?_⟩
  unfold respond callRequestCallback
  rw [hanswers.callback_eq]
  simp only [hencode, bind, Except.bind]
  have hsend := fun callbacks =>
    @sendBuffer_eq server realloc { c with callbacks } htakes hidle hshutdown buffer hwf
  rw [hsend]
  dsimp only
  cases c.parser.request.httpRequestCloseConnection with
  | none => rfl
  | some close => cases close <;> simp [pure, Except.pure, tcpConnectionShutdown, responded]

theorem respond_of_shutdown (hanswers : server.Answers callback) (hrealloc : ∀ n, (realloc n).isSome = true)
    {c : HttpConnection} (hidle : c.conn.Idle) (hshutdown : c.shutdown = true)
    : c.respond server realloc = .error .outOfBlock := by
  obtain ⟨buffer, hencode, _, hsize⟩ := encode_ok hanswers hrealloc c.parser.request
  unfold respond callRequestCallback
  rw [hanswers.callback_eq]
  simp only [hencode, bind, Except.bind]
  have hsend := fun callbacks =>
    @sendBuffer_of_shutdown server realloc { c with callbacks } hidle hshutdown buffer hsize
  rw [hsend]

-- What is left of a connection when it has answered a request.
structure Responded (server : HttpServer) (c c' : HttpConnection) : Prop where
  request_eq : c'.parser.request = c.parser.request.httpRequestReset
  overrun_eq : c'.overrun = c.overrun
  callbacks_eq : c'.callbacks = (c.callRequestCallback server).fst.callbacks

theorem responded_of_respond {c c' : HttpConnection} (h : c.respond server realloc = .ok c')
    : Responded server c c' := by
  have hcall : (c.callRequestCallback server).fst.parser = c.parser
      ∧ (c.callRequestCallback server).fst.overrun = c.overrun := by
    unfold callRequestCallback
    split <;> exact ⟨rfl, rfl⟩
  unfold respond at h
  generalize hcallback : c.callRequestCallback server = res at h hcall
  obtain ⟨c₁, response⟩ := res
  dsimp only at h hcall
  obtain ⟨buffer, _, h⟩ := Run.bind_eq_ok_iff.mp h
  obtain ⟨c₂, hsend, h⟩ := Run.bind_eq_ok_iff.mp h
  have hsent : c₂.parser = c₁.parser ∧ c₂.overrun = c₁.overrun ∧ c₂.callbacks = c₁.callbacks := by
    unfold sendBuffer at hsend
    dsimp only at hsend
    split at hsend
    . cases hsend
    . cases hsend
      exact ⟨rfl, rfl, rfl⟩
  obtain ⟨hparser, hoverrun, hcallbacks⟩ := hsent
  split at h
  . cases h
  . next close _ =>
    cases h
    constructor
    . rw [← hcall.left, ← hparser]
      cases close <;> rfl
    . rw [← hcall.right, ← hoverrun]
      cases close <;> rfl
    . rw [hcallback, ← hcallbacks]
      cases close <;> rfl

theorem reads_cases {c c' : HttpConnection} {chunk : List UInt8} (h : Reads server heap realloc c chunk c')
    : ∃ input, c.parser.input.bufferSocketRead realloc chunk = some input
        ∧ ((chunk.length = 0 ∧ c' = { c with parser := { c.parser with input }, closed := true })
          ∨ (0 < chunk.length ∧ ∃ q, Parser.Returns heap { c.parser with input } q
              ∧ { c with parser := q, overrun := c.overrun || q.request.overruns }.respond server realloc = .ok c')) := by
  obtain ⟨fuel, h⟩ := h
  unfold handleRead at h
  split at h
  . simp at h
  . next input hinput =>
    refine ⟨input, hinput, ?_⟩
    dsimp only at h
    split at h
    . next hpos =>
      refine .inr ⟨hpos, ?_⟩
      unfold httpOnMessage at h
      dsimp only at h
      split at h
      . simp at h
      . simp at h
      . next ok q hparse =>
        have hok := parseHttpRequest_ok hparse
        subst hok
        have hends := Parser.returns_iff_ends.mp ⟨fuel, hparse⟩
        have hcond := hends.reaches.right
        rw [Bool.not_eq_false'] at hcond
        rw [if_neg (by decide)] at h
        dsimp only at h
        rw [if_pos hcond, Option.some.injEq] at h
        exact ⟨q, ⟨fuel, hparse⟩, h⟩
    . next hzero =>
      simp only [Option.some.injEq, Except.ok.injEq] at h
      exact .inl ⟨by omega, h.symm⟩

structure Extends (c c' : HttpConnection) : Prop where
  callbacks_prefix : c.callbacks <+: c'.callbacks
  shutdown_keeps : c.conn.Idle → c.shutdown = true →
    c'.conn.Idle ∧ c'.shutdown = true ∧ c'.callbacks = c.callbacks

theorem extends_of_reads (hanswers : server.Answers callback)
    (hrealloc : ∀ n, (realloc n).isSome = true) {c c' : HttpConnection} {chunk : List UInt8}
    (h : Reads server heap realloc c chunk c')
    : c.Extends c' := by
  obtain ⟨input, _, ⟨_, rfl⟩ | ⟨_, q, _, hrespond⟩⟩ := reads_cases h
  . exact ⟨List.prefix_rfl, fun hidle hshutdown => ⟨hidle, hshutdown, rfl⟩⟩
  . constructor
    . rw [(responded_of_respond hrespond).callbacks_eq]
      unfold callRequestCallback
      rw [hanswers.callback_eq]
      apply List.prefix_append
    . intro hidle hshutdown
      have hstops := @respond_of_shutdown server callback realloc hanswers hrealloc
        { c with parser := q, overrun := c.overrun || q.request.overruns } hidle hshutdown
      rw [hstops] at hrespond
      cases hrespond

theorem extends_of_delivers (hanswers : server.Answers callback)
    (hrealloc : ∀ n, (realloc n).isSome = true) {c c' : HttpConnection} {chunks : List (List UInt8)}
    (h : Delivers server heap realloc c chunks c')
    : c.Extends c' := by
  induction chunks generalizing c with
  | nil =>
    rw [delivers_nil] at h
    subst h
    exact ⟨List.prefix_rfl, fun hidle hshutdown => ⟨hidle, hshutdown, rfl⟩⟩
  | cons chunk chunks ih =>
    rw [delivers_cons] at h
    obtain ⟨c1, hread, hrest⟩ := h
    have hfirst := extends_of_reads hanswers hrealloc hread
    have hothers := ih hrest
    constructor
    . exact hfirst.callbacks_prefix.trans hothers.callbacks_prefix
    . intro hidle hshutdown
      obtain ⟨hidle1, hshutdown1, hcallbacks1⟩ := hfirst.shutdown_keeps hidle hshutdown
      obtain ⟨hidle', hshutdown', hcallbacks'⟩ := hothers.shutdown_keeps hidle1 hshutdown1
      exact ⟨hidle', hshutdown', hcallbacks'.trans hcallbacks1⟩

structure Ready (c : HttpConnection) (mallocs : Nat) (left : List UInt8) : Prop where
  wf : c.parser.input.Wf
  readable_eq : c.parser.input.readable = left
  request_eq : c.parser.request = HttpRequest.httpRequestNew
  mallocs_eq : c.parser.mallocs = mallocs
  idle : c.conn.Idle

theorem ready_httpOnConnectionCompleted (fd : Int) (garbage : Nat → UInt8)
    : (httpOnConnectionCompleted fd garbage).Ready 0 [] := by
  constructor
  . apply Buffer.bufferNew_wf
  . apply Buffer.readable_bufferNew
  . rfl
  . rfl
  . exact TcpConnection.idle_tcpConnectionNew fd garbage

def afterMessage (heap : Heap) (c : HttpConnection) (input : Buffer) (q : ParsedRequest)
    : HttpConnection :=
  let parser := { c.parser with input }.afterRequest heap q
  { c with parser, overrun := c.overrun || parser.request.overruns }

theorem httpOnMessage_iff {c c' : HttpConnection} (hzero : 0 ∉ c.parser.input.readable)
    (hstate : c.parser.request.currentState = .REQUEST_STATUS)
    : (∃ fuel, c.httpOnMessage server heap realloc fuel = some (.ok c'))
        ↔
      ∃ q, ParsedRequest.ofContent c.parser.input.readable = some q
        ∧ (c.afterMessage heap c.parser.input q).respond server realloc = .ok c' := by
  have hiff := fun p' => @Parser.returns_iff_ofContent heap c.parser p' hstate hzero
  constructor
  . intro h
    obtain ⟨fuel, h⟩ := h
    unfold httpOnMessage at h
    split at h
    . simp at h
    . simp at h
    . next ok p hparse =>
      have hok := parseHttpRequest_ok hparse
      subst hok
      obtain ⟨q, hq, hp⟩ := (hiff p).mp ⟨fuel, hparse⟩
      subst hp
      exact ⟨q, hq, by simpa [afterMessage, Parser.isDone, Parser.afterRequest, Parser.afterHeaders] using h⟩
  . intro h
    obtain ⟨q, hq, hrespond⟩ := h
    obtain ⟨fuel, hparse⟩ := (hiff _).mpr ⟨q, hq, rfl⟩
    refine ⟨fuel, ?_⟩
    unfold httpOnMessage
    rw [hparse]
    simpa [afterMessage, Parser.isDone, Parser.afterRequest, Parser.afterHeaders] using hrespond

theorem reads_iff (server : HttpServer) (heap : Heap) (hrealloc : ∀ n, (realloc n).isSome = true) {c : HttpConnection} {mallocs : Nat}
    {left chunk : List UInt8} (hready : c.Ready mallocs left) (hchunk : chunk ≠ [])
    (hzero : 0 ∉ left ++ chunk)
    : ∃ input : Buffer, input.Wf ∧ input.readable = left ++ chunk
        ∧ ∀ c', Reads server heap realloc c chunk c'
            ↔ ∃ q, ParsedRequest.ofContent (left ++ chunk) = some q
                ∧ (c.afterMessage heap input q).respond server realloc = .ok c' := by
  obtain ⟨input, hread, hwf, hreadable⟩ :=
    Buffer.bufferSocketRead_spec realloc hready.wf chunk (fun _ => .inr (hrealloc _))
  rw [hready.readable_eq] at hreadable
  refine ⟨input, hwf, hreadable, ?_⟩
  intro c'
  have hpos : 0 < chunk.length := List.length_pos_iff.mpr hchunk
  have hmessage := @httpOnMessage_iff server heap realloc { c with parser := { c.parser with input } } c'
    (by dsimp only; rw [hreadable]; exact hzero) (by dsimp only; rw [hready.request_eq]; rfl)
  dsimp only at hmessage
  rw [hreadable] at hmessage
  unfold Reads handleRead
  rw [hread]
  simp only [hpos, ↓reduceIte]
  exact hmessage

structure Handles (heap : Heap) (mallocs : Nat) (pre : List UInt8) (m : HttpMessage) : Prop where
  covered : m.head.length ≤ pre.length
  spaced : ∀ f ∈ m.fields, f.isSpaced = true
  few : m.fields.length ≤ HttpRequest.headerCapacity
  terminated : m.Terminated heap mallocs

structure Handled (c c' : HttpConnection) (m : HttpMessage) (close : Bool) : Prop where
  callbacks_eq : c'.callbacks = c.callbacks ++ [some m.view]
  shutdown_eq : c'.shutdown = (c.shutdown || close)
  responses_eq : c'.responses.length = c.responses.length + 1

theorem request_afterMessage {c : HttpConnection} {mallocs : Nat} {left pre : List UInt8} {m : HttpMessage}
    (hready : c.Ready mallocs left) (h : Handles heap mallocs pre m) (input : Buffer)
    : (c.afterMessage heap input m.parsed).parser.request = m.stored := by
  have hlength : m.headers.length = m.fields.length := by simp [HttpMessage.headers]
  have hfew : ¬ HttpRequest.headerCapacity < m.fields.length := Nat.not_lt_of_le h.few
  have hframe := Parser.addHeaders_frame
    ({ c.parser with input }.afterRequestLine heap m.method m.url m.version 0).request m.headers
  have hheaders := Parser.addHeaders_requestHeaders
    ({ c.parser with input }.afterRequestLine heap m.method m.url m.version 0).request m.headers
  have hoverrun := Parser.addHeaders_overrun
    ({ c.parser with input }.afterRequestLine heap m.method m.url m.version 0).request m.headers
  simp only [Parser.afterRequestLine, hready.request_eq, hready.mallocs_eq, h.terminated.method,
    h.terminated.url, h.terminated.version, HttpRequest.httpRequestNew, List.nil_append, List.length_nil,
    Nat.zero_le, Nat.zero_add, forall_const, Bool.false_or, hlength, hfew, decide_false]
    at hframe hheaders hoverrun
  simp only [afterMessage, HttpMessage.parsed, Parser.afterRequest, Parser.afterHeaders,
    Parser.afterRequestLine, hready.request_eq, hready.mallocs_eq, h.terminated.method,
    h.terminated.url, h.terminated.version, HttpRequest.httpRequestNew, hframe, hheaders, hoverrun,
    HttpMessage.stored]

theorem noZero_parsed {m : HttpMessage} (hwf : m.Wf) : m.parsed.NoZero := by
  constructor
  . exact HttpMessage.not_mem_of_isToken hwf.method_isToken (by simp)
  . exact HttpMessage.not_mem_of_isToken hwf.url_isToken (by simp)
  . exact HttpMessage.not_mem_of_isToken hwf.version_isToken (by simp)
  . intro header hmem
    simp only [HttpMessage.parsed, HttpMessage.headers, List.mem_map] at hmem
    obtain ⟨f, hf, heq⟩ := hmem
    subst heq
    have hrest : 0 ∉ f.rest := fun hmem => (hwf.fields_wf f hf).rest_bytes 0 hmem (by simp)
    constructor
    . intro hmem
      exact (hwf.fields_wf f hf).key_bytes 0 hmem (by simp)
    . unfold Field.value
      split
      . exact fun hmem => hrest (List.mem_of_mem_tail hmem)
      . exact hrest

theorem view_stored {m : HttpMessage} (hwf : m.Wf) : m.stored.view = some m.view := by
  obtain ⟨hmethod, hurl, hversion, hheaders⟩ := noZero_parsed hwf
  dsimp only [HttpMessage.parsed] at hmethod hurl hversion hheaders
  unfold HttpRequest.view HttpMessage.stored
  dsimp only
  rw [Parser.viewHeaders_block hheaders]
  simp only [Option.bind_some, CharBlock.cString_append hmethod, CharBlock.cString_append hurl,
    CharBlock.cString_append hversion]
  rfl

theorem input_responded (c : HttpConnection) (input : Buffer) (q : ParsedRequest) (bytes : List UInt8)
    (close : Bool)
    : ((c.afterMessage heap input q).responded bytes close).parser.input = input.advance q.consumed := by
  simp [responded, afterMessage, Parser.afterRequest, Parser.afterHeaders, Parser.afterRequestLine]

theorem handled_responded {c : HttpConnection} {mallocs : Nat} {left pre : List UInt8} {m : HttpMessage}
    (hwf : m.Wf) (hready : c.Ready mallocs left) (h : Handles heap mallocs pre m) {input : Buffer}
    (hinput : input.Wf) (hreadable : input.readable = pre) (bytes : List UInt8) (close : Bool)
    : ((c.afterMessage heap input m.parsed).responded bytes close).Ready
          (mallocs + (3 + 2 * m.fields.length)) (pre.drop m.head.length)
        ∧ Handled c ((c.afterMessage heap input m.parsed).responded bytes close) m close := by
  have hrequest := request_afterMessage hready h input
  constructor
  . constructor
    . rw [input_responded]
      apply Buffer.advance_wf hinput
      rw [← Buffer.length_readable hinput, hreadable]
      exact h.covered
    . rw [input_responded, Buffer.readable_advance, hreadable]
      rfl
    . dsimp only [responded]
      rw [hrequest]
      rfl
    . simp [responded, afterMessage, Parser.afterRequest, Parser.afterHeaders, Parser.afterRequestLine,
        HttpMessage.parsed, HttpMessage.headers, hready.mallocs_eq, Nat.add_assoc]
    . exact hready.idle.setSocket _
  . constructor
    . dsimp only [responded]
      rw [hrequest, view_stored hwf]
      rfl
    . rfl
    . simp [responded, afterMessage]

section Message

variable {c c' : HttpConnection} {mallocs : Nat} {left chunk rest : List UInt8} {m : HttpMessage}

theorem reads_of_handles (hanswers : server.Answers callback)
    (hrealloc : ∀ n, (realloc n).isSome = true) (htakes : server.TakesAll) (hwf : m.Wf)
    (hready : c.Ready mallocs left) (hshutdown : c.shutdown = false) (hchunk : chunk ≠ []) (hzero : 0 ∉ left ++ chunk) (hpre : left ++ chunk <+: m.head ++ rest)
    (h : Handles heap mallocs (left ++ chunk) m) {close : Bool} (hclose : m.closes = some close)
    : ∃ c', Reads server heap realloc c chunk c'
        ∧ c'.Ready (mallocs + (3 + 2 * m.fields.length)) ((left ++ chunk).drop m.head.length)
        ∧ Handled c c' m close := by
  obtain ⟨input, hinput, hreadable, hreads⟩ :=
    reads_iff server heap hrealloc hready hchunk hzero
  obtain ⟨hparsed, _⟩ := (HttpMessage.ofContent_iff hwf hpre).mpr ⟨h.covered, h.spaced, rfl⟩
  have hidle : (c.afterMessage heap input m.parsed).conn.Idle := hready.idle
  obtain ⟨bytes, hrespond⟩ := respond_eq hanswers hrealloc htakes hidle hshutdown
  rw [request_afterMessage hready h, show m.stored.httpRequestCloseConnection = some close from hclose]
    at hrespond
  refine ⟨_, (hreads _).mpr ⟨m.parsed, hparsed, hrespond⟩, ?_⟩
  exact handled_responded hwf hready h hinput hreadable bytes close

theorem handles_of_reads (hanswers : server.Answers callback)
    (hrealloc : ∀ n, (realloc n).isSome = true) (htakes : server.TakesAll) (hwf : m.Wf)
    (hready : c.Ready mallocs left) (hshutdown : c.shutdown = false) (hchunk : chunk ≠ []) (hzero : 0 ∉ left ++ chunk) (hpre : left ++ chunk <+: m.head ++ rest)
    (h : Reads server heap realloc c chunk c') {views : List (Option HttpRequest.View)}
    (hview : c'.callbacks <+: c.callbacks ++ some m.view :: views)
    : Handles heap mallocs (left ++ chunk) m
        ∧ ∃ close, m.closes = some close
            ∧ c'.Ready (mallocs + (3 + 2 * m.fields.length)) ((left ++ chunk).drop m.head.length)
            ∧ Handled c c' m close := by
  obtain ⟨input, hinput, hreadable, hreads⟩ :=
    reads_iff server heap hrealloc hready hchunk hzero
  rw [hreads] at h
  obtain ⟨q, hq, hrespond⟩ := h
  have hidle : (c.afterMessage heap input q).conn.Idle := hready.idle
  obtain ⟨bytes, hrespond'⟩ := respond_eq hanswers hrealloc htakes hidle hshutdown
  rw [hrespond'] at hrespond
  split at hrespond
  . simp at hrespond
  . next close hclose =>
    rw [Except.ok.injEq] at hrespond
    subst hrespond
    have hviewq := Parser.view_afterRequest heap { c.parser with input }
      (ParsedRequest.noZero_ofContent hzero hq) hready.request_eq
    have hsame : (c.afterMessage heap input q).parser.request.view = some m.view := by
      rw [responded, show (c.afterMessage heap input q).callbacks = c.callbacks from rfl,
        List.prefix_append_right_inj, List.cons_prefix_cons] at hview
      exact hview.left
    rw [afterMessage, hviewq] at hsame
    dsimp only at hsame
    split at hsame
    . next hterminated =>
      rw [Option.some.injEq, HttpMessage.view, HttpRequest.View.mk.injEq] at hsame
      obtain ⟨_, _, _, hheaders⟩ := hsame
      obtain ⟨hcovered, hspaced, hparsed⟩ := (HttpMessage.ofContent_iff hwf hpre).mp ⟨hq, hheaders⟩
      subst hparsed
      obtain ⟨hmethod, hurl, hversion, hfew⟩ := hterminated
      rw [hready.mallocs_eq] at hmethod hurl hversion
      have hhandles : Handles heap mallocs (left ++ chunk) m := by
        constructor
        . exact hcovered
        . exact hspaced
        . simpa [HttpMessage.parsed, HttpMessage.headers] using hfew
        . exact ⟨hmethod, hurl, hversion⟩
      rw [request_afterMessage hready hhandles] at hclose
      exact ⟨hhandles, close, hclose, handled_responded hwf hready hhandles hinput hreadable bytes close⟩
    . simp at hsame

end Message

end HttpConnection
end NetWork
