import ByDoing.Lib.Search
import ByDoing.Lib.While
import ByDoing.NetWork.HttpResponse
import ByDoing.NetWork.TcpConnection

/-!
This module contains the request parser and the message callback of `http_server.c`. `heap i` is what
`malloc` leaves in the `i`-th block that the parser of a connection asks for. The parser's loop gets
`fuel`, as it does not end on every input. A connection keeps a record of what it has done: whether its
parser has stored outside of a block, how the request looked in each call of `requestCallback`, and the
responses that its socket has taken.
-/

namespace NetWork

abbrev Heap := Nat → Nat → UInt8

def SP : List UInt8 := [32]
def COLON : List UInt8 := [58, 32]
def CRLF : List UInt8 := [13, 10]

def Buffer.bufferFindCRLF (b : Buffer) : Option Nat :=
  Search.find CRLF b.readable

structure Parser where
  input : Buffer
  request : HttpRequest
  mallocs : Nat

namespace Parser

def isDone (p : Parser) : Bool :=
  p.request.currentState == .REQUEST_DONE

def processStatusLine (heap : Heap) (line : List UInt8) (p : Parser) : Except HttpFault (Nat × Parser) :=
  match Search.find SP line with
  | none => .error .assertFailed
  | some methodSize =>
    let method := line.take methodSize
    let line' := line.drop (methodSize + 1)
    match Search.find SP line' with
    | none => .error .assertFailed
    | some urlSize =>
      let url := line'.take urlSize
      let version := line'.drop (urlSize + 1)
      let copy := fun (i : Nat) (src : List UInt8) =>
        CharBlock.copyString (heap (p.mallocs + i)) src (src.length + 1)
      let request :=
        { p.request with
          method := some (copy 0 method)
          url := some (copy 1 url)
          version := some (copy 2 version)
        }
      .ok (line.length, { p with request, mallocs := p.mallocs + 3 })

def processHeaderLine (heap : Heap) (line : List UInt8) (p : Parser) : Parser :=
  match Search.find COLON line with
  | some colon =>
    let key := line.take colon
    let value := line.drop (colon + 2)
    let copy := fun (i : Nat) (src : List UInt8) =>
      CharBlock.copyString (heap (p.mallocs + i)) src src.length
    {
      input := (p.input.advance line.length).advance 2
      request := p.request.httpRequestAddHeader (copy 0 key) (copy 1 value)
      mallocs := p.mallocs + 2
    }
  | none =>
    { p with
      input := p.input.advance 2
      request := { p.request with currentState := .REQUEST_DONE }
    }

def parseStep (heap : Heap) (p : Parser) : Except HttpFault Parser :=
  match p.request.currentState with
  | .REQUEST_STATUS =>
    match p.input.bufferFindCRLF with
    | none => .ok p
    | some n =>
      match processStatusLine heap (p.input.readable.take n) p with
      | .error e => .error e
      | .ok (requestLineSize, p) =>
        if requestLineSize != 0 then
          .ok { p with
            input := (p.input.advance requestLineSize).advance 2
            request := { p.request with currentState := .REQUEST_HEADERS }
          }
        else
          .ok p
  | .REQUEST_HEADERS =>
    match p.input.bufferFindCRLF with
    | none => .ok p
    | some n => .ok (processHeaderLine heap (p.input.readable.take n) p)
  | .REQUEST_BODY => .ok p
  | .REQUEST_DONE => .ok p

def parseHttpRequest (heap : Heap) (fuel : Nat) (p : Parser) : Option (Except HttpFault (Int × Parser)) :=
  match While.run (fun p => !p.isDone) (parseStep heap) fuel p with
  | none => none
  | some (.error e) => some (.error e)
  | some (.ok p) => some (.ok (1, p))

end Parser

-- `write n size` is what `write` answers when the socket has taken `n` responses and gets one of `size` bytes.
structure HttpServer where
  requestCallback : Option (HttpRequest → HttpResponse)
  write : Nat → Nat → WriteResult

def HttpServer.silent : HttpServer where
  requestCallback := none
  write _ size := .count size

structure HttpConnection where
  parser : Parser
  conn : TcpConnection
  closed : Bool
  shutdown : Bool
  overrun : Bool
  callbacks : List (Option HttpRequest.View)
  responses : List (List UInt8)

namespace HttpConnection

def httpOnConnectionCompleted (fd : Int) (garbage : Nat → UInt8) : HttpConnection :=
  {
    parser :=
      { input := Buffer.bufferNew garbage, request := HttpRequest.httpRequestNew, mallocs := 0 }
    conn := TcpConnection.tcpConnectionNew fd garbage
    closed := false
    shutdown := false
    overrun := false
    callbacks := []
    responses := []
  }

-- A socket takes nothing after `shutdown`.
def writeResult (server : HttpServer) (c : HttpConnection) (size : Nat) : WriteResult :=
  if c.shutdown then .error .EPIPE else server.write c.responses.length size

def sendData (server : HttpServer) (realloc : Realloc) (c : HttpConnection) (bytes : List UInt8)
    : Except HttpFault HttpConnection :=
  let data : CharPtr := fun i => if 0 ≤ i then bytes.getD i.toNat 0 else 0
  match c.conn.tcpConnectionSendData realloc data bytes.length (c.writeResult server bytes.length) with
  | none => .error .outOfBlock
  | some (conn, _) => .ok { c with conn, responses := c.responses ++ [bytes] }

def sendBuffer (server : HttpServer) (realloc : Realloc) (c : HttpConnection) (buffer : Buffer)
    : Except HttpFault HttpConnection :=
  let res := c.writeResult server buffer.bufferReadableSize
  match c.conn.tcpConnectionSendBuffer realloc buffer (fun _ => 0) res with
  | none => .error .outOfBlock
  | some (conn, _, _) => .ok { c with conn, responses := c.responses ++ [buffer.readable] }

def tcpConnectionShutdown (c : HttpConnection) : HttpConnection :=
  { c with shutdown := true }

def callRequestCallback (server : HttpServer) (c : HttpConnection) : HttpConnection × HttpResponse :=
  match server.requestCallback with
  | none => (c, HttpResponse.httpResponseNew)
  | some callback =>
    ({ c with callbacks := c.callbacks ++ [c.parser.request.view] }, callback c.parser.request)

def respond (server : HttpServer) (realloc : Realloc) (c : HttpConnection)
    : Except HttpFault HttpConnection := do
  let (c, response) := c.callRequestCallback server
  let buffer ← response.httpResponseEncodeBuffer realloc (Buffer.bufferNew fun _ => 0)
  let c ← c.sendBuffer server realloc buffer
  match c.parser.request.httpRequestCloseConnection with
  | none => .error .nullPointer
  | some close =>
    let c := if close then c.tcpConnectionShutdown else c
    return { c with parser := { c.parser with request := c.parser.request.httpRequestReset } }

-- `sizeof(error_response)` is the size of a pointer.
def errorResponse : List UInt8 :=
  (ascii "HTTP/1.1 400 Bad Request" ++ CRLF ++ CRLF).take 8

def refuse (server : HttpServer) (realloc : Realloc) (c : HttpConnection) : Except HttpFault HttpConnection :=
  match c.sendData server realloc errorResponse with
  | .error e => .error e
  | .ok c => .ok c.tcpConnectionShutdown

def httpOnMessage (server : HttpServer) (heap : Heap) (realloc : Realloc) (fuel : Nat)
    (c : HttpConnection)
    : Option (Except HttpFault HttpConnection) :=
  match c.parser.parseHttpRequest heap fuel with
  | none => none
  | some (.error e) => some (.error e)
  | some (.ok (ok, parser)) =>
    let c := { c with parser, overrun := c.overrun || parser.request.overruns }
    match if ok == 0 then c.refuse server realloc else .ok c with
    | .error e => some (.error e)
    | .ok c => if parser.isDone then some (c.respond server realloc) else some (.ok c)

def handleRead (server : HttpServer) (heap : Heap) (realloc : Realloc) (fuel : Nat)
    (c : HttpConnection) (chunk : List UInt8)
    : Option (Except HttpFault HttpConnection) :=
  match c.parser.input.bufferSocketRead realloc chunk with
  | none => some (.error .outOfBlock)
  | some input =>
    let c := { c with parser := { c.parser with input } }
    if 0 < chunk.length then
      c.httpOnMessage server heap realloc fuel
    else
      some (.ok { c with closed := true })

def deliver (server : HttpServer) (heap : Heap) (realloc : Realloc) (fuel : Nat) (c : HttpConnection)
    : List (List UInt8) → Option (Except HttpFault HttpConnection)
  | [] => some (.ok c)
  | chunk :: chunks =>
    match c.handleRead server heap realloc fuel chunk with
    | none => none
    | some (.error e) => some (.error e)
    | some (.ok c) => deliver server heap realloc fuel c chunks

end HttpConnection
end NetWork
