import ByDoing.NetWork.CString

/-!
This module contains the request object of `http_request.c`. `request_headers` is a block of
`sizeof(struct http_request) * 128` bytes, which is room for 384 headers of two pointers each on a
64-bit machine; the headers stored since the last reset are a list, and one more than fits is an
overrun of the block. A string literal of the source is its bytes.
-/

namespace NetWork

inductive HttpRequestState where
  | REQUEST_STATUS
  | REQUEST_HEADERS
  | REQUEST_BODY
  | REQUEST_DONE
  deriving Repr, DecidableEq

def INIT_REQUEST_HEADER_SIZE : Nat := 128
def sizeofHttpRequest : Nat := 48
def sizeofRequestHeader : Nat := 16

structure RequestHeader where
  key : CharBlock
  value : CharBlock
  deriving Repr, DecidableEq

structure HttpRequest where
  version : Option CharBlock
  method : Option CharBlock
  url : Option CharBlock
  currentState : HttpRequestState
  requestHeaders : List RequestHeader
  overrun : Bool
  deriving Repr, DecidableEq

def ascii (s : String) : List UInt8 :=
  s.toList.map fun c => UInt8.ofNat c.toNat

def HTTP10 : List UInt8 := ascii "HTTP/1.0"
def KEEP_ALIVE : List UInt8 := ascii "Keep-Alive"
def CLOSE : List UInt8 := ascii "close"
def CONNECTION : List UInt8 := ascii "Connection"

namespace HttpRequest

def httpRequestNew : HttpRequest :=
  {
    version := none
    method := none
    url := none
    currentState := .REQUEST_STATUS
    requestHeaders := []
    overrun := false
  }

def httpRequestReset (r : HttpRequest) : HttpRequest :=
  { r with
    version := none
    method := none
    url := none
    currentState := .REQUEST_STATUS
    requestHeaders := []
  }

def headerCapacity : Nat :=
  sizeofHttpRequest * INIT_REQUEST_HEADER_SIZE / sizeofRequestHeader

def httpRequestAddHeader (r : HttpRequest) (key value : CharBlock) : HttpRequest :=
  { r with
    requestHeaders := r.requestHeaders ++ [⟨key, value⟩]
    overrun := r.overrun || decide (headerCapacity ≤ r.requestHeaders.length)
  }

def overruns (r : HttpRequest) : Bool :=
  r.overrun || [r.method, r.url, r.version].any (·.any CharBlock.overrun)
    || r.requestHeaders.any fun h => h.key.overrun || h.value.overrun

-- `strncmp(s, lit, strlen(lit))`
def comparePrefix (s lit : List UInt8) : Option Int :=
  strncmp s (lit ++ [0]) lit.length

namespace httpRequestGetHeader

def go (key : List UInt8) : List RequestHeader → Option (Option CharBlock)
  | [] => some none
  | h :: hs =>
    match comparePrefix h.key.bytes key with
    | none => none
    | some d => if d = 0 then some (some h.value) else go key hs

end httpRequestGetHeader

-- `some none` is `NULL`, `none` a comparison that has left a string's block.
def httpRequestGetHeader (r : HttpRequest) (key : List UInt8) : Option (Option CharBlock) :=
  httpRequestGetHeader.go key r.requestHeaders

def httpRequestCloseConnection (r : HttpRequest) : Option Bool := do
  let connection ← r.httpRequestGetHeader CONNECTION
  let isClose ←
    match connection with
    | none => some false
    | some value => (comparePrefix value.bytes CLOSE).map (· == 0)
  if isClose then
    return true
  match r.version with
  | none => return false
  | some version =>
    let isHttp10 := (← comparePrefix version.bytes HTTP10) == 0
    if !isHttp10 then
      return false
    match connection with
    | none => none
    | some value => (comparePrefix value.bytes KEEP_ALIVE).map (· == 1)

structure View where
  method : List UInt8
  url : List UInt8
  version : List UInt8
  headers : List (List UInt8 × List UInt8)
  deriving Repr, DecidableEq

def viewHeaders : List RequestHeader → Option (List (List UInt8 × List UInt8))
  | [] => some []
  | h :: hs =>
    match h.key.cString, h.value.cString, viewHeaders hs with
    | some key, some value, some rest => some ((key, value) :: rest)
    | _, _, _ => none

def view (r : HttpRequest) : Option View :=
  match r.method.bind CharBlock.cString, r.url.bind CharBlock.cString,
      r.version.bind CharBlock.cString, viewHeaders r.requestHeaders with
  | some method, some url, some version, some headers =>
    if r.overrun then none else some { method, url, version, headers }
  | _, _, _, _ => none

end HttpRequest
end NetWork
