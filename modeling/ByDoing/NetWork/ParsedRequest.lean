import ByDoing.NetWork.HttpParse

/-!
This module contains what `parse_http_request` makes of the readable bytes of its buffer, as a function
of these bytes: the loop ends exactly if they hold a request as far as the code can tell, and then
stores the request's parts in blocks of their own.
-/

namespace NetWork

structure ParsedRequest where
  method : List UInt8
  url : List UInt8
  version : List UInt8
  headers : List (List UInt8 × List UInt8)
  consumed : Nat
  deriving Repr, DecidableEq

namespace ParsedRequest

def headersOf (content : List UInt8) : Option (List (List UInt8 × List UInt8) × Nat) :=
  match h : Search.find CRLF content with
  | none => none
  | some n =>
    let line := content.take n
    match Search.find COLON line with
    | none => some ([], 2)
    | some colon =>
      match headersOf (content.drop (n + 2)) with
      | none => none
      | some (headers, e) => some ((line.take colon, line.drop (colon + 2)) :: headers, e + (n + 2))
termination_by content.length
decreasing_by
  have := Search.find_add_length_le h
  simp [CRLF] at this ⊢
  omega

def ofContent (content : List UInt8) : Option ParsedRequest :=
  match Search.find CRLF content with
  | none => none
  | some n =>
    let line := content.take n
    match Search.find SP line with
    | none => none
    | some methodSize =>
      let line' := line.drop (methodSize + 1)
      match Search.find SP line' with
      | none => none
      | some urlSize =>
        match headersOf (content.drop (n + 2)) with
        | none => none
        | some (headers, e) =>
          some {
            method := line.take methodSize
            url := line'.take urlSize
            version := line'.drop (urlSize + 1)
            headers
            consumed := e + (n + 2)
          }

theorem headersOf_of_none {content : List UInt8} (h : Search.find CRLF content = none)
    : headersOf content = none := by
  rw [headersOf]
  split <;> simp_all

theorem headersOf_of_last {content : List UInt8} {n : Nat} (h : Search.find CRLF content = some n)
    (hcolon : Search.find COLON (content.take n) = none)
    : headersOf content = some ([], 2) := by
  rw [headersOf]
  split <;> simp_all

theorem headersOf_of_header {content : List UInt8} {n colon : Nat}
    (h : Search.find CRLF content = some n)
    (hcolon : Search.find COLON (content.take n) = some colon)
    : headersOf content
        =
      (headersOf (content.drop (n + 2))).map fun (headers, e) =>
        (((content.take n).take colon, (content.take n).drop (colon + 2)) :: headers, e + (n + 2)) := by
  rw [headersOf]
  split
  . simp_all
  . next m hm =>
    rw [h, Option.some.injEq] at hm
    subst hm
    dsimp only
    rw [hcolon]
    cases headersOf (content.drop (n + 2)) with
    | none => rfl
    | some res => rfl

end ParsedRequest

namespace Parser

def block (s : List UInt8) : CharBlock :=
  ⟨s ++ [0], false⟩

def addHeaders (r : HttpRequest) (headers : List (List UInt8 × List UInt8)) : HttpRequest :=
  headers.foldl (fun r header => r.httpRequestAddHeader (block header.fst) (block header.snd)) r

def afterHeaders (p : Parser) (headers : List (List UInt8 × List UInt8)) (consumed : Nat) : Parser :=
  {
    input := p.input.advance consumed
    request := { addHeaders p.request headers with currentState := .REQUEST_DONE }
    mallocs := p.mallocs + 2 * headers.length
  }

theorem afterHeaders_cons (p : Parser) (header : List UInt8 × List UInt8)
    (headers : List (List UInt8 × List UInt8)) (k e : Nat)
    : afterHeaders
        {
          input := p.input.advance k
          request := p.request.httpRequestAddHeader (block header.fst) (block header.snd)
          mallocs := p.mallocs + 2
        } headers e
        =
      p.afterHeaders (header :: headers) (e + k) := by
  unfold afterHeaders addHeaders
  rw [Buffer.advance_advance, Nat.add_comm k e, List.foldl_cons, List.length_cons,
    show p.mallocs + 2 + 2 * headers.length = p.mallocs + 2 * (headers.length + 1) by omega]

theorem processHeaderLine_of_last {heap : Heap} {line : List UInt8} {p : Parser}
    (h : Search.find COLON line = none)
    : processHeaderLine heap line p = p.afterHeaders [] 2 := by
  simp [processHeaderLine, h, afterHeaders, addHeaders]

theorem processHeaderLine_of_header {heap : Heap} {line : List UInt8} {p : Parser} {colon : Nat}
    (h : Search.find COLON line = some colon) (hzero : 0 ∉ line)
    : processHeaderLine heap line p
        =
      {
        input := p.input.advance (line.length + 2)
        request := p.request.httpRequestAddHeader (block (line.take colon)) (block (line.drop (colon + 2)))
        mallocs := p.mallocs + 2
      } := by
  have hkey : 0 ∉ line.take colon := fun hmem => hzero (List.mem_of_mem_take hmem)
  have hvalue : 0 ∉ line.drop (colon + 2) := fun hmem => hzero (List.mem_of_mem_drop hmem)
  simp only [processHeaderLine, h, Buffer.advance_advance, CharBlock.copyString_length hkey,
    CharBlock.copyString_length hvalue, block]

theorem returns_headers {heap : Heap} {p : Parser} (h : p.request.currentState = .REQUEST_HEADERS)
    (hzero : 0 ∉ p.input.readable) {p' : Parser}
    : Returns heap p p'
        ↔
      ∃ headers e, ParsedRequest.headersOf p.input.readable = some (headers, e)
        ∧ p' = p.afterHeaders headers e := by
  cases hfind : Search.find CRLF p.input.readable with
  | none =>
    rw [ParsedRequest.headersOf_of_none hfind]
    simp only [reduceCtorEq, false_and, exists_false, iff_false]
    apply not_returns_of_fixed (isDone_of_headers h)
    exact parseStep_headers_none h hfind
  | some n =>
    have hlen := Search.find_add_length_le hfind
    have hline : 0 ∉ p.input.readable.take n := fun hmem => hzero (List.mem_of_mem_take hmem)
    rw [returns_step (isDone_of_headers h) (parseStep_headers h hfind)]
    cases hcolon : Search.find COLON (p.input.readable.take n) with
    | none =>
      rw [ParsedRequest.headersOf_of_last hfind hcolon, processHeaderLine_of_last hcolon]
      have hreturns : Returns heap (p.afterHeaders [] 2) (p.afterHeaders [] 2) := returns_of_done rfl
      constructor
      . intro hp'
        exact ⟨[], 2, rfl, returns_unique hp' hreturns⟩
      . intro hp'
        obtain ⟨headers, e, heq, hp'⟩ := hp'
        cases heq
        rw [hp']
        exact hreturns
    | some colon =>
      rw [ParsedRequest.headersOf_of_header hfind hcolon, processHeaderLine_of_header hcolon hline]
      have htake : (p.input.readable.take n).length = n := by
        rw [List.length_take]
        omega
      rw [htake, returns_headers]
      . simp only [Buffer.readable_advance, Option.map_eq_some_iff, Prod.exists, Prod.mk.injEq]
        constructor
        . intro hp'
          obtain ⟨headers, e, heq, hp'⟩ := hp'
          refine ⟨_, _, ⟨headers, e, heq, rfl, rfl⟩, ?_⟩
          rw [hp', ← afterHeaders_cons]
        . intro hp'
          obtain ⟨headers, e, ⟨headers', e', heq, hheaders, he⟩, hp'⟩ := hp'
          refine ⟨headers', e', heq, ?_⟩
          rw [hp', ← hheaders, ← he, ← afterHeaders_cons]
      . exact h
      . rw [Buffer.readable_advance]
        intro hmem
        exact hzero (List.mem_of_mem_drop hmem)
termination_by p.input.readable.length
decreasing_by
  rw [Buffer.readable_advance]
  simp [CRLF] at hlen ⊢
  omega

def afterRequestLine (heap : Heap) (p : Parser) (method url version : List UInt8) (consumed : Nat)
    : Parser :=
  {
    input := p.input.advance consumed
    request :=
      { p.request with
        method := some ⟨method ++ [heap p.mallocs method.length], true⟩
        url := some ⟨url ++ [heap (p.mallocs + 1) url.length], true⟩
        version := some ⟨version ++ [heap (p.mallocs + 2) version.length], true⟩
        currentState := .REQUEST_HEADERS
      }
    mallocs := p.mallocs + 3
  }

def afterRequest (heap : Heap) (p : Parser) (q : ParsedRequest) : Parser :=
  (p.afterRequestLine heap q.method q.url q.version 0).afterHeaders q.headers q.consumed

theorem afterHeaders_afterRequestLine (heap : Heap) (p : Parser) (method url version : List UInt8)
    (headers : List (List UInt8 × List UInt8)) (k e : Nat)
    : (p.afterRequestLine heap method url version k).afterHeaders headers e
        =
      p.afterRequest heap { method, url, version, headers, consumed := e + k } := by
  unfold afterRequest afterHeaders afterRequestLine
  simp only [Buffer.advance_advance]
  rw [Nat.zero_add, Nat.add_comm]

theorem readable_afterRequestLine (heap : Heap) (p : Parser) (method url version : List UInt8) (n : Nat)
    : (p.afterRequestLine heap method url version n).input.readable = p.input.readable.drop n :=
  Buffer.readable_advance p.input n

theorem processStatusLine_eq (heap : Heap) (p : Parser) {line : List UInt8} {methodSize urlSize : Nat}
    (hzero : 0 ∉ line) (hmethod : Search.find SP line = some methodSize)
    (hurl : Search.find SP (line.drop (methodSize + 1)) = some urlSize)
    : ∃ q, processStatusLine heap line p = .ok (line.length, q)
        ∧ { q with
            input := (q.input.advance line.length).advance 2
            request := { q.request with currentState := .REQUEST_HEADERS } }
          = p.afterRequestLine heap (line.take methodSize) ((line.drop (methodSize + 1)).take urlSize)
              ((line.drop (methodSize + 1)).drop (urlSize + 1)) (line.length + 2) := by
  have hmethod0 : 0 ∉ line.take methodSize := fun hmem => hzero (List.mem_of_mem_take hmem)
  have hrest : 0 ∉ line.drop (methodSize + 1) := fun hmem => hzero (List.mem_of_mem_drop hmem)
  have hurl0 : 0 ∉ (line.drop (methodSize + 1)).take urlSize :=
    fun hmem => hrest (List.mem_of_mem_take hmem)
  have hversion0 : 0 ∉ (line.drop (methodSize + 1)).drop (urlSize + 1) :=
    fun hmem => hrest (List.mem_of_mem_drop hmem)
  unfold processStatusLine
  simp only [hmethod, hurl, Nat.add_zero, CharBlock.copyString_length_add_one hmethod0,
    CharBlock.copyString_length_add_one hurl0, CharBlock.copyString_length_add_one hversion0]
  exact ⟨_, rfl, by simp [afterRequestLine]⟩

theorem parseStep_requestLine (heap : Heap) {p : Parser} {n methodSize urlSize : Nat}
    (h : p.request.currentState = .REQUEST_STATUS) (hzero : 0 ∉ p.input.readable)
    (hfind : Search.find CRLF p.input.readable = some n)
    (hmethod : Search.find SP (p.input.readable.take n) = some methodSize)
    (hurl : Search.find SP ((p.input.readable.take n).drop (methodSize + 1)) = some urlSize)
    : parseStep heap p
        =
      .ok (p.afterRequestLine heap ((p.input.readable.take n).take methodSize)
        (((p.input.readable.take n).drop (methodSize + 1)).take urlSize)
        (((p.input.readable.take n).drop (methodSize + 1)).drop (urlSize + 1)) (n + 2)) := by
  have htake : (p.input.readable.take n).length = n := by
    have hle := Search.find_le hfind
    rw [List.length_take]
    omega
  have hsize := Search.find_add_length_le hmethod
  have hpos : n ≠ 0 := by
    simp [SP, htake] at hsize
    omega
  have hline : 0 ∉ p.input.readable.take n := fun hmem => hzero (List.mem_of_mem_take hmem)
  obtain ⟨q, hprocess, hq⟩ := processStatusLine_eq heap p hline hmethod hurl
  rw [htake] at hprocess hq
  rw [← hq]
  simp [parseStep, h, Buffer.bufferFindCRLF, hfind, hprocess, hpos]

theorem returns_iff_ofContent {heap : Heap} {p p' : Parser}
    (h : p.request.currentState = .REQUEST_STATUS) (hzero : 0 ∉ p.input.readable)
    : Returns heap p p'
        ↔
      ∃ q, ParsedRequest.ofContent p.input.readable = some q ∧ p' = p.afterRequest heap q := by
  unfold ParsedRequest.ofContent
  cases hfind : Search.find CRLF p.input.readable with
  | none =>
    have hline : hasRequestLine p.input.readable = false := by simp [hasRequestLine, hfind]
    simp [not_returns_of_not_hasRequestLine h hline]
  | some n =>
    dsimp only
    cases hmethod : Search.find SP (p.input.readable.take n) with
    | none =>
      have hline : hasRequestLine p.input.readable = false := by
        simp [hasRequestLine, hfind, hasTwoSpaces, hmethod]
      simp [not_returns_of_not_hasRequestLine h hline]
    | some methodSize =>
      dsimp only
      cases hurl : Search.find SP ((p.input.readable.take n).drop (methodSize + 1)) with
      | none =>
        have hline : hasRequestLine p.input.readable = false := by
          simp [hasRequestLine, hfind, hasTwoSpaces, hmethod, hurl]
        simp [not_returns_of_not_hasRequestLine h hline]
      | some urlSize =>
        dsimp only
        rw [returns_step (isDone_of_status h) (parseStep_requestLine heap h hzero hfind hmethod hurl)]
        rw [returns_headers rfl]
        . rw [readable_afterRequestLine]
          cases hheaders : ParsedRequest.headersOf (p.input.readable.drop (n + 2)) with
          | none => simp
          | some res =>
            obtain ⟨headers, e⟩ := res
            simp [afterHeaders_afterRequestLine]
        . rw [readable_afterRequestLine]
          intro hmem
          exact hzero (List.mem_of_mem_drop hmem)

end Parser
end NetWork
