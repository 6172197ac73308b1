import ByDoing.NetWork.HttpHandling

namespace NetWork
namespace Parser

def headerLineCount (content : List UInt8) : Nat :=
  match Lines.complete 13 10 content with
  | [] => 0
  | line :: lines => if hasTwoSpaces line then (lines.takeWhile hasColon).length else 0

def Visits (heap : Heap) (p q : Parser) : Prop :=
  While.Reaches (fun p => !p.isDone) (parseStep heap) p q

def HeadersFit (p : Parser) : Prop :=
  p.request.overrun = false ∧ p.request.requestHeaders.length ≤ HttpRequest.headerCapacity

-- What the loop has stored and what it will still store make `total` headers.
structure Counted (total : Nat) (p : Parser) : Prop where
  status : p.request.currentState = .REQUEST_STATUS →
    p.request.requestHeaders = [] ∧ headerLineCount p.input.readable = total
  headers : p.request.currentState = .REQUEST_HEADERS →
    p.request.requestHeaders.length
      + ((Lines.complete 13 10 p.input.readable).takeWhile hasColon).length = total
  body : p.request.currentState ≠ .REQUEST_BODY
  done : p.request.currentState = .REQUEST_DONE → p.request.requestHeaders.length = total
  overrun : p.request.overrun
    = decide (HttpRequest.headerCapacity < p.request.requestHeaders.length)

section Loop

variable {heap : Heap} {p q : Parser} {total : Nat}

theorem Counted.length_le (h : p.Counted total) : p.request.requestHeaders.length ≤ total := by
  cases hstate : p.request.currentState with
  | REQUEST_STATUS => simp [(h.status hstate).left]
  | REQUEST_HEADERS =>
    have := h.headers hstate
    omega
  | REQUEST_BODY => exact absurd hstate h.body
  | REQUEST_DONE => exact Nat.le_of_eq (h.done hstate)

theorem processStatusLine_frame {line : List UInt8} {n : Nat}
    (h : processStatusLine heap line p = .ok (n, q))
    : q.request.requestHeaders = p.request.requestHeaders ∧ q.request.overrun = p.request.overrun := by
  unfold processStatusLine at h
  split at h
  . simp at h
  . dsimp only at h
    split at h
    . simp at h
    . simp only [Except.ok.injEq, Prod.mk.injEq] at h
      obtain ⟨_, rfl⟩ := h
      exact ⟨rfl, rfl⟩

theorem parseStep_status_frame (hstate : p.request.currentState = .REQUEST_STATUS)
    (hstep : parseStep heap p = .ok q)
    : q.request.requestHeaders = p.request.requestHeaders ∧ q.request.overrun = p.request.overrun := by
  unfold parseStep at hstep
  rw [hstate] at hstep
  dsimp only at hstep
  split at hstep
  . simp only [Except.ok.injEq] at hstep
    subst hstep
    exact ⟨rfl, rfl⟩
  . split at hstep
    . simp at hstep
    . next hline =>
      have hframe := processStatusLine_frame hline
      split at hstep
      . simp only [Except.ok.injEq] at hstep
        subst hstep
        exact hframe
      . simp only [Except.ok.injEq] at hstep
        subst hstep
        exact hframe

theorem Counted.status_step (h : p.Counted total)
    (hstate : p.request.currentState = .REQUEST_STATUS) (hstep : parseStep heap p = .ok q)
    : q.Counted total := by
  cases hfind : Search.find CRLF p.input.readable with
  | none =>
    rw [parseStep_status_none hstate hfind, Except.ok.injEq] at hstep
    rwa [← hstep]
  | some n =>
    have hframe := parseStep_status_frame hstate hstep
    obtain ⟨hempty, hcount⟩ := h.status hstate
    cases hspaces : hasTwoSpaces (p.input.readable.take n) with
    | false =>
      rw [parseStep_status_error hstate hfind hspaces] at hstep
      simp at hstep
    | true =>
      obtain ⟨q', hstep', hinput, hheaders⟩ := parseStep_status heap hstate hfind hspaces
      rw [hstep', Except.ok.injEq] at hstep
      subst hstep
      rw [headerLineCount, Lines.complete_of_some hfind] at hcount
      simp only [hspaces, if_true] at hcount
      constructor
      . simp [hheaders]
      . intro _
        rw [hframe.left, hempty, hinput, Buffer.readable_advance, hcount]
        simp
      . simp [hheaders]
      . simp [hheaders]
      . rw [hframe.left, hframe.right]
        exact h.overrun

theorem processHeaderLine_frame {line : List UInt8} (h : hasColon line = true)
    : (processHeaderLine heap line p).request.requestHeaders.length = p.request.requestHeaders.length + 1
        ∧ (processHeaderLine heap line p).request.overrun
            = (p.request.overrun
              || decide (HttpRequest.headerCapacity ≤ p.request.requestHeaders.length)) := by
  unfold hasColon at h
  unfold processHeaderLine
  split
  . refine ⟨?_, rfl⟩
    simp [HttpRequest.httpRequestAddHeader]
  . next hfind => simp [hfind] at h

theorem Counted.headers_step (h : p.Counted total)
    (hstate : p.request.currentState = .REQUEST_HEADERS) (hstep : parseStep heap p = .ok q)
    : q.Counted total := by
  cases hfind : Search.find CRLF p.input.readable with
  | none =>
    rw [parseStep_headers_none hstate hfind, Except.ok.injEq] at hstep
    rwa [← hstep]
  | some n =>
    have hcount := h.headers hstate
    have hoverrun := h.overrun
    rw [parseStep_headers hstate hfind, Except.ok.injEq] at hstep
    rw [Lines.complete_of_some hfind] at hcount
    have htake : (p.input.readable.take n).length = n := by
      have hle := Search.find_le hfind
      rw [List.length_take]
      omega
    cases hcolon : hasColon (p.input.readable.take n) with
    | true =>
      obtain ⟨hinput, hstate'⟩ := processHeaderLine_input heap p hcolon
      obtain ⟨hlength, hoverrun'⟩ := @processHeaderLine_frame heap p _ hcolon
      rw [htake] at hinput
      rw [hstep] at hinput hstate' hlength hoverrun'
      rw [hstate] at hstate'
      rw [List.takeWhile_cons_of_pos hcolon, List.length_cons] at hcount
      constructor
      . simp [hstate']
      . intro _
        rw [hlength, hinput, Buffer.readable_advance]
        omega
      . simp [hstate']
      . simp [hstate']
      . rw [hoverrun', hoverrun, hlength, ← Bool.decide_or, decide_eq_decide]
        omega
    | false =>
      have hlast : processHeaderLine heap (p.input.readable.take n) p
          = { p with
              input := p.input.advance 2
              request := { p.request with currentState := .REQUEST_DONE } } := by
        unfold hasColon at hcolon
        unfold processHeaderLine
        split
        . next hfind' => simp [hfind'] at hcolon
        . rfl
      rw [hlast] at hstep
      subst hstep
      rw [List.takeWhile_cons_of_neg (by simp [hcolon]), List.length_nil] at hcount
      constructor
      . simp
      . simp
      . simp
      . intro _
        exact hcount
      . exact hoverrun

theorem Counted.step (h : p.Counted total) (hdone : p.isDone = false) (hstep : parseStep heap p = .ok q)
    : q.Counted total := by
  cases hstate : p.request.currentState with
  | REQUEST_STATUS => exact h.status_step hstate hstep
  | REQUEST_HEADERS => exact h.headers_step hstate hstep
  | REQUEST_BODY => exact absurd hstate h.body
  | REQUEST_DONE => simp [isDone, hstate] at hdone

theorem Counted.visits (h : p.Counted total) (hvisits : Visits heap p q) : q.Counted total := by
  apply hvisits.invariant _ h
  intro p q hp hcond hstep
  apply hp.step _ hstep
  simpa using hcond

theorem exists_visits_of_headers {m : Nat} (hstate : p.request.currentState = .REQUEST_HEADERS)
    (hm : ((Lines.complete 13 10 p.input.readable).takeWhile hasColon).length = m)
    : ∃ q, Visits heap p q
        ∧ q.request.requestHeaders.length = p.request.requestHeaders.length + m := by
  induction m generalizing p with
  | zero => exact ⟨p, .refl, rfl⟩
  | succ m ih =>
    cases hfind : Search.find CRLF p.input.readable with
    | none =>
      rw [Lines.complete_of_none hfind] at hm
      simp at hm
    | some n =>
      rw [Lines.complete_of_some hfind] at hm
      have htake : (p.input.readable.take n).length = n := by
        have hle := Search.find_le hfind
        rw [List.length_take]
        omega
      cases hcolon : hasColon (p.input.readable.take n) with
      | false => simp [hcolon] at hm
      | true =>
        obtain ⟨hinput, hstate'⟩ := processHeaderLine_input heap p hcolon
        obtain ⟨hlength, _⟩ := @processHeaderLine_frame heap p _ hcolon
        rw [htake] at hinput
        rw [List.takeWhile_cons_of_pos hcolon, List.length_cons, Nat.succ.injEq,
          ← Buffer.readable_advance, ← hinput] at hm
        obtain ⟨q, hvisits, hq⟩ := ih (hstate'.trans hstate) hm
        refine ⟨q, hvisits.head ?_ (parseStep_headers hstate hfind), ?_⟩
        . simp [isDone_of_headers hstate]
        . omega

theorem exists_visits_of_status (hstate : p.request.currentState = .REQUEST_STATUS)
    (hempty : p.request.requestHeaders = [])
    : ∃ q, Visits heap p q ∧ q.request.requestHeaders.length = headerLineCount p.input.readable := by
  cases hfind : Search.find CRLF p.input.readable with
  | none => exact ⟨p, .refl, by simp [headerLineCount, Lines.complete_of_none hfind, hempty]⟩
  | some n =>
    cases hspaces : hasTwoSpaces (p.input.readable.take n) with
    | false =>
      exact ⟨p, .refl, by simp [headerLineCount, Lines.complete_of_some hfind, hempty, hspaces]⟩
    | true =>
      obtain ⟨p', hstep, hinput, hheaders⟩ := parseStep_status heap hstate hfind hspaces
      obtain ⟨hsame, _⟩ := parseStep_status_frame hstate hstep
      obtain ⟨q, hvisits, hq⟩ := @exists_visits_of_headers heap p' _ hheaders rfl
      refine ⟨q, hvisits.head ?_ hstep, ?_⟩
      . simp [isDone_of_status hstate]
      . rw [hq, hsame, hempty, hinput, Buffer.readable_advance, headerLineCount,
          Lines.complete_of_some hfind]
        simp [hspaces]

end Loop

end Parser

namespace HttpConnection

-- The parser at the start of a call of `parse_http_request`.
def Enters (server : HttpServer) (heap : Heap) (realloc : Realloc) (c : HttpConnection)
    (chunks : List (List UInt8)) (p : Parser) : Prop :=
  ∃ before chunk after c' input, chunks = before ++ chunk :: after
    ∧ Delivers server heap realloc c before c'
    ∧ c'.parser.input.bufferSocketRead realloc chunk = some input
    ∧ 0 < chunk.length
    ∧ p = { c'.parser with input }

def Visits (server : HttpServer) (heap : Heap) (realloc : Realloc) (c : HttpConnection)
    (chunks : List (List UInt8)) (q : Parser) : Prop :=
  ∃ p, Enters server heap realloc c chunks p ∧ Parser.Visits heap p q

structure Fresh (c : HttpConnection) : Prop where
  state_eq : c.parser.request.currentState = .REQUEST_STATUS
  headers_eq : c.parser.request.requestHeaders = []

section Run

variable {server : HttpServer} {heap : Heap} {realloc : Realloc} {c c' : HttpConnection}
variable {chunk : List UInt8} {chunks : List (List UInt8)}

theorem request_of_reads (h : Reads server heap realloc c chunk c')
    : ∃ input, c.parser.input.bufferSocketRead realloc chunk = some input
        ∧ ((chunk.length = 0 ∧ c'.parser.request = c.parser.request)
          ∨ (0 < chunk.length ∧ ∃ q, Parser.Visits heap { c.parser with input } q
              ∧ c'.parser.request = q.request.httpRequestReset)) := by
  obtain ⟨input, hinput, ⟨hzero, rfl⟩ | ⟨hpos, q, hreturns, hrespond⟩⟩ := reads_cases h
  . exact ⟨input, hinput, .inl ⟨hzero, rfl⟩⟩
  . have hends := Parser.returns_iff_ends.mp hreturns
    exact ⟨input, hinput, .inr ⟨hpos, q, hends.reaches.left, (responded_of_respond hrespond).request_eq⟩⟩

theorem Fresh.reads (hfresh : c.Fresh) (h : Reads server heap realloc c chunk c') : c'.Fresh := by
  obtain ⟨input, _, ⟨_, hrequest⟩ | ⟨_, q, _, hrequest⟩⟩ := request_of_reads h
  . constructor
    . rw [hrequest]
      exact hfresh.state_eq
    . rw [hrequest]
      exact hfresh.headers_eq
  . constructor
    . rw [hrequest]
      rfl
    . rw [hrequest]
      rfl

theorem Fresh.delivers (hfresh : c.Fresh) (h : Delivers server heap realloc c chunks c') : c'.Fresh := by
  induction chunks generalizing c with
  | nil =>
    rw [delivers_nil] at h
    rwa [h]
  | cons chunk chunks ih =>
    rw [delivers_cons] at h
    obtain ⟨c1, hreads, hrest⟩ := h
    exact ih (hfresh.reads hreads) hrest

theorem Enters.head {p : Parser} (hreads : Reads server heap realloc c chunk c')
    (h : Enters server heap realloc c' chunks p)
    : Enters server heap realloc c (chunk :: chunks) p := by
  obtain ⟨before, chunk', after, c1, input, hchunks, hdelivers, hrest⟩ := h
  refine ⟨chunk :: before, chunk', after, c1, input, ?_, ?_, hrest⟩
  . rw [hchunks]
    rfl
  . rw [delivers_cons]
    exact ⟨c', hreads, hdelivers⟩

theorem Fresh.counted (hfresh : c.Fresh) (hoverrun : c.parser.request.overrun = false) (input : Buffer)
    : Parser.Counted (Parser.headerLineCount input.readable) { c.parser with input } := by
  constructor
  . intro _
    exact ⟨hfresh.headers_eq, rfl⟩
  . simp [hfresh.state_eq]
  . simp [hfresh.state_eq]
  . simp [hfresh.state_eq]
  . simp [hfresh.headers_eq, hoverrun]

theorem overrun_of_delivers (hfresh : c.Fresh) (hoverrun : c.parser.request.overrun = false)
    (hcount : ∀ p, Enters server heap realloc c chunks p →
      Parser.headerLineCount p.input.readable ≤ HttpRequest.headerCapacity)
    {before after : List (List UInt8)} (hchunks : chunks = before ++ after)
    (h : Delivers server heap realloc c before c')
    : c'.parser.request.overrun = false := by
  induction before generalizing c chunks with
  | nil =>
    rw [delivers_nil] at h
    rwa [h]
  | cons chunk before ih =>
    rw [delivers_cons] at h
    obtain ⟨c1, hreads, hrest⟩ := h
    have hoverrun1 : c1.parser.request.overrun = false := by
      obtain ⟨input, hinput, ⟨_, hrequest⟩ | ⟨hpos, q, hvisits, hrequest⟩⟩ := request_of_reads hreads
      . rwa [hrequest]
      . have hcounted := (hfresh.counted hoverrun input).visits hvisits
        have hle := hcount { c.parser with input }
          ⟨[], chunk, before ++ after, c, input, hchunks, delivers_nil.mpr rfl, hinput, hpos, rfl⟩
        have hlength := hcounted.length_le
        rw [hrequest]
        dsimp only [HttpRequest.httpRequestReset] at hle ⊢
        rw [hcounted.overrun, decide_eq_false_iff_not]
        omega
    apply ih (hfresh.reads hreads) hoverrun1 _ rfl hrest
    intro p henters
    apply hcount
    rw [hchunks]
    exact henters.head hreads

theorem headersFit_of_visits (hfresh : c.Fresh) (hoverrun : c.parser.request.overrun = false)
    (hcount : ∀ p, Enters server heap realloc c chunks p →
      Parser.headerLineCount p.input.readable ≤ HttpRequest.headerCapacity)
    {q : Parser} (h : Visits server heap realloc c chunks q)
    : q.HeadersFit := by
  obtain ⟨p, henters, hvisits⟩ := h
  have hle := hcount p henters
  obtain ⟨before, chunk, after, c', input, hchunks, hdelivers, _, _, hp⟩ := henters
  have hoverrun' := overrun_of_delivers hfresh hoverrun hcount hchunks hdelivers
  subst hp
  have hcounted := ((hfresh.delivers hdelivers).counted hoverrun' input).visits hvisits
  have hlength := hcounted.length_le
  dsimp only at hle
  constructor
  . rw [hcounted.overrun, decide_eq_false_iff_not]
    omega
  . omega

theorem count_le_of_headersFit (hfresh : c.Fresh)
    (hfit : ∀ q, Visits server heap realloc c chunks q → q.HeadersFit) {p : Parser}
    (h : Enters server heap realloc c chunks p)
    : Parser.headerLineCount p.input.readable ≤ HttpRequest.headerCapacity := by
  have henters := h
  obtain ⟨before, chunk, after, c', input, _, hdelivers, _, _, hp⟩ := h
  have hfresh' := hfresh.delivers hdelivers
  have hstate : p.request.currentState = .REQUEST_STATUS := by
    rw [hp]
    exact hfresh'.state_eq
  have hempty : p.request.requestHeaders = [] := by
    rw [hp]
    exact hfresh'.headers_eq
  obtain ⟨q, hvisits, hq⟩ := @Parser.exists_visits_of_status heap p hstate hempty
  rw [← hq]
  exact (hfit q ⟨p, henters, hvisits⟩).right

theorem fresh_httpOnConnectionCompleted (fd : Int) (garbage : Nat → UInt8)
    : (httpOnConnectionCompleted fd garbage).Fresh := by
  constructor
  . rfl
  . rfl

end Run

theorem headersFit_iff (server : HttpServer) (heap : Heap) (realloc : Realloc) (fd : Int)
    (garbage : Nat → UInt8) (chunks : List (List UInt8))
    : (∀ q, Visits server heap realloc (httpOnConnectionCompleted fd garbage) chunks q → q.HeadersFit)
        ↔
      ∀ p, Enters server heap realloc (httpOnConnectionCompleted fd garbage) chunks p →
        Parser.headerLineCount p.input.readable ≤ HttpRequest.headerCapacity := by
  have hfresh := fresh_httpOnConnectionCompleted fd garbage
  constructor
  . intro hfit p henters
    apply count_le_of_headersFit hfresh hfit henters
  . intro hcount q hvisits
    apply headersFit_of_visits hfresh rfl hcount hvisits

def manyHeaders : List UInt8 :=
  Lines.join 13 10 (ascii "GET / HTTP/1.1" :: List.replicate 385 (ascii "a: b")) ++ CRLF

theorem headerLineCount_manyHeaders : Parser.headerLineCount manyHeaders = 385 := by
  have hcr : ∀ line ∈ ascii "GET / HTTP/1.1" :: List.replicate 385 (ascii "a: b"), 13 ∉ line := by
    intro line hline
    rw [List.mem_cons, List.mem_replicate] at hline
    rcases hline with rfl | ⟨_, rfl⟩ <;> decide
  have hcolon : ∀ line ∈ List.replicate 385 (ascii "a: b"), Parser.hasColon line = true := by
    intro line hline
    rw [List.mem_replicate] at hline
    rw [hline.right]
    decide
  have hlast : Lines.complete 13 10 CRLF = [[]] := by
    rw [Lines.complete_of_some (n := 0) (by decide), Lines.complete_of_none (by decide)]
    rfl
  rw [Parser.headerLineCount, manyHeaders, Lines.complete_join hcr, hlast, List.cons_append]
  dsimp only
  rw [if_pos (by decide), List.takeWhile_append_of_pos hcolon,
    List.takeWhile_cons_of_neg (by decide), List.append_nil, List.length_replicate]

-- The 385th header is stored behind the array.
theorem not_headersFit_manyHeaders
    : ¬ ∀ q, Visits .silent (fun _ _ => 0) (fun _ => none)
        (httpOnConnectionCompleted 5 fun _ => 0) [manyHeaders] q → q.HeadersFit := by
  intro hfit
  obtain ⟨input, hinput, hreadable⟩ := Parser.exists_received manyHeaders (by decide +kernel)
  have hle := count_le_of_headersFit (fresh_httpOnConnectionCompleted 5 fun _ => 0) hfit
    ⟨[], manyHeaders, [], _, input, rfl, delivers_nil.mpr rfl, hinput, by decide +kernel, rfl⟩
  dsimp only at hle
  rw [hreadable, headerLineCount_manyHeaders] at hle
  simp [HttpRequest.headerCapacity, sizeofHttpRequest, INIT_REQUEST_HEADER_SIZE, sizeofRequestHeader]
    at hle

end HttpConnection
end NetWork
