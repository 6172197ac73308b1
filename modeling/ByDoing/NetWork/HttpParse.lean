import ByDoing.Lib.Lines
import ByDoing.NetWork.HttpServer

namespace NetWork
namespace Parser

-- What `process_status_line` asserts of the request line.
def hasTwoSpaces (line : List UInt8) : Bool :=
  match Search.find SP line with
  | none => false
  | some n => (Search.find SP (line.drop (n + 1))).isSome

def hasColon (line : List UInt8) : Bool :=
  (Search.find COLON line).isSome

def hasRequestLine (content : List UInt8) : Bool :=
  match Search.find CRLF content with
  | none => false
  | some n => hasTwoSpaces (content.take n)

def headerLines (content : List UInt8) : List (List UInt8) :=
  match Search.find CRLF content with
  | none => []
  | some n => Lines.untilEmpty 13 10 (content.drop (n + 2))

def Returns (heap : Heap) (p p' : Parser) : Prop :=
  ∃ fuel, p.parseHttpRequest heap fuel = some (.ok (1, p'))

def ConsumesRequest (heap : Heap) (p : Parser) : Prop :=
  (∀ p', Returns heap p p' →
    ∃ n, Search.find (CRLF ++ CRLF) p.input.readable = some n ∧ p'.input = p.input.advance (n + 4))
  ∧ (hasRequestLine p.input.readable = true →
    ∀ n, Search.find (CRLF ++ CRLF) p.input.readable = some n →
      ∃ p', Returns heap p p' ∧ p'.input = p.input.advance (n + 4))

theorem returns_iff_ends {heap : Heap} {p p' : Parser}
    : Returns heap p p' ↔ While.Ends (fun p => !p.isDone) (parseStep heap) p (.ok p') := by
  unfold Returns While.Ends parseHttpRequest
  constructor
  . intro h
    obtain ⟨fuel, h⟩ := h
    refine ⟨fuel, ?_⟩
    split at h <;> simp_all
  . intro h
    obtain ⟨fuel, h⟩ := h
    exact ⟨fuel, by rw [h]⟩

theorem returns_of_done {heap : Heap} {p : Parser} (h : p.isDone = true) : Returns heap p p := by
  rw [returns_iff_ends]
  apply While.ends_of_false
  simp [h]

theorem returns_step {heap : Heap} {p q p' : Parser} (h : p.isDone = false)
    (hstep : parseStep heap p = .ok q)
    : Returns heap p p' ↔ Returns heap q p' := by
  rw [returns_iff_ends, returns_iff_ends]
  apply While.ends_iff_of_ok
  . simp [h]
  . exact hstep

theorem not_returns_of_fixed {heap : Heap} {p p' : Parser} (h : p.isDone = false)
    (hstep : parseStep heap p = .ok p)
    : ¬ Returns heap p p' := by
  rw [returns_iff_ends]
  apply While.not_ends_of_fixed
  . simp [h]
  . exact hstep

theorem not_returns_of_error {heap : Heap} {p p' : Parser} {e : HttpFault} (h : p.isDone = false)
    (hstep : parseStep heap p = .error e)
    : ¬ Returns heap p p' := by
  rw [returns_iff_ends]
  intro hends
  have herr : While.Ends (fun p => !p.isDone) (parseStep heap) p (.error e) := by
    apply While.ends_of_error
    . simp [h]
    . exact hstep
  have := hends.unique herr
  contradiction

theorem returns_unique {heap : Heap} {p p' p'' : Parser} (h : Returns heap p p')
    (h' : Returns heap p p'')
    : p' = p'' := by
  rw [returns_iff_ends] at h h'
  have := h.unique h'
  simpa using this

theorem isDone_of_headers {p : Parser} (h : p.request.currentState = .REQUEST_HEADERS)
    : p.isDone = false := by
  simp [isDone, h]

theorem isDone_of_status {p : Parser} (h : p.request.currentState = .REQUEST_STATUS)
    : p.isDone = false := by
  simp [isDone, h]

theorem parseStep_headers_none {heap : Heap} {p : Parser}
    (h : p.request.currentState = .REQUEST_HEADERS)
    (hfind : Search.find CRLF p.input.readable = none)
    : parseStep heap p = .ok p := by
  simp [parseStep, h, Buffer.bufferFindCRLF, hfind]

theorem parseStep_headers {heap : Heap} {p : Parser} {n : Nat}
    (h : p.request.currentState = .REQUEST_HEADERS)
    (hfind : Search.find CRLF p.input.readable = some n)
    : parseStep heap p = .ok (processHeaderLine heap (p.input.readable.take n) p) := by
  simp [parseStep, h, Buffer.bufferFindCRLF, hfind]

theorem processHeaderLine_input (heap : Heap) {line : List UInt8} (p : Parser)
    (h : hasColon line = true)
    : (processHeaderLine heap line p).input = p.input.advance (line.length + 2)
        ∧ (processHeaderLine heap line p).request.currentState = p.request.currentState := by
  unfold hasColon at h
  unfold processHeaderLine
  cases hfind : Search.find COLON line with
  | none => simp [hfind] at h
  | some colon => exact ⟨rfl, rfl⟩

theorem processHeaderLine_last (heap : Heap) {line : List UInt8} (p : Parser)
    (h : hasColon line = false)
    : (processHeaderLine heap line p).input = p.input.advance 2
        ∧ (processHeaderLine heap line p).isDone = true := by
  unfold hasColon at h
  unfold processHeaderLine
  cases hfind : Search.find COLON line with
  | none => exact ⟨rfl, rfl⟩
  | some colon => simp [hfind] at h

theorem not_returns_of_refusedEnd {heap : Heap} {p p' : Parser}
    (h : p.request.currentState = .REQUEST_HEADERS)
    (hend : Lines.refusedEnd 13 10 hasColon p.input.readable = none)
    : ¬ Returns heap p p' := by
  cases hfind : Search.find CRLF p.input.readable with
  | none =>
    apply not_returns_of_fixed (isDone_of_headers h)
    exact parseStep_headers_none h hfind
  | some n =>
    have hlen := Search.find_add_length_le hfind
    have htake : (p.input.readable.take n).length = n := by
      rw [List.length_take]
      omega
    rw [Lines.refusedEnd_of_some hfind] at hend
    split at hend
    . next hcolon =>
      obtain ⟨hinput, hstate⟩ := processHeaderLine_input heap p hcolon
      rw [returns_step (isDone_of_headers h) (parseStep_headers h hfind)]
      rw [htake] at hinput
      apply not_returns_of_refusedEnd
      . rw [hstate, h]
      . rw [hinput, Buffer.readable_advance]
        simpa using hend
    . simp at hend
termination_by p.input.readable.length
decreasing_by
  rw [hinput, Buffer.readable_advance]
  simp [CRLF] at hlen ⊢
  omega

theorem returns_of_refusedEnd {heap : Heap} {p : Parser} {e : Nat}
    (h : p.request.currentState = .REQUEST_HEADERS)
    (hend : Lines.refusedEnd 13 10 hasColon p.input.readable = some e)
    : ∃ p', Returns heap p p' ∧ p'.input = p.input.advance e := by
  cases hfind : Search.find CRLF p.input.readable with
  | none =>
    rw [Lines.refusedEnd_of_none hfind] at hend
    simp at hend
  | some n =>
    have hlen := Search.find_add_length_le hfind
    have htake : (p.input.readable.take n).length = n := by
      rw [List.length_take]
      omega
    have hstep := fun q => @returns_step heap p _ q (isDone_of_headers h) (parseStep_headers h hfind)
    rw [Lines.refusedEnd_of_some hfind] at hend
    split at hend
    . next hcolon =>
      obtain ⟨hinput, hstate⟩ := processHeaderLine_input heap p hcolon
      rw [htake] at hinput
      rw [Option.map_eq_some_iff] at hend
      obtain ⟨k, hk, rfl⟩ := hend
      rw [← Buffer.readable_advance, ← hinput] at hk
      obtain ⟨p', hreturns, hp'⟩ := returns_of_refusedEnd (hstate.trans h) hk
      refine ⟨p', (hstep p').mpr hreturns, ?_⟩
      rw [hp', hinput, Buffer.advance_advance, Nat.add_comm]
    . next hcolon =>
      rw [Bool.not_eq_true] at hcolon
      obtain ⟨hinput, hdone⟩ := processHeaderLine_last heap p hcolon
      rw [Option.some.injEq] at hend
      subst hend
      exact ⟨_, (hstep _).mpr (returns_of_done hdone), hinput⟩
termination_by p.input.readable.length
decreasing_by
  rw [hinput, Buffer.readable_advance]
  simp [CRLF] at hlen ⊢
  omega

theorem parseStep_status_none {heap : Heap} {p : Parser}
    (h : p.request.currentState = .REQUEST_STATUS)
    (hfind : Search.find CRLF p.input.readable = none)
    : parseStep heap p = .ok p := by
  simp [parseStep, h, Buffer.bufferFindCRLF, hfind]

theorem parseStep_status_error {heap : Heap} {p : Parser} {n : Nat}
    (h : p.request.currentState = .REQUEST_STATUS)
    (hfind : Search.find CRLF p.input.readable = some n)
    (hspaces : hasTwoSpaces (p.input.readable.take n) = false)
    : parseStep heap p = .error .assertFailed := by
  have hline : processStatusLine heap (p.input.readable.take n) p = .error .assertFailed := by
    unfold hasTwoSpaces at hspaces
    unfold processStatusLine
    split at hspaces
    . next hmethod => simp [hmethod]
    . next hmethod =>
      rw [Option.isSome_eq_false_iff, Option.isNone_iff_eq_none] at hspaces
      simp [hmethod, hspaces]
  simp [parseStep, h, Buffer.bufferFindCRLF, hfind, hline]

theorem parseStep_status (heap : Heap) {p : Parser} {n : Nat}
    (h : p.request.currentState = .REQUEST_STATUS)
    (hfind : Search.find CRLF p.input.readable = some n)
    (hspaces : hasTwoSpaces (p.input.readable.take n) = true)
    : ∃ q, parseStep heap p = .ok q
        ∧ q.input = p.input.advance (n + 2)
        ∧ q.request.currentState = .REQUEST_HEADERS := by
  have htake : (p.input.readable.take n).length = n := by
    have hle := Search.find_le hfind
    rw [List.length_take]
    omega
  unfold hasTwoSpaces at hspaces
  split at hspaces
  . simp at hspaces
  . next m hmethod =>
    rw [Option.isSome_iff_exists] at hspaces
    obtain ⟨urlSize, hurl⟩ := hspaces
    -- The first space takes one byte of the line, so its size is not zero.
    have hsize := Search.find_add_length_le hmethod
    have hpos : n ≠ 0 := by
      simp [SP, htake] at hsize
      omega
    simp [parseStep, h, Buffer.bufferFindCRLF, hfind, processStatusLine, hmethod, hurl, htake, hpos]

theorem returns_of_requestLine (heap : Heap) {p : Parser} {n : Nat}
    (h : p.request.currentState = .REQUEST_STATUS)
    (hfind : Search.find CRLF p.input.readable = some n)
    (hspaces : hasTwoSpaces (p.input.readable.take n) = true)
    : (∀ e, Lines.refusedEnd 13 10 hasColon (p.input.readable.drop (n + 2)) = some e →
        ∃ p', Returns heap p p' ∧ p'.input = p.input.advance (e + (n + 2)))
      ∧ (Lines.refusedEnd 13 10 hasColon (p.input.readable.drop (n + 2)) = none →
        ∀ p', ¬ Returns heap p p') := by
  obtain ⟨q, hstep, hinput, hstate⟩ := parseStep_status heap h hfind hspaces
  rw [← Buffer.readable_advance, ← hinput]
  constructor
  . intro e he
    obtain ⟨p', hreturns, hp'⟩ := returns_of_refusedEnd hstate he
    refine ⟨p', (returns_step (isDone_of_status h) hstep).mpr hreturns, ?_⟩
    rw [hp', hinput, Buffer.advance_advance, Nat.add_comm]
  . intro hnone p'
    rw [returns_step (isDone_of_status h) hstep]
    apply not_returns_of_refusedEnd hstate hnone

theorem not_returns_of_not_hasRequestLine {heap : Heap} {p p' : Parser}
    (h : p.request.currentState = .REQUEST_STATUS)
    (hline : hasRequestLine p.input.readable = false)
    : ¬ Returns heap p p' := by
  unfold hasRequestLine at hline
  split at hline
  . next hfind =>
    apply not_returns_of_fixed (isDone_of_status h)
    exact parseStep_status_none h hfind
  . next n hfind =>
    apply not_returns_of_error (isDone_of_status h)
    exact parseStep_status_error h hfind hline

theorem find_emptyLine_iff {content : List UInt8} {n m : Nat} (hfind : Search.find CRLF content = some n)
    : Search.find (CRLF ++ CRLF) content = some m
        ↔
      ∃ e, Lines.emptyEnd 13 10 (content.drop (n + 2)) = some e ∧ e + (n + 2) = m + 4 := by
  have hempty := Lines.emptyEnd_eq_find (by decide) hfind
  constructor
  . intro hm
    rw [show [13, 10, 13, 10] = CRLF ++ CRLF from rfl, hm, Option.map_some, Eq.comm,
      Option.map_eq_some_iff] at hempty
    exact hempty
  . intro he
    obtain ⟨e, he, heq⟩ := he
    rw [he, Option.map_some, Option.map_eq_some_iff] at hempty
    obtain ⟨k, hk, hkeq⟩ := hempty
    rw [show m = k by omega]
    exact hk

theorem consumesRequest_of_refusedEnd_eq {heap : Heap} {p : Parser} {n : Nat}
    (h : p.request.currentState = .REQUEST_STATUS)
    (hfind : Search.find CRLF p.input.readable = some n)
    (hspaces : hasTwoSpaces (p.input.readable.take n) = true)
    (heq : Lines.refusedEnd 13 10 hasColon (p.input.readable.drop (n + 2))
      = Lines.emptyEnd 13 10 (p.input.readable.drop (n + 2)))
    : ConsumesRequest heap p := by
  obtain ⟨hsome, hnone⟩ := returns_of_requestLine heap h hfind hspaces
  rw [heq] at hsome hnone
  constructor
  . intro p' hreturns
    cases hend : Lines.emptyEnd 13 10 (p.input.readable.drop (n + 2)) with
    | none => exact absurd hreturns (hnone hend p')
    | some e =>
      obtain ⟨q, hq, hinput⟩ := hsome e hend
      have hle : 2 ≤ e := Lines.two_le_emptyEnd hend
      refine ⟨e + (n + 2) - 4, ?_, ?_⟩
      . rw [find_emptyLine_iff hfind]
        exact ⟨e, hend, by omega⟩
      . rw [returns_unique hreturns hq, hinput, show e + (n + 2) - 4 + 4 = e + (n + 2) by omega]
  . intro _ m hm
    rw [find_emptyLine_iff hfind] at hm
    obtain ⟨e, hend, hmeq⟩ := hm
    rw [← hmeq]
    apply hsome e hend

theorem not_consumesRequest_of_refusedEnd_lt {heap : Heap} {p : Parser} {n e : Nat}
    (h : p.request.currentState = .REQUEST_STATUS)
    (hfind : Search.find CRLF p.input.readable = some n)
    (hspaces : hasTwoSpaces (p.input.readable.take n) = true)
    (hend : Lines.refusedEnd 13 10 hasColon (p.input.readable.drop (n + 2)) = some e)
    (hlt : ∀ e', Lines.emptyEnd 13 10 (p.input.readable.drop (n + 2)) = some e' → e < e')
    : ¬ ConsumesRequest heap p := by
  intro hconsumes
  obtain ⟨p', hreturns, hinput⟩ := (returns_of_requestLine heap h hfind hspaces).left e hend
  obtain ⟨m, hm, hinput'⟩ := hconsumes.left p' hreturns
  rw [find_emptyLine_iff hfind] at hm
  obtain ⟨e', hend', heq⟩ := hm
  have hread := congrArg Buffer.readIndex (hinput.symm.trans hinput')
  dsimp [Buffer.advance] at hread
  have := hlt e' hend'
  omega

theorem consumesRequest_iff (heap : Heap) (p : Parser) (h : p.request.currentState = .REQUEST_STATUS)
    : ConsumesRequest heap p
        ↔
      (hasRequestLine p.input.readable = true →
        ∀ line ∈ headerLines p.input.readable, hasColon line = true) := by
  cases hline : hasRequestLine p.input.readable with
  | false =>
    simp only [Bool.false_eq_true, false_implies, iff_true]
    constructor
    . intro p' hreturns
      exact absurd hreturns (not_returns_of_not_hasRequestLine h hline)
    . simp [hline]
  | true =>
    simp only [forall_const]
    unfold hasRequestLine at hline
    unfold headerLines
    split at hline
    . simp at hline
    . next n hfind =>
      constructor
      . intro hconsumes line hmem
        by_contra hcolon
        rw [Bool.not_eq_true] at hcolon
        obtain ⟨e, hend, hlt⟩ := Lines.refusedEnd_lt_emptyEnd ⟨line, hmem, hcolon⟩
        exact not_consumesRequest_of_refusedEnd_lt h hfind hline hend hlt hconsumes
      . intro hall
        apply consumesRequest_of_refusedEnd_eq h hfind hline
        apply Lines.refusedEnd_eq_emptyEnd
        . rfl
        . exact hall

theorem exists_received (content : List UInt8) (h : content.length ≤ INIT_BUFFER_SIZE)
    : ∃ input, (Buffer.bufferNew fun _ => 0).bufferSocketRead (fun _ => none) content = some input
        ∧ input.readable = content := by
  obtain ⟨input, hread, _, hreadable⟩ :=
    Buffer.bufferSocketRead_spec (fun _ => none) (Buffer.bufferNew_wf fun _ => 0) content
      (fun hlt => absurd h (Nat.not_le_of_lt hlt))
  exact ⟨input, hread, by simpa using hreadable⟩

def hostColonSpace : List UInt8 := ascii "GET / HTTP/1.1\r\nHost: x\r\n\r\n"

theorem consumesRequest_iff_hostColonSpace
    : ∃ input, (Buffer.bufferNew fun _ => 0).bufferSocketRead (fun _ => none) hostColonSpace = some input
        ∧ ConsumesRequest (fun _ _ => 0) { input, request := HttpRequest.httpRequestNew, mallocs := 0 } := by
  obtain ⟨input, hread, hreadable⟩ := exists_received hostColonSpace (by decide)
  refine ⟨input, hread, ?_⟩
  rw [consumesRequest_iff _ _ rfl]
  dsimp only
  rw [hreadable]
  intro _
  rw [headerLines, show Search.find CRLF hostColonSpace = some 14 by decide]
  dsimp only
  rw [Lines.untilEmpty_of_succ (n := 6) (by decide), Lines.untilEmpty_of_zero (by decide)]
  decide

def hostColon : List UInt8 := ascii "GET / HTTP/1.1\r\nHost:x\r\n\r\n"

-- The header line is left to be parsed as the next request.
theorem not_consumesRequest_hostColon
    : ∃ input, (Buffer.bufferNew fun _ => 0).bufferSocketRead (fun _ => none) hostColon = some input
        ∧ ¬ ConsumesRequest (fun _ _ => 0)
              { input, request := HttpRequest.httpRequestNew, mallocs := 0 } := by
  obtain ⟨input, hread, hreadable⟩ := exists_received hostColon (by decide)
  refine ⟨input, hread, ?_⟩
  have hfind : Search.find CRLF hostColon = some 14 := by decide
  apply not_consumesRequest_of_refusedEnd_lt (n := 14) (e := 2) rfl
  . rw [hreadable, hfind]
  . rw [hreadable]
    decide
  . rw [hreadable, Lines.refusedEnd_of_some (n := 6) (by decide)]
    decide
  . intro e' he'
    rw [hreadable, Lines.emptyEnd_of_succ (n := 5) (by decide),
      Lines.emptyEnd_of_zero (by decide)] at he'
    simp at he'
    omega

end Parser
end NetWork
