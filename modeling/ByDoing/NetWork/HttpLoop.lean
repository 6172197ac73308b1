import ByDoing.NetWork.HttpParse

namespace NetWork
namespace Parser

def Terminates (heap : Heap) (p : Parser) : Prop :=
  (∃ fuel res, p.parseHttpRequest heap fuel = some res)
  ∧ (p.input.bufferFindCRLF = none →
    ∃ fuel ok p', p.parseHttpRequest heap fuel = some (.ok (ok, p'))
      ∧ p'.request.currentState = p.request.currentState ∧ p'.input.readIndex = p.input.readIndex)

def Aborts (heap : Heap) (p : Parser) : Prop :=
  ∃ fuel, p.parseHttpRequest heap fuel = some (.error .assertFailed)

def endsHeaders (lines : List (List UInt8)) : Bool :=
  lines.any fun line => !hasColon line

def endsRequest (p : Parser) : Bool :=
  match p.request.currentState, Lines.complete 13 10 p.input.readable with
  | .REQUEST_STATUS, [] => false
  | .REQUEST_STATUS, line :: lines => !hasTwoSpaces line || endsHeaders lines
  | .REQUEST_HEADERS, lines => endsHeaders lines
  | .REQUEST_BODY, _ => false
  | .REQUEST_DONE, _ => true

def hasBadRequestLine (content : List UInt8) : Bool :=
  match Search.find CRLF content with
  | none => false
  | some n => !hasTwoSpaces (content.take n)

section Loop

variable {heap : Heap} {p : Parser}

theorem parse_cases {fuel : Nat} {res : Except HttpFault (Int × Parser)}
    (h : p.parseHttpRequest heap fuel = some res)
    : (∃ p', res = .ok (1, p') ∧ Returns heap p p')
      ∨ ∃ e, res = .error e ∧ While.Ends (fun p => !p.isDone) (parseStep heap) p (.error e) := by
  have hrun := h
  unfold parseHttpRequest at hrun
  split at hrun
  . simp at hrun
  . next e hends =>
    rw [Option.some.injEq] at hrun
    exact .inr ⟨e, hrun.symm, fuel, hends⟩
  . next p' hends =>
    rw [Option.some.injEq] at hrun
    subst hrun
    exact .inl ⟨p', rfl, fuel, h⟩

theorem aborts_iff_ends
    : Aborts heap p
        ↔
      While.Ends (fun p => !p.isDone) (parseStep heap) p (.error .assertFailed) := by
  constructor
  . intro h
    obtain ⟨fuel, h⟩ := h
    rcases parse_cases h with ⟨p', heq, _⟩ | ⟨e, heq, hends⟩
    . simp at heq
    . rw [Except.error.injEq] at heq
      rw [heq]
      exact hends
  . intro h
    obtain ⟨fuel, h⟩ := h
    exact ⟨fuel, by rw [parseHttpRequest, h]⟩

theorem not_ends_error (h : p.request.currentState ≠ .REQUEST_STATUS) {e : HttpFault}
    : ¬ While.Ends (fun p => !p.isDone) (parseStep heap) p (.error e) := by
  let inv := fun (p : Parser) => p.request.currentState ≠ .REQUEST_STATUS
  apply @While.not_ends_error_of_invariant _ _ _ _ _ inv
  . intro p hstate _
    cases hcurrent : p.request.currentState with
    | REQUEST_STATUS => contradiction
    | REQUEST_HEADERS =>
      cases hfind : Search.find CRLF p.input.readable with
      | none => exact ⟨p, parseStep_headers_none hcurrent hfind, hstate⟩
      | some n =>
        refine ⟨_, parseStep_headers hcurrent hfind, ?_⟩
        unfold processHeaderLine
        split
        . exact hstate
        . simp [inv]
    | REQUEST_BODY => exact ⟨p, by simp [parseStep, hcurrent], hstate⟩
    | REQUEST_DONE => exact ⟨p, by simp [parseStep, hcurrent], hstate⟩
  . exact h

theorem stops_iff_returns (h : p.request.currentState ≠ .REQUEST_STATUS)
    : (∃ fuel res, p.parseHttpRequest heap fuel = some res) ↔ ∃ p', Returns heap p p' := by
  constructor
  . intro hstops
    obtain ⟨fuel, res, hparse⟩ := hstops
    rcases parse_cases hparse with ⟨p', _, hreturns⟩ | ⟨e, _, hends⟩
    . exact ⟨p', hreturns⟩
    . exact absurd hends (not_ends_error h)
  . intro hreturns
    obtain ⟨p', fuel, hparse⟩ := hreturns
    exact ⟨fuel, _, hparse⟩

theorem returns_headers_iff (h : p.request.currentState = .REQUEST_HEADERS)
    : (∃ p', Returns heap p p') ↔ endsHeaders (Lines.complete 13 10 p.input.readable) = true := by
  rw [endsHeaders, ← Lines.refusedEnd_isSome]
  cases hend : Lines.refusedEnd 13 10 hasColon p.input.readable with
  | none => simp [not_returns_of_refusedEnd h hend]
  | some e =>
    obtain ⟨p', hreturns, _⟩ := returns_of_refusedEnd h hend
    simp only [Option.isSome_some, iff_true]
    exact ⟨p', hreturns⟩

theorem aborts_iff
    : Aborts heap p
        ↔
      p.request.currentState = .REQUEST_STATUS ∧ hasBadRequestLine p.input.readable = true := by
  rw [aborts_iff_ends]
  constructor
  . intro hends
    have hstatus : p.request.currentState = .REQUEST_STATUS := by
      by_contra hstate
      exact not_ends_error hstate hends
    refine ⟨hstatus, ?_⟩
    unfold hasBadRequestLine
    cases hfind : Search.find CRLF p.input.readable with
    | none =>
      apply absurd hends
      apply While.not_ends_of_fixed
      . simp [isDone_of_status hstatus]
      . exact parseStep_status_none hstatus hfind
    | some n =>
      dsimp only
      cases hspaces : hasTwoSpaces (p.input.readable.take n) with
      | false => rfl
      | true =>
        obtain ⟨q, hstep, _, hheaders⟩ := parseStep_status heap hstatus hfind hspaces
        rw [While.ends_iff_of_ok (by simp [isDone_of_status hstatus]) hstep] at hends
        exact absurd hends (not_ends_error (by simp [hheaders]))
  . intro h
    obtain ⟨hstatus, hbad⟩ := h
    unfold hasBadRequestLine at hbad
    split at hbad
    . simp at hbad
    . next n hfind =>
      rw [Bool.not_eq_true'] at hbad
      apply While.ends_of_error
      . simp [isDone_of_status hstatus]
      . exact parseStep_status_error hstatus hfind hbad

theorem stops_status (h : p.request.currentState = .REQUEST_STATUS) {n : Nat}
    (hfind : Search.find CRLF p.input.readable = some n)
    : (∃ fuel res, p.parseHttpRequest heap fuel = some res)
        ↔
      (!hasTwoSpaces (p.input.readable.take n)
        || endsHeaders (Lines.complete 13 10 (p.input.readable.drop (n + 2)))) = true := by
  cases hspaces : hasTwoSpaces (p.input.readable.take n) with
  | false =>
    have habort : Aborts heap p := aborts_iff.mpr ⟨h, by simp [hasBadRequestLine, hfind, hspaces]⟩
    obtain ⟨fuel, hparse⟩ := habort
    simp only [Bool.not_false, Bool.true_or, iff_true]
    exact ⟨fuel, _, hparse⟩
  | true =>
    obtain ⟨q, hstep, hinput, hstate⟩ := parseStep_status heap h hfind hspaces
    have hdone := isDone_of_status h
    have hrest : p.input.readable.drop (n + 2) = q.input.readable := by
      rw [hinput, Buffer.readable_advance]
    rw [Bool.not_true, Bool.false_or, hrest, ← @returns_headers_iff heap q hstate]
    constructor
    . intro hstops
      obtain ⟨fuel, res, hparse⟩ := hstops
      rcases parse_cases hparse with ⟨p', _, hreturns⟩ | ⟨e, _, hends⟩
      . exact ⟨p', (returns_step hdone hstep).mp hreturns⟩
      . rw [While.ends_iff_of_ok (by simp [hdone]) hstep] at hends
        exact absurd hends (not_ends_error (by simp [hstate]))
    . intro hreturns
      obtain ⟨p', hreturns⟩ := hreturns
      obtain ⟨fuel, hparse⟩ := (returns_step hdone hstep).mpr hreturns
      exact ⟨fuel, _, hparse⟩

theorem stops_iff : (∃ fuel res, p.parseHttpRequest heap fuel = some res) ↔ p.endsRequest = true := by
  unfold endsRequest
  cases hstate : p.request.currentState with
  | REQUEST_STATUS =>
    cases hfind : Search.find CRLF p.input.readable with
    | none =>
      have hfixed := @parseStep_status_none heap p hstate hfind
      have hdone := isDone_of_status hstate
      rw [Lines.complete_of_none hfind]
      simp only [Bool.false_eq_true, iff_false, not_exists]
      intro fuel res hparse
      rcases parse_cases hparse with ⟨p', _, hreturns⟩ | ⟨e, _, hends⟩
      . exact not_returns_of_fixed hdone hfixed hreturns
      . exact While.not_ends_of_fixed (by simp [hdone]) hfixed hends
    | some n =>
      rw [stops_status hstate hfind, Lines.complete_of_some hfind]
  | REQUEST_HEADERS =>
    rw [stops_iff_returns (by simp [hstate]), returns_headers_iff hstate]
  | REQUEST_BODY =>
    rw [stops_iff_returns (by simp [hstate])]
    simp only [Bool.false_eq_true, iff_false, not_exists]
    intro p'
    apply not_returns_of_fixed
    . simp [isDone, hstate]
    . simp [parseStep, hstate]
  | REQUEST_DONE =>
    rw [stops_iff_returns (by simp [hstate])]
    simp only [iff_true]
    exact ⟨p, returns_of_done (by simp [isDone, hstate])⟩

theorem isDone_of_endsRequest (h : p.endsRequest = true) (hfind : p.input.bufferFindCRLF = none)
    : p.isDone = true := by
  unfold Buffer.bufferFindCRLF at hfind
  unfold endsRequest at h
  rw [Lines.complete_of_none hfind] at h
  cases hstate : p.request.currentState with
  | REQUEST_STATUS => simp [hstate] at h
  | REQUEST_HEADERS => simp [hstate, endsHeaders] at h
  | REQUEST_BODY => simp [hstate] at h
  | REQUEST_DONE => simp [isDone, hstate]

end Loop

theorem terminates_iff (heap : Heap) (p : Parser) : Terminates heap p ↔ p.endsRequest = true := by
  unfold Terminates
  rw [stops_iff]
  constructor
  . intro h
    exact h.left
  . intro h
    refine ⟨h, ?_⟩
    intro hfind
    obtain ⟨fuel, hparse⟩ := @returns_of_done heap p (isDone_of_endsRequest h hfind)
    exact ⟨fuel, 1, p, hparse, rfl, rfl⟩

def partialRequestLine : List UInt8 := ascii "GET / HTTP"

-- The first bytes of a request line: the loop looks for its end again and again.
theorem not_terminates_partialRequestLine
    : ∃ input, (Buffer.bufferNew fun _ => 0).bufferSocketRead (fun _ => none) partialRequestLine
          = some input
        ∧ ¬ Terminates (fun _ _ => 0) { input, request := HttpRequest.httpRequestNew, mallocs := 0 } := by
  obtain ⟨input, hread, hreadable⟩ := exists_received partialRequestLine (by decide)
  refine ⟨input, hread, ?_⟩
  intro h
  obtain ⟨⟨fuel, res, hparse⟩, _⟩ := h
  have hstops := stops_iff.mp ⟨fuel, res, hparse⟩
  unfold endsRequest at hstops
  dsimp only at hstops
  rw [hreadable, Lines.complete_of_none (by decide)] at hstops
  simp [HttpRequest.httpRequestNew] at hstops

end Parser

-- `method SP url SP version`
def IsRequestLine (line : List UInt8) : Prop :=
  ∃ method url version, method ≠ [] ∧ 32 ∉ method ∧ url ≠ [] ∧ 32 ∉ url
    ∧ line = method ++ SP ++ (url ++ SP ++ version)

namespace HttpConnection

def badRequest : List UInt8 := ascii "HTTP/1.1 400 Bad Request" ++ CRLF ++ CRLF

def Rejects (server : HttpServer) (heap : Heap) (realloc : Realloc) (c : HttpConnection) : Prop :=
  ∃ fuel p' c', c.parser.parseHttpRequest heap fuel = some (.ok (0, p'))
    ∧ c.httpOnMessage server heap realloc fuel = some (.ok c')
    ∧ c'.responses = c.responses ++ [badRequest] ∧ c'.shutdown = true

def RefusesBadLine (server : HttpServer) (heap : Heap) (realloc : Realloc) (c : HttpConnection) : Prop :=
  (∀ n, c.parser.request.currentState = .REQUEST_STATUS → c.parser.input.bufferFindCRLF = some n →
    ¬ IsRequestLine (c.parser.input.readable.take n) → c.Rejects server heap realloc)
  ∧ ¬ Parser.Aborts heap c.parser

end HttpConnection

theorem hasTwoSpaces_of_isRequestLine {line : List UInt8} (h : IsRequestLine line)
    : Parser.hasTwoSpaces line = true := by
  obtain ⟨method, url, version, _, hmethod, _, hurl, hline⟩ := h
  have hfirst : Search.find SP line = some method.length := by
    rw [hline]
    exact Search.find_append_self_of_not_mem _ hmethod
  have hrest : line.drop (method.length + 1) = url ++ SP ++ version := by
    rw [hline, show method.length + 1 = (method ++ SP).length by simp [SP], List.drop_left]
  have hsecond : Search.find SP (url ++ SP ++ version) = some url.length :=
    Search.find_append_self_of_not_mem _ hurl
  unfold Parser.hasTwoSpaces
  simp only [hfirst, hrest, hsecond, Option.isSome_some]

namespace HttpConnection

theorem not_rejects (server : HttpServer) (heap : Heap) (realloc : Realloc) (c : HttpConnection)
    : ¬ c.Rejects server heap realloc := by
  intro h
  obtain ⟨fuel, p', _, hparse, _⟩ := h
  rcases Parser.parse_cases hparse with ⟨q, heq, _⟩ | ⟨e, heq, _⟩
  . simp at heq
  . simp at heq

theorem refusesBadLine_iff (server : HttpServer) (heap : Heap) (realloc : Realloc) (c : HttpConnection)
    : c.RefusesBadLine server heap realloc
        ↔
      ∀ n, c.parser.request.currentState = .REQUEST_STATUS → c.parser.input.bufferFindCRLF = some n →
        IsRequestLine (c.parser.input.readable.take n) := by
  constructor
  . intro h n hstate hfind
    by_contra hline
    exact not_rejects server heap realloc c (h.left n hstate hfind hline)
  . intro h
    constructor
    . intro n hstate hfind hline
      exact absurd (h n hstate hfind) hline
    . rw [Parser.aborts_iff]
      intro habort
      obtain ⟨hstate, hbad⟩ := habort
      unfold Parser.hasBadRequestLine at hbad
      split at hbad
      . simp at hbad
      . next n hfind =>
        rw [hasTwoSpaces_of_isRequestLine (h n hstate hfind)] at hbad
        simp at hbad

def lineWithoutSpace : List UInt8 := ascii "GET\r\n"

-- A line without a space: the first assertion of `process_status_line` fails.
theorem not_refusesBadLine_lineWithoutSpace
    : ∃ input,
        (Buffer.bufferNew fun _ => 0).bufferSocketRead (fun _ => none) lineWithoutSpace = some input
        ∧ ¬ RefusesBadLine .silent (fun _ _ => 0) (fun _ => none)
              { httpOnConnectionCompleted 5 (fun _ => 0) with
                parser := { input, request := HttpRequest.httpRequestNew, mallocs := 0 } } := by
  obtain ⟨input, hread, hreadable⟩ := Parser.exists_received lineWithoutSpace (by decide)
  refine ⟨input, hread, ?_⟩
  intro h
  apply h.right
  rw [Parser.aborts_iff]
  refine ⟨rfl, ?_⟩
  dsimp only
  rw [hreadable]
  decide

end HttpConnection
end NetWork
