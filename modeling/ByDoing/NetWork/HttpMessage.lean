import ByDoing.NetWork.ParsedRequest

/-!
This module contains HTTP requests as they go over the wire and what the parser makes of the first bytes
of a stream that starts with one. The value of a header field is what follows its colon, less the one
space that may stand there.
-/

namespace NetWork

structure Field where
  key : List UInt8
  rest : List UInt8
  deriving Repr, DecidableEq

namespace Field

def line (f : Field) : List UInt8 :=
  f.key ++ 58 :: f.rest

def value (f : Field) : List UInt8 :=
  if f.rest.head? = some 32 then f.rest.tail else f.rest

def isSpaced (f : Field) : Bool :=
  f.rest.head? == some 32

structure Wf (f : Field) : Prop where
  key_ne_nil : f.key ≠ []
  key_bytes : ∀ b ∈ f.key, b ∉ [58, 32, 9, 13, 10, 0]
  rest_bytes : ∀ b ∈ f.rest, b ∉ [13, 10, 0]

end Field

structure HttpMessage where
  method : List UInt8
  url : List UInt8
  version : List UInt8
  fields : List Field
  body : List UInt8
  deriving Repr, DecidableEq

namespace HttpMessage

def requestLine (m : HttpMessage) : List UInt8 :=
  m.method ++ SP ++ (m.url ++ SP ++ m.version)

def fieldLines (fields : List Field) : List UInt8 :=
  fields.flatMap fun f => f.line ++ CRLF

def head (m : HttpMessage) : List UInt8 :=
  m.requestLine ++ CRLF ++ (fieldLines m.fields ++ CRLF)

def serialise (m : HttpMessage) : List UInt8 :=
  m.head ++ m.body

def isToken (bytes : List UInt8) : Bool :=
  bytes != [] && bytes.all fun b => !([32, 13, 10, 0] : List UInt8).contains b

structure Wf (m : HttpMessage) : Prop where
  method_isToken : isToken m.method = true
  url_isToken : isToken m.url = true
  version_isToken : isToken m.version = true
  fields_wf : ∀ f ∈ m.fields, f.Wf

def headers (m : HttpMessage) : List (List UInt8 × List UInt8) :=
  m.fields.map fun f => (f.key, f.value)

def parsed (m : HttpMessage) : ParsedRequest :=
  {
    method := m.method
    url := m.url
    version := m.version
    headers := m.headers
    consumed := m.head.length
  }

def view (m : HttpMessage) : HttpRequest.View :=
  { method := m.method, url := m.url, version := m.version, headers := m.headers }

end HttpMessage

theorem find_SP_append {word : List UInt8} (hword : 32 ∉ word) (rest : List UInt8)
    : Search.find SP (word ++ SP ++ rest) = some word.length
        ∧ (word ++ SP ++ rest).take word.length = word
        ∧ (word ++ SP ++ rest).drop (word.length + 1) = rest := by
  refine ⟨?_, ?_, ?_⟩
  . apply Search.find_append_self_of_not_mem _ hword
  . rw [List.append_assoc, List.take_left]
  . rw [show word.length + 1 = (word ++ SP).length by simp [SP], List.drop_left]

theorem find_CRLF_of_covered {line pre rest : List UInt8} (hline : 13 ∉ line)
    (hpre : pre <+: line ++ CRLF ++ rest) (hlen : line.length + 2 ≤ pre.length)
    : Search.find CRLF pre = some line.length ∧ pre.take line.length = line
        ∧ pre.drop (line.length + 2) <+: rest := by
  have hcovered : line ++ CRLF <+: pre := by
    apply List.prefix_of_prefix_length_le (List.prefix_append _ rest) hpre
    simpa [CRLF] using hlen
  obtain ⟨pre', hpre'⟩ := hcovered
  subst hpre'
  refine ⟨?_, ?_, ?_⟩
  . apply Search.find_append_self_of_not_mem _ hline
  . rw [List.append_assoc, List.take_left]
  . rw [List.prefix_append_right_inj] at hpre
    rw [show line.length + 2 = (line ++ CRLF).length by simp [CRLF], List.drop_left]
    exact hpre

theorem find_CRLF_of_cut {line pre rest : List UInt8} (hline : 13 ∉ line)
    (hpre : pre <+: line ++ CRLF ++ rest) (hlen : pre.length < line.length + 2)
    : Search.find CRLF pre = none := by
  have hcut : pre <+: line ++ [13] := by
    apply List.prefix_of_prefix_length_le hpre
    . exact ⟨10 :: rest, by simp [CRLF]⟩
    . rw [List.length_append, List.length_singleton]
      omega
  rw [List.prefix_concat_iff] at hcut
  cases hcut with
  | inl heq =>
    rw [heq, CRLF, Search.find_append_of_not_mem _ hline]
    rfl
  | inr hin =>
    apply Search.find_eq_none_of_not_mem
    intro hmem
    exact hline (hin.subset hmem)

namespace Field

theorem not_mem_line {f : Field} (h : f.Wf) {b : UInt8} (hb : b ∈ [13, 10, 0]) : b ∉ f.line := by
  intro hmem
  unfold line at hmem
  rw [List.mem_append, List.mem_cons] at hmem
  rcases hmem with hkey | hcolon | hrest
  . apply h.key_bytes b hkey
    simp at hb ⊢
    tauto
  . subst hcolon
    simp at hb
  . exact h.rest_bytes b hrest hb

theorem colon_not_mem_key {f : Field} (h : f.Wf) : 58 ∉ f.key := by
  intro hmem
  apply h.key_bytes 58 hmem
  simp

theorem find_COLON_of_isSpaced {f : Field} (h : f.Wf) (hspaced : f.isSpaced = true)
    : Search.find COLON f.line = some f.key.length
        ∧ f.line.take f.key.length = f.key ∧ f.line.drop (f.key.length + 2) = f.value := by
  unfold isSpaced at hspaced
  rw [beq_iff_eq] at hspaced
  unfold value
  rw [if_pos hspaced]
  unfold line
  cases hrest : f.rest with
  | nil => simp [hrest] at hspaced
  | cons b rest =>
    rw [hrest, List.head?_cons, Option.some.injEq] at hspaced
    subst hspaced
    refine ⟨?_, List.take_left, ?_⟩
    . have hfind := @Search.find_append_self_of_not_mem _ _ 58 [32] f.key rest (colon_not_mem_key h)
      simpa [COLON] using hfind
    . rw [← List.drop_drop, List.drop_left]
      rfl

theorem take_ne_key_of_not_isSpaced {f : Field} (h : f.Wf) (hspaced : f.isSpaced = false) {colon : Nat}
    (hfind : Search.find COLON f.line = some colon)
    : f.line.take colon ≠ f.key := by
  unfold line COLON at hfind
  rw [Search.find_append_of_not_mem _ (colon_not_mem_key h), Option.map_eq_some_iff] at hfind
  obtain ⟨k, hk, hcolon⟩ := hfind
  intro heq
  have hlen := congrArg List.length heq
  have hle := Search.find_le hk
  rw [List.length_take] at hlen
  simp only [line, List.length_append, List.length_cons] at hlen hle
  have hzero : k = 0 := by omega
  subst hzero
  have hstarts := Search.prefix_drop_of_find hk
  rw [List.drop_zero, List.cons_prefix_cons] at hstarts
  obtain ⟨_, rest, hrest⟩ := hstarts
  simp [isSpaced, ← hrest] at hspaced

end Field
namespace HttpMessage

theorem headersOf_iff {fields : List Field} (hwf : ∀ f ∈ fields, f.Wf) {pre rest : List UInt8}
    (hpre : pre <+: fieldLines fields ++ CRLF ++ rest) {e : Nat}
    : ParsedRequest.headersOf pre = some (fields.map fun f => (f.key, f.value), e)
        ↔
      (fieldLines fields).length + 2 ≤ pre.length ∧ (∀ f ∈ fields, f.isSpaced = true)
        ∧ e = (fieldLines fields).length + 2 := by
  induction fields generalizing pre e with
  | nil =>
    rw [fieldLines, List.flatMap_nil] at hpre ⊢
    by_cases hlen : 2 ≤ pre.length
    . obtain ⟨hfind, htake, _⟩ := find_CRLF_of_covered (by simp) hpre (by simpa using hlen)
      rw [ParsedRequest.headersOf_of_last hfind (by rw [htake]; rfl)]
      simp only [List.map_nil, Option.some.injEq, Prod.mk.injEq, true_and, List.length_nil, Nat.zero_add,
        hlen, List.not_mem_nil, false_implies, implies_true]
      exact eq_comm
    . rw [ParsedRequest.headersOf_of_none (find_CRLF_of_cut (by simp) hpre (by simp; omega))]
      simp [hlen]
  | cons f fields ih =>
    rw [List.forall_mem_cons] at hwf
    have hlines : fieldLines (f :: fields) = f.line ++ CRLF ++ fieldLines fields := by
      simp [fieldLines]
    have hcr : 13 ∉ f.line := Field.not_mem_line hwf.left (by simp)
    have hpre : pre <+: f.line ++ CRLF ++ (fieldLines fields ++ CRLF ++ rest) := by
      simpa [hlines, List.append_assoc] using hpre
    rw [hlines]
    simp only [List.length_append, List.map_cons, List.forall_mem_cons,
      show CRLF.length = 2 from rfl]
    by_cases hlen : f.line.length + 2 ≤ pre.length
    . obtain ⟨hfind, htake, hdrop⟩ := find_CRLF_of_covered hcr hpre hlen
      have hdroplen : (pre.drop (f.line.length + 2)).length = pre.length - (f.line.length + 2) := by simp
      cases hspaced : f.isSpaced with
      | true =>
        obtain ⟨hcolon, hkey, hvalue⟩ := Field.find_COLON_of_isSpaced hwf.left hspaced
        rw [ParsedRequest.headersOf_of_header hfind (by rw [htake, hcolon]), htake, hkey, hvalue]
        simp only [Option.map_eq_some_iff, Prod.exists, Prod.mk.injEq, List.cons.injEq, true_and]
        constructor
        . intro h
          obtain ⟨headers, e', hheaders, heq, he⟩ := h
          subst heq
          rw [ih hwf.right hdrop] at hheaders
          obtain ⟨hcovered, hall, he'⟩ := hheaders
          refine ⟨?_, hall, ?_⟩
          . omega
          . omega
        . intro h
          obtain ⟨hcovered, hall, he⟩ := h
          refine ⟨_, (fieldLines fields).length + 2, ?_, rfl, ?_⟩
          . rw [ih hwf.right hdrop]
            refine ⟨?_, hall, rfl⟩
            omega
          . omega
      | false =>
        simp only [Bool.false_eq_true, false_and, and_false, iff_false]
        cases hcolon : Search.find COLON f.line with
        | none =>
          rw [ParsedRequest.headersOf_of_last hfind (by rw [htake, hcolon])]
          simp
        | some colon =>
          have hkey := Field.take_ne_key_of_not_isSpaced hwf.left hspaced hcolon
          rw [ParsedRequest.headersOf_of_header hfind (by rw [htake, hcolon]), htake]
          simp [hkey]
    . rw [ParsedRequest.headersOf_of_none (find_CRLF_of_cut hcr hpre (by omega))]
      simp only [reduceCtorEq, false_iff, not_and]
      omega

theorem not_mem_of_isToken {bytes : List UInt8} (h : isToken bytes = true) {b : UInt8}
    (hb : b ∈ [32, 13, 10, 0])
    : b ∉ bytes := by
  intro hmem
  simp only [isToken, Bool.and_eq_true, List.all_eq_true] at h
  have := h.right b hmem
  simp only [Bool.not_eq_true', List.contains_eq_mem, decide_eq_false_iff_not] at this
  exact this hb

theorem not_mem_requestLine {m : HttpMessage} (h : m.Wf) {b : UInt8} (hb : b ∈ [13, 10, 0])
    : b ∉ m.requestLine := by
  have hb' : b ∈ [32, 13, 10, 0] := List.mem_cons_of_mem 32 hb
  have hne : b ≠ 32 := by
    intro heq
    subst heq
    simp at hb
  simp only [requestLine, SP, List.mem_append, List.mem_singleton, not_or]
  exact ⟨⟨not_mem_of_isToken h.method_isToken hb', hne⟩,
    ⟨not_mem_of_isToken h.url_isToken hb', hne⟩, not_mem_of_isToken h.version_isToken hb'⟩

theorem ofContent_iff {m : HttpMessage} (hwf : m.Wf) {pre rest : List UInt8}
    (hpre : pre <+: m.head ++ rest) {q : ParsedRequest}
    : ParsedRequest.ofContent pre = some q ∧ q.headers = m.headers
        ↔
      m.head.length ≤ pre.length ∧ (∀ f ∈ m.fields, f.isSpaced = true) ∧ q = m.parsed := by
  have hcr : 13 ∉ m.requestLine := not_mem_requestLine hwf (by simp)
  have hpre : pre <+: m.requestLine ++ CRLF ++ (fieldLines m.fields ++ CRLF ++ rest) := by
    simpa [head, List.append_assoc] using hpre
  have hlength : m.head.length = m.requestLine.length + 2 + ((fieldLines m.fields).length + 2) := by
    simp [head, CRLF]
    omega
  unfold ParsedRequest.ofContent
  by_cases hlen : m.requestLine.length + 2 ≤ pre.length
  . obtain ⟨hfind, htake, hdrop⟩ := find_CRLF_of_covered hcr hpre hlen
    have hdroplen : (pre.drop (m.requestLine.length + 2)).length
        = pre.length - (m.requestLine.length + 2) := by simp
    obtain ⟨hmethod, hmethodTake, hmethodDrop⟩ : Search.find SP m.requestLine = _ ∧ _ :=
      find_SP_append (not_mem_of_isToken hwf.method_isToken (by simp)) (m.url ++ SP ++ m.version)
    obtain ⟨hurl, hurlTake, hurlDrop⟩ :=
      find_SP_append (not_mem_of_isToken hwf.url_isToken (by simp)) m.version
    rw [← requestLine] at hmethodTake hmethodDrop
    have hheaders := fun e => @headersOf_iff m.fields hwf.fields_wf _ rest hdrop e
    simp only [hfind, htake, hmethod, hmethodTake, hmethodDrop, hurl, hurlTake, hurlDrop]
    constructor
    . intro h
      obtain ⟨hsome, hq⟩ := h
      cases hof : ParsedRequest.headersOf (pre.drop (m.requestLine.length + 2)) with
      | none => simp [hof] at hsome
      | some res =>
        obtain ⟨headers, e⟩ := res
        simp only [hof, Option.some.injEq] at hsome
        subst hsome
        dsimp only at hq
        subst hq
        obtain ⟨hcovered, hall, he⟩ := (hheaders e).mp hof
        refine ⟨by omega, hall, ?_⟩
        rw [parsed, hlength, he, Nat.add_comm]
    . intro h
      obtain ⟨hcovered, hall, hq⟩ := h
      subst hq
      have hof := (hheaders ((fieldLines m.fields).length + 2)).mpr ⟨by omega, hall, rfl⟩
      rw [hof]
      refine ⟨?_, rfl⟩
      rw [parsed, hlength, Nat.add_comm (m.requestLine.length + 2)]
      rfl
  . rw [find_CRLF_of_cut hcr hpre (by omega)]
    simp only [reduceCtorEq, false_and, false_iff, not_and]
    omega

end HttpMessage
end NetWork
