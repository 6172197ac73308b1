import Mathlib.Algebra.Ring.Nat
import ByDoing.NetWork.HttpHeaderBounds

/-!
This module contains a stream of HTTP requests that a connection gets in chunks. No request of a stream
is served without a store outside of a block. Apart from that the connection handles one request for
each chunk, and only if the chunks so far hold all of it: a request that is cut keeps the parser's loop
running forever, and a second request in a chunk waits for the next chunk.
-/

namespace NetWork
namespace HttpStream

def blocks (msgs : List HttpMessage) : Nat :=
  (msgs.map fun m => 3 + 2 * m.fields.length).sum

def serialise (msgs : List HttpMessage) : List UInt8 :=
  msgs.flatMap HttpMessage.serialise

structure IsCutting (msgs : List HttpMessage) (left : List UInt8) (chunks : List (List UInt8)) : Prop where
  msgs_wf : ∀ m ∈ msgs, m.Wf
  chunks_ne_nil : ∀ chunk ∈ chunks, chunk ≠ []
  stream_eq : left ++ chunks.flatten = serialise msgs

def AnsweredBy (server : HttpServer) (heap : Heap) (realloc : Realloc) (c : HttpConnection)
    (msgs : List HttpMessage) (chunks : List (List UInt8)) (c' : HttpConnection) : Prop :=
  HttpConnection.Delivers server heap realloc c chunks c'
    ∧ c'.callbacks = c.callbacks ++ msgs.map (fun m => some m.view)
    ∧ c'.responses.length = c.responses.length + msgs.length

-- Every request is answered if stores outside of a block do no harm.
def Answered (server : HttpServer) (heap : Heap) (realloc : Realloc) (c : HttpConnection)
    (msgs : List HttpMessage) (chunks : List (List UInt8)) : Prop :=
  ∃ c', AnsweredBy server heap realloc c msgs chunks c'

def Served (server : HttpServer) (heap : Heap) (realloc : Realloc) (c : HttpConnection)
    (msgs : List HttpMessage) (chunks : List (List UInt8)) : Prop :=
  ∃ c', AnsweredBy server heap realloc c msgs chunks c' ∧ c'.overrun = false

structure Clean (heap : Heap) (mallocs left : Nat) (msgs : List HttpMessage)
    (chunks : List (List UInt8)) : Prop where
  body_eq_nil : ∀ m ∈ msgs, m.body = []
  spaced : ∀ m ∈ msgs, ∀ f ∈ m.fields, f.isSpaced = true
  few : ∀ m ∈ msgs, m.fields.length ≤ HttpRequest.headerCapacity
  length_eq : chunks.length = msgs.length
  covered : ∀ i, (serialise (msgs.take i)).length ≤ left + (chunks.take i).flatten.length
  terminated : ∀ (i : Nat) (m : HttpMessage), msgs[i]? = some m → m.Terminated heap (mallocs + blocks (msgs.take i))
  closes : ∀ (i : Nat) (m : HttpMessage), msgs[i]? = some m →
    ∃ close, m.closes = some close ∧ (i + 1 < msgs.length → close = false)

theorem clean_nil (heap : Heap) (mallocs left : Nat) : Clean heap mallocs left [] [] := by
  constructor <;> simp [serialise]

theorem clean_cons {heap : Heap} {mallocs left : Nat} {m : HttpMessage} {msgs : List HttpMessage}
    {chunk : List UInt8} {chunks : List (List UInt8)}
    : Clean heap mallocs left (m :: msgs) (chunk :: chunks)
        ↔
      m.body = []
        ∧ (∀ f ∈ m.fields, f.isSpaced = true)
        ∧ m.fields.length ≤ HttpRequest.headerCapacity
        ∧ m.serialise.length ≤ left + chunk.length
        ∧ m.Terminated heap mallocs
        ∧ (∃ close, m.closes = some close ∧ (msgs ≠ [] → close = false))
        ∧ Clean heap (mallocs + (3 + 2 * m.fields.length))
            (left + chunk.length - m.serialise.length) msgs chunks := by
  constructor
  . intro h
    have hcovered : m.serialise.length ≤ left + chunk.length := by
      simpa [serialise] using h.covered 1
    refine ⟨h.body_eq_nil m (by simp), h.spaced m (by simp), h.few m (by simp), hcovered, ?_, ?_, ?_⟩
    . simpa [blocks] using h.terminated 0 m (by simp)
    . obtain ⟨close, hclose, hlast⟩ := h.closes 0 m (by simp)
      refine ⟨close, hclose, ?_⟩
      intro hne
      apply hlast
      have := List.length_pos_iff.mpr hne
      simpa using this
    . constructor
      . exact fun m' hm' => h.body_eq_nil m' (by simp [hm'])
      . exact fun m' hm' => h.spaced m' (by simp [hm'])
      . exact fun m' hm' => h.few m' (by simp [hm'])
      . simpa using h.length_eq
      . intro i
        have := h.covered (i + 1)
        simp [serialise] at this ⊢
        omega
      . intro i m' hm'
        have := h.terminated (i + 1) m' (by simpa using hm')
        simpa [blocks, Nat.add_assoc] using this
      . intro i m' hm'
        obtain ⟨close, hclose, hlast⟩ := h.closes (i + 1) m' (by simpa using hm')
        exact ⟨close, hclose, by simpa using hlast⟩
  . intro h
    obtain ⟨hbody, hspaced, hfew, hcovered, hterminated, ⟨close, hclose, hlast⟩, hrest⟩ := h
    constructor
    . simpa [hbody] using hrest.body_eq_nil
    . rw [List.forall_mem_cons]
      exact ⟨hspaced, hrest.spaced⟩
    . simpa [hfew] using hrest.few
    . simpa using hrest.length_eq
    . intro i
      cases i with
      | zero => simp [serialise]
      | succ i =>
        have := hrest.covered i
        simp [serialise] at this ⊢
        omega
    . intro i m' hm'
      cases i with
      | zero =>
        simp at hm'
        subst hm'
        simpa [blocks] using hterminated
      | succ i =>
        have := hrest.terminated i m' (by simpa using hm')
        simpa [blocks, Nat.add_assoc] using this
    . intro i m' hm'
      cases i with
      | zero =>
        simp at hm'
        subst hm'
        refine ⟨close, hclose, ?_⟩
        intro hlt
        apply hlast
        intro hnil
        simp [hnil] at hlt
      | succ i =>
        obtain ⟨close', hclose', hlast'⟩ := hrest.closes i m' (by simpa using hm')
        exact ⟨close', hclose', by simpa using hlast'⟩

section Cutting

variable {server : HttpServer} {callback : HttpRequest → HttpResponse} {heap : Heap} {realloc : Realloc}
variable {m : HttpMessage} {msgs : List HttpMessage} {left chunk : List UInt8}
variable {chunks : List (List UInt8)}

theorem not_mem_head (hwf : m.Wf) : 0 ∉ m.head := by
  intro hmem
  simp only [HttpMessage.head, HttpMessage.fieldLines, List.mem_append, List.mem_flatMap] at hmem
  rcases hmem with (hmem | hmem) | ⟨f, hf, hmem | hmem⟩ | hmem
  . exact HttpMessage.not_mem_requestLine hwf (by simp) hmem
  . simp [CRLF] at hmem
  . exact Field.not_mem_line (hwf.fields_wf f hf) (by simp) hmem
  . simp [CRLF] at hmem
  . simp [CRLF] at hmem

theorem serialise_eq_head (hbody : m.body = []) : m.serialise = m.head := by
  rw [HttpMessage.serialise, hbody, List.append_nil]

theorem not_mem_serialise (hwf : ∀ m ∈ msgs, m.Wf) (hbody : ∀ m ∈ msgs, m.body = [])
    : 0 ∉ serialise msgs := by
  intro hmem
  simp only [serialise, List.mem_flatMap] at hmem
  obtain ⟨m, hm, hmem⟩ := hmem
  rw [serialise_eq_head (hbody m hm)] at hmem
  exact not_mem_head (hwf m hm) hmem

namespace IsCutting

theorem zero_not_mem (h : IsCutting msgs left (chunk :: chunks)) (hbody : ∀ m ∈ msgs, m.body = [])
    : 0 ∉ left ++ chunk := by
  intro hmem
  apply not_mem_serialise h.msgs_wf hbody
  rw [← h.stream_eq, List.flatten_cons, ← List.append_assoc]
  exact List.mem_append_left _ hmem

theorem prefix_head (h : IsCutting (m :: msgs) left (chunk :: chunks)) (hbody : m.body = [])
    : left ++ chunk <+: m.head ++ serialise msgs := by
  have hstream := h.stream_eq
  rw [List.flatten_cons, ← List.append_assoc, serialise, List.flatMap_cons, serialise_eq_head hbody]
    at hstream
  exact ⟨chunks.flatten, hstream⟩

theorem tail (h : IsCutting (m :: msgs) left (chunk :: chunks)) (hbody : m.body = [])
    (hcovered : m.head.length ≤ (left ++ chunk).length)
    : IsCutting msgs ((left ++ chunk).drop m.head.length) chunks := by
  constructor
  . exact fun m' hm' => h.msgs_wf m' (by simp [hm'])
  . exact fun chunk' hchunk' => h.chunks_ne_nil chunk' (by simp [hchunk'])
  . have hstream := h.stream_eq
    rw [List.flatten_cons, ← List.append_assoc, serialise, List.flatMap_cons, serialise_eq_head hbody]
      at hstream
    have hdrop := congrArg (List.drop m.head.length) hstream
    rw [List.drop_left, List.drop_append_of_le_length hcovered] at hdrop
    exact hdrop

theorem chunks_eq_nil (h : IsCutting [] left chunks) : chunks = [] := by
  have hstream := h.stream_eq
  rw [serialise, List.flatMap_nil, List.append_eq_nil_iff, List.flatten_eq_nil_iff] at hstream
  cases chunks with
  | nil => rfl
  | cons chunk chunks =>
    have hne := h.chunks_ne_nil chunk (by simp)
    have heq := hstream.right chunk (by simp)
    contradiction

end IsCutting

theorem answered_of_clean (hanswers : server.Answers callback)
    (hrealloc : ∀ n, (realloc n).isSome = true) (htakes : server.TakesAll) {mallocs : Nat} {c : HttpConnection}
    (hready : c.Ready mallocs left) (hshutdown : c.shutdown = false)
    (hcut : IsCutting msgs left chunks) (h : Clean heap mallocs left.length msgs chunks)
    : Answered server heap realloc c msgs chunks := by
  induction msgs generalizing c mallocs left chunks with
  | nil =>
    rw [hcut.chunks_eq_nil]
    exact ⟨c, HttpConnection.delivers_nil.mpr rfl, by simp, by simp⟩
  | cons m msgs ih =>
    cases chunks with
    | nil => simpa using h.length_eq
    | cons chunk chunks =>
      have hzero := hcut.zero_not_mem h.body_eq_nil
      rw [clean_cons] at h
      obtain ⟨hbody, hspaced, hfew, hcovered, hterminated, ⟨close, hclose, hlast⟩, hrest⟩ := h
      rw [serialise_eq_head hbody] at hcovered hrest
      rw [← List.length_append] at hcovered hrest
      obtain ⟨c1, hreads, hready1, hhandled⟩ :=
        HttpConnection.reads_of_handles hanswers hrealloc htakes (hcut.msgs_wf m (by simp)) hready
          hshutdown (hcut.chunks_ne_nil chunk (by simp)) hzero (hcut.prefix_head hbody)
          ⟨hcovered, hspaced, hfew, hterminated⟩ hclose
      have hcut1 := hcut.tail hbody hcovered
      have hresponses := hhandled.responses_eq
      cases msgs with
      | nil =>
        rw [hcut1.chunks_eq_nil]
        refine ⟨c1, HttpConnection.delivers_cons.mpr ⟨c1, hreads, HttpConnection.delivers_nil.mpr rfl⟩, ?_, ?_⟩
        . exact hhandled.callbacks_eq
        . exact hresponses
      | cons m' msgs =>
        have hshutdown1 : c1.shutdown = false := by
          rw [hhandled.shutdown_eq, hshutdown, hlast (by simp)]
          rfl
        rw [← List.length_drop] at hrest
        obtain ⟨c', hdelivers, hcallbacks, hlength⟩ := ih hready1 hshutdown1 hcut1 hrest
        refine ⟨c', HttpConnection.delivers_cons.mpr ⟨c1, hreads, hdelivers⟩, ?_, ?_⟩
        . rw [hcallbacks, hhandled.callbacks_eq, List.append_assoc]
          rfl
        . rw [hlength, hresponses]
          simp
          omega

theorem clean_of_answered (hanswers : server.Answers callback)
    (hrealloc : ∀ n, (realloc n).isSome = true) (htakes : server.TakesAll) {mallocs : Nat} {c : HttpConnection}
    (hready : c.Ready mallocs left) (hshutdown : c.shutdown = false)
    (hcut : IsCutting msgs left chunks) (hbody : ∀ m ∈ msgs, m.body = [])
    (h : Answered server heap realloc c msgs chunks)
    : Clean heap mallocs left.length msgs chunks := by
  induction msgs generalizing c mallocs left chunks with
  | nil =>
    rw [hcut.chunks_eq_nil]
    apply clean_nil
  | cons m msgs ih =>
    obtain ⟨c', hdelivers, hcallbacks, hlength⟩ := h
    cases chunks with
    | nil =>
      rw [HttpConnection.delivers_nil] at hdelivers
      subst hdelivers
      simp at hcallbacks
    | cons chunk chunks =>
      have hzero := hcut.zero_not_mem hbody
      rw [List.forall_mem_cons] at hbody
      rw [HttpConnection.delivers_cons] at hdelivers
      obtain ⟨c1, hreads, hrest⟩ := hdelivers
      have hothers := HttpConnection.extends_of_delivers hanswers hrealloc hrest
      have hview := hothers.callbacks_prefix
      rw [hcallbacks, List.map_cons] at hview
      obtain ⟨hhandles, close, hclose, hready1, hhandled⟩ :=
        HttpConnection.handles_of_reads hanswers hrealloc htakes (hcut.msgs_wf m (by simp)) hready
          hshutdown (hcut.chunks_ne_nil chunk (by simp)) hzero (hcut.prefix_head hbody.left) hreads hview
      have hcut1 := hcut.tail hbody.left hhandles.covered
      have hresponses := hhandled.responses_eq
      have hlast : msgs ≠ [] → close = false := by
        intro hne
        cases hclose' : close with
        | false => rfl
        | true =>
          have hshutdown1 : c1.shutdown = true := by
            rw [hhandled.shutdown_eq, hclose', Bool.or_true]
          obtain ⟨_, _, hkeeps⟩ := hothers.shutdown_keeps hready1.idle hshutdown1
          rw [hkeeps, hhandled.callbacks_eq, List.map_cons, List.append_cancel_left_eq,
            List.cons.injEq] at hcallbacks
          exact absurd (List.map_eq_nil_iff.mp hcallbacks.right.symm) hne
      have hcovered : m.serialise.length ≤ left.length + chunk.length := by
        rw [serialise_eq_head hbody.left, ← List.length_append]
        exact hhandles.covered
      rw [clean_cons]
      refine ⟨hbody.left, hhandles.spaced, hhandles.few, hcovered, hhandles.terminated,
        ⟨close, hclose, hlast⟩, ?_⟩
      rw [serialise_eq_head hbody.left, ← List.length_append, ← List.length_drop]
      by_cases hmsgs : msgs = []
      . subst hmsgs
        rw [hcut1.chunks_eq_nil]
        apply clean_nil
      . have hshutdown1 : c1.shutdown = false := by
          rw [hhandled.shutdown_eq, hshutdown, hlast hmsgs]
          rfl
        apply ih hready1 hshutdown1 hcut1 hbody.right
        refine ⟨c', hrest, ?_, ?_⟩
        . rw [hcallbacks, hhandled.callbacks_eq, List.append_assoc]
          rfl
        . rw [hlength, hresponses, List.length_cons]
          omega

end Cutting

section Overrun

variable {server : HttpServer} {heap : Heap} {realloc : Realloc} {p q : Parser} {c c' : HttpConnection}
variable {chunk : List UInt8} {chunks : List (List UInt8)}

def PastLine (p : Parser) : Prop :=
  p.request.currentState = .REQUEST_STATUS ∨ p.request.overruns = true

theorem overruns_of_processStatusLine {line : List UInt8} {n : Nat}
    (h : Parser.processStatusLine heap line p = .ok (n, q))
    : q.request.overruns = true := by
  unfold Parser.processStatusLine at h
  split at h
  . cases h
  . dsimp only at h
    split at h
    . cases h
    . next methodSize _ _ _ _ =>
      cases h
      have hmethod := CharBlock.overrun_copyString (heap (p.mallocs + 0)) (line.take methodSize)
      simp only [HttpRequest.overruns, List.any_cons, Option.any_some, hmethod, Bool.true_or, Bool.or_true]

theorem overruns_httpRequestAddHeader {r : HttpRequest} (h : r.overruns = true) (key value : CharBlock)
    : (r.httpRequestAddHeader key value).overruns = true := by
  unfold HttpRequest.overruns at h ⊢
  rw [Bool.or_eq_true, Bool.or_eq_true] at h
  obtain (hoverrun | hstrings) | hheaders := h
  . simp [HttpRequest.httpRequestAddHeader, hoverrun]
  . simp only [HttpRequest.httpRequestAddHeader, hstrings, Bool.or_true, Bool.true_or]
  . simp only [HttpRequest.httpRequestAddHeader, List.any_append, hheaders, Bool.true_or, Bool.or_true]

theorem pastLine_parseStep (h : PastLine p) (hstep : Parser.parseStep heap p = .ok q) : PastLine q := by
  unfold Parser.parseStep at hstep
  split at hstep
  . next hstate =>
    split at hstep
    . cases hstep
      exact h
    . split at hstep
      . cases hstep
      . next hline =>
        have hoverruns := overruns_of_processStatusLine hline
        split at hstep <;> cases hstep
        . exact .inr hoverruns
        . exact .inr hoverruns
  . next hstate =>
    have hoverruns : p.request.overruns = true := h.resolve_left (by simp [hstate])
    split at hstep
    . cases hstep
      exact h
    . cases hstep
      right
      unfold Parser.processHeaderLine
      split
      . exact overruns_httpRequestAddHeader hoverruns _ _
      . exact hoverruns
  . cases hstep
    exact h
  . cases hstep
    exact h

theorem overruns_of_returns (hstate : p.request.currentState = .REQUEST_STATUS)
    (h : Parser.Returns heap p q)
    : q.request.overruns = true := by
  obtain ⟨hreaches, hdone⟩ := (Parser.returns_iff_ends.mp h).reaches
  have hpast : PastLine q :=
    hreaches.invariant (fun _ _ hp _ hstep => pastLine_parseStep hp hstep) (.inl hstate)
  apply hpast.resolve_left
  intro hstatus
  simp [Parser.isDone, hstatus] at hdone

theorem overrun_of_reads (hfresh : c.Fresh) (h : HttpConnection.Reads server heap realloc c chunk c')
    : c'.overrun = true ∨ (c'.callbacks = c.callbacks ∧ c'.overrun = c.overrun) := by
  obtain ⟨input, _, ⟨_, rfl⟩ | ⟨_, q, hreturns, hrespond⟩⟩ := HttpConnection.reads_cases h
  . exact .inr ⟨rfl, rfl⟩
  . left
    have hoverruns := @overruns_of_returns heap { c.parser with input } q hfresh.state_eq hreturns
    rw [(HttpConnection.responded_of_respond hrespond).overrun_eq]
    simp [hoverruns]

theorem callbacks_of_delivers (hfresh : c.Fresh)
    (h : HttpConnection.Delivers server heap realloc c chunks c') (hoverrun : c'.overrun = false)
    : c.overrun = false ∧ c'.callbacks = c.callbacks := by
  induction chunks generalizing c with
  | nil =>
    rw [HttpConnection.delivers_nil] at h
    subst h
    exact ⟨hoverrun, rfl⟩
  | cons chunk chunks ih =>
    rw [HttpConnection.delivers_cons] at h
    obtain ⟨c1, hread, hrest⟩ := h
    obtain ⟨hoverrun1, hcallbacks1⟩ := ih (hfresh.reads hread) hrest
    obtain hoverrun1' | ⟨hcallbacks, hoverrun'⟩ := overrun_of_reads hfresh hread
    . rw [hoverrun1'] at hoverrun1
      cases hoverrun1
    . exact ⟨hoverrun'.symm.trans hoverrun1, hcallbacks1.trans hcallbacks⟩

end Overrun

/--
A stream is served exactly if it holds no request: the first one already makes `process_status_line`
store the terminator of the method behind its block.
-/
theorem served_iff_nil (server : HttpServer) (heap : Heap) (realloc : Realloc) (fd : Int)
    (garbage : Nat → UInt8) (msgs : List HttpMessage) (chunks : List (List UInt8))
    (hcut : IsCutting msgs [] chunks)
    : Served server heap realloc (HttpConnection.httpOnConnectionCompleted fd garbage) msgs chunks
        ↔
      msgs = [] := by
  constructor
  . intro h
    obtain ⟨c', ⟨hdelivers, hcallbacks, _⟩, hoverrun⟩ := h
    have hfresh := HttpConnection.fresh_httpOnConnectionCompleted fd garbage
    have hsame := (callbacks_of_delivers hfresh hdelivers hoverrun).right
    rw [hsame] at hcallbacks
    simpa using hcallbacks
  . intro hnil
    subst hnil
    rw [hcut.chunks_eq_nil]
    exact ⟨_, ⟨HttpConnection.delivers_nil.mpr rfl, by simp, rfl⟩, rfl⟩

theorem answered_iff_clean (server : HttpServer) (callback : HttpRequest → HttpResponse)
    (hanswers : server.Answers callback) (htakes : server.TakesAll) (heap : Heap) (realloc : Realloc)
    (hrealloc : ∀ n, (realloc n).isSome = true) (fd : Int) (garbage : Nat → UInt8)
    (msgs : List HttpMessage) (chunks : List (List UInt8)) (hcut : IsCutting msgs [] chunks)
    : (Clean heap 0 0 msgs chunks →
        Answered server heap realloc (HttpConnection.httpOnConnectionCompleted fd garbage) msgs chunks)
      ∧ ((∀ m ∈ msgs, m.body = []) →
        Answered server heap realloc (HttpConnection.httpOnConnectionCompleted fd garbage) msgs chunks →
        Clean heap 0 0 msgs chunks) := by
  have hready := HttpConnection.ready_httpOnConnectionCompleted fd garbage
  constructor
  . intro hclean
    exact answered_of_clean hanswers hrealloc htakes hready rfl hcut hclean
  . intro hbody hanswered
    exact clean_of_answered hanswers hrealloc htakes hready rfl hcut hbody hanswered

def getRoot : HttpMessage :=
  {
    method := ascii "GET"
    url := ascii "/"
    version := ascii "HTTP/1.1"
    fields := [{ key := ascii "Host", rest := ascii " x" }]
    body := []
  }

theorem getRoot_wf : getRoot.Wf := by
  constructor
  . decide
  . decide
  . decide
  . intro f hf
    simp [getRoot] at hf
    subst hf
    constructor
    . decide
    . simp [ascii]
    . simp [ascii]

def okServer : HttpServer :=
  {
    requestCallback := some fun _ =>
      { HttpResponse.httpResponseNew with statusCode := 200, body := some (ascii "ok") }
    write _ size := .count size
  }

theorem isCutting_getRoot : IsCutting [getRoot] [] [getRoot.serialise] := by
  constructor
  . simpa using getRoot_wf
  . decide
  . simp [serialise]

-- One request in one chunk.
theorem served_iff_nil_getRoot
    : IsCutting [getRoot] [] [getRoot.serialise]
      ∧ (Served okServer (fun _ _ => 0) (fun _ => some fun _ => 0)
            (HttpConnection.httpOnConnectionCompleted 5 fun _ => 0) [getRoot] [getRoot.serialise]
          ↔
        [getRoot] = []) :=
  ⟨isCutting_getRoot, served_iff_nil _ _ _ _ _ _ _ isCutting_getRoot⟩

theorem not_served_of_getRoot
    : ¬ ∀ (msgs : List HttpMessage) (chunks : List (List UInt8)), IsCutting msgs [] chunks →
        Served okServer (fun _ _ => 0) (fun _ => some fun _ => 0)
          (HttpConnection.httpOnConnectionCompleted 5 fun _ => 0) msgs chunks := by
  intro h
  obtain ⟨c', ⟨hdelivers, hcallbacks, _⟩, hoverrun⟩ := h _ _ isCutting_getRoot
  have hfresh := HttpConnection.fresh_httpOnConnectionCompleted 5 fun _ => 0
  rw [(callbacks_of_delivers hfresh hdelivers hoverrun).right] at hcallbacks
  simp [HttpConnection.httpOnConnectionCompleted] at hcallbacks

end HttpStream
end NetWork
