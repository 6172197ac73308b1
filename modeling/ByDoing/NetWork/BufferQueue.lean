import Mathlib.Algebra.Ring.Nat
import ByDoing.Lib.Refine
import ByDoing.NetWork.Buffer

namespace NetWork

namespace Buffer

def bufferReadChar (b : Buffer) : Option (UInt8 × Buffer) :=
  match b.data[b.readIndex]? with
  | none => none
  | some c => some (c, b.advance 1)

-- `total_size` after a `make_room` whose `realloc` succeeds.
def grownSize (b : Buffer) (size : Nat) : Nat :=
  if size ≤ b.bufferFrontSpareSize + b.bufferWriteableSize then b.totalSize else b.totalSize + size

theorem totalSize_makeRoom {realloc : Realloc} {b : Buffer} {size : Nat} (hfits : b.Fits realloc size)
    : (b.makeRoom realloc size).totalSize = b.grownSize size := by
  unfold makeRoom grownSize
  split
  . next hroom => rw [if_pos (Nat.le_trans hroom (Nat.le_add_left _ _))]
  . split
    . rfl
    . next hspare =>
      have hsome := hfits.resolve_left hspare
      split
      . next hnone => simp [hnone] at hsome
      . rfl

theorem totalSize_bufferAppend {realloc : Realloc} {b b' : Buffer} {src : List UInt8}
    (hfits : b.Fits realloc src.length) (h : b.bufferAppend realloc (some src) = some b')
    : b'.totalSize = b.grownSize src.length := by
  unfold bufferAppend at h
  dsimp only at h
  split at h
  . simp at h
  . cases h
    exact totalSize_makeRoom hfits

theorem bufferReadChar_spec {b : Buffer} (hwf : b.Wf) (hread : 0 < b.bufferReadableSize)
    : ∃ c rest, b.readable = c :: rest ∧ b.bufferReadChar = some (c, b.advance 1) := by
  have hrw := hwf.read_le_write
  have hwt := hwf.write_le_total
  have hlen := hwf.length_data
  unfold bufferReadableSize at hread
  have hlt : b.readIndex < b.data.length := by omega
  have hdrop : b.readable = b.data[b.readIndex] :: (b.data.take b.writeIndex).drop (b.readIndex + 1) := by
    unfold readable Block.slice
    rw [List.drop_eq_getElem_cons (by rw [List.length_take]; omega), List.getElem_take]
  refine ⟨_, _, hdrop, ?_⟩
  unfold bufferReadChar
  rw [List.getElem?_eq_getElem hlt]

end Buffer

namespace BufferQueue

inductive Op where
  | append (data : Option (List UInt8))
  | appendChar (c : UInt8)
  | appendString (s : Option (List UInt8))
  | socketRead (res : Option (List UInt8))
  | readChar
  | advance (n : Nat)
  deriving Repr, DecidableEq

-- The new buffer and the byte that `buffer_read_char` returns. `readv` returns the bytes it has read, or -1.
def step (realloc : Realloc) (b : Buffer) : Op → Option (Buffer × Option UInt8)
  | .append data => (b.bufferAppend realloc data).map fun b => (b, none)
  | .appendChar c => (b.bufferAppendChar realloc c).map fun b => (b, none)
  | .appendString s => (b.bufferAppendString realloc s).map fun b => (b, none)
  | .socketRead none => some (b, none)
  | .socketRead (some chunk) => (b.bufferSocketRead realloc chunk).map fun b => (b, none)
  | .readChar => b.bufferReadChar.map fun (c, b) => (b, some c)
  | .advance n => some (b.advance n, none)

def queueStep (q : List UInt8) : Op → List UInt8 × Option UInt8
  | .append data => (q ++ data.getD [], none)
  | .appendChar c => (q ++ [c], none)
  | .appendString s => (q ++ s.getD [], none)
  | .socketRead res => (q ++ res.getD [], none)
  | .readChar => (q.tail, q.head?)
  | .advance n => (q.drop n, none)

-- `total_size` after the operation, if `realloc` succeeds.
def totalSizeAfter (b : Buffer) : Op → Nat
  | .append (some src) => b.grownSize src.length
  | .appendChar _ => b.grownSize 1
  | .appendString (some s) => b.grownSize s.length
  | .socketRead (some chunk) =>
    if chunk.length ≤ b.bufferWriteableSize then
      b.totalSize
    else
      { b with writeIndex := b.totalSize }.grownSize (chunk.length - b.bufferWriteableSize)
  | _ => b.totalSize

/--
Reads stay within the readable bytes, `readv` fills at most the rest of the block and `additional_buffer`,
and `total_size` stays an `int`.
-/
structure Allowed (b : Buffer) (op : Op) : Prop where
  readChar : op = .readChar → 0 < b.bufferReadableSize
  advance : ∀ n, op = .advance n → n ≤ b.bufferReadableSize
  readv : ∀ chunk, op = .socketRead (some chunk) → chunk.length ≤ b.bufferWriteableSize + INIT_BUFFER_SIZE
  totalSize_lt : totalSizeAfter b op < 2 ^ 31

theorem fits_of_grownSize {realloc : Realloc} (hrealloc : ∀ n, n < 2 ^ 31 → (realloc n).isSome) {b : Buffer}
    {size : Nat} (h : b.grownSize size < 2 ^ 31)
    : b.Fits realloc size := by
  unfold Buffer.grownSize at h
  split at h
  . next hspare => exact .inl hspare
  . exact .inr (hrealloc _ h)

structure Represents (b : Buffer) (q : List UInt8) : Prop where
  wf : b.Wf
  readable_eq : b.readable = q
  totalSize_lt : b.totalSize < 2 ^ 31

theorem bufferNew_represents (garbage : Nat → UInt8) : Represents (Buffer.bufferNew garbage) [] := by
  constructor
  . apply Buffer.bufferNew_wf
  . apply Buffer.readable_bufferNew
  . show INIT_BUFFER_SIZE < 2 ^ 31
    decide

theorem bufferAppend_represents {realloc : Realloc} (hrealloc : ∀ n, n < 2 ^ 31 → (realloc n).isSome)
    {b : Buffer} {q : List UInt8} (h : Represents b q) (src : List UInt8)
    (hsize : b.grownSize src.length < 2 ^ 31)
    : ∃ b', b.bufferAppend realloc (some src) = some b' ∧ Represents b' (q ++ src) := by
  have hfits := fits_of_grownSize hrealloc hsize
  obtain ⟨b', happend, hwf, hreadable⟩ := Buffer.bufferAppend_spec h.wf src hfits
  refine ⟨b', happend, hwf, ?_, ?_⟩
  . rw [hreadable, h.readable_eq]
  . rw [Buffer.totalSize_bufferAppend hfits happend]
    exact hsize

theorem bufferSocketRead_represents {realloc : Realloc} (hrealloc : ∀ n, n < 2 ^ 31 → (realloc n).isSome)
    {b : Buffer} {q : List UInt8} (h : Represents b q) (chunk : List UInt8)
    (hsize : totalSizeAfter b (.socketRead (some chunk)) < 2 ^ 31)
    : ∃ b', b.bufferSocketRead realloc chunk = some b' ∧ Represents b' (q ++ chunk) := by
  have hfits : b.bufferWriteableSize < chunk.length →
      Buffer.Fits realloc { b with writeIndex := b.totalSize } (chunk.length - b.bufferWriteableSize) := by
    intro hlt
    apply fits_of_grownSize hrealloc
    dsimp only [totalSizeAfter] at hsize
    rw [if_neg (Nat.not_le.mpr hlt)] at hsize
    exact hsize
  obtain ⟨b', hread, hwf, hreadable⟩ := Buffer.bufferSocketRead_spec realloc h.wf chunk hfits
  refine ⟨b', hread, hwf, ?_, ?_⟩
  . rw [hreadable, h.readable_eq]
  . dsimp only [totalSizeAfter] at hsize
    unfold Buffer.bufferSocketRead at hread
    dsimp only at hread
    split at hread
    . split at hread
      . simp at hread
      . cases hread
        exact h.totalSize_lt
    . next hlt =>
      rw [if_neg hlt] at hsize
      split at hread
      . simp at hread
      . next data _ =>
        have hfits' := hfits (Nat.not_le.mp hlt)
        rw [← List.length_drop] at hfits' hsize
        have htotal := @Buffer.totalSize_bufferAppend realloc { b with data, writeIndex := b.totalSize } b' _
          hfits' hread
        rw [htotal]
        exact hsize

theorem step_represents {realloc : Realloc} (hrealloc : ∀ n, n < 2 ^ 31 → (realloc n).isSome)
    : Refine.Simulates (step realloc) queueStep Allowed Represents := by
  intro b q op h hok
  have hsize := hok.totalSize_lt
  cases op with
  | append data =>
    cases data with
    | none => exact ⟨b, rfl, by simpa [queueStep] using h⟩
    | some src =>
      obtain ⟨b', happend, hrep⟩ := bufferAppend_represents hrealloc h src hsize
      exact ⟨b', by simp [step, happend, queueStep], hrep⟩
  | appendChar c =>
    obtain ⟨b', happend, hrep⟩ := bufferAppend_represents hrealloc h [c] hsize
    exact ⟨b', by simp [step, Buffer.bufferAppendChar, happend, queueStep], hrep⟩
  | appendString s =>
    cases s with
    | none => exact ⟨b, rfl, by simpa [queueStep] using h⟩
    | some src =>
      obtain ⟨b', happend, hrep⟩ := bufferAppend_represents hrealloc h src hsize
      exact ⟨b', by simp [step, Buffer.bufferAppendString, happend, queueStep], hrep⟩
  | socketRead res =>
    cases res with
    | none => exact ⟨b, rfl, by simpa [queueStep] using h⟩
    | some chunk =>
      obtain ⟨b', hread, hrep⟩ := bufferSocketRead_represents hrealloc h chunk hsize
      exact ⟨b', by simp [step, hread, queueStep], hrep⟩
  | readChar =>
    have hread := hok.readChar rfl
    obtain ⟨c, rest, hreadable, hchar⟩ := Buffer.bufferReadChar_spec h.wf hread
    rw [h.readable_eq] at hreadable
    refine ⟨b.advance 1, by simp [step, hchar, queueStep, hreadable], ?_, ?_, h.totalSize_lt⟩
    . exact Buffer.advance_wf h.wf hread
    . simp [queueStep, h.readable_eq]
  | advance n =>
    have hn := hok.advance n rfl
    refine ⟨b.advance n, rfl, Buffer.advance_wf h.wf hn, ?_, h.totalSize_lt⟩
    rw [Buffer.readable_advance, h.readable_eq]
    rfl

theorem refines_queue {realloc : Realloc} (hrealloc : ∀ n, n < 2 ^ 31 → (realloc n).isSome)
    (garbage : Nat → UInt8) {ops : List Op}
    (hok : Run.AllOk (Refine.next (step realloc)) Allowed (Buffer.bufferNew garbage) ops)
    : ∃ b outs, Refine.exec (step realloc) (Buffer.bufferNew garbage) ops = some (b, outs)
        ∧ (b.readIndex ≤ b.writeIndex ∧ b.writeIndex ≤ b.totalSize ∧ b.data.length = b.totalSize)
        ∧ b.totalSize < 2 ^ 31
        ∧ (b.readable, outs) = Refine.spec queueStep [] ops := by
  obtain ⟨b, hrun, hrep⟩ := (step_represents hrealloc).exec (bufferNew_represents garbage) hok
  have hwf := hrep.wf
  refine ⟨b, _, hrun, ⟨hwf.read_le_write, hwf.write_le_total, hwf.length_data⟩, hrep.totalSize_lt, ?_⟩
  rw [hrep.readable_eq]

def reallocZero : Realloc := fun _ => some fun _ => 0

theorem refines_queue_hi
    : ∃ b outs, Refine.exec (step reallocZero) (Buffer.bufferNew fun _ => 0)
          [.append (some [0x68, 0x69]), .readChar] = some (b, outs)
        ∧ b.readable = [0x69] ∧ outs = [none, some 0x68] := by
  have hrealloc : ∀ n, n < 2 ^ 31 → (reallocZero n).isSome := fun _ _ => rfl
  have hfirst : Allowed (Buffer.bufferNew fun _ => 0) (.append (some [0x68, 0x69])) := by
    constructor
    . simp
    . simp
    . simp
    . decide
  have hok : Run.AllOk (Refine.next (step reallocZero)) Allowed (Buffer.bufferNew fun _ => 0)
      [.append (some [0x68, 0x69]), .readChar] := by
    refine ⟨hfirst, ?_⟩
    intro b hnext
    obtain ⟨b', hstep, hrep⟩ := step_represents hrealloc _ _ _ (bufferNew_represents fun _ => 0) hfirst
    rw [Refine.next_eq_some hstep, Option.some.injEq] at hnext
    subst hnext
    refine ⟨⟨?_, by simp, by simp, hrep.totalSize_lt⟩, fun _ _ => trivial⟩
    intro _
    rw [← Buffer.length_readable hrep.wf, hrep.readable_eq]
    decide
  obtain ⟨b, outs, hrun, _, _, hqueue⟩ := refines_queue hrealloc (fun _ => 0) hok
  rw [Prod.ext_iff] at hqueue
  exact ⟨b, outs, hrun, hqueue.left, hqueue.right⟩

end BufferQueue
end NetWork
