import ByDoing.NetWork.Buffer

namespace NetWork
namespace Buffer

def spare (b : Buffer) : Nat :=
  b.bufferFrontSpareSize + b.bufferWriteableSize

def ReallocFails (realloc : Realloc) (b : Buffer) (size : Nat) : Prop :=
  b.spare < size ∧ realloc (b.totalSize + size) = none

def Unharmed (b : Buffer) (res : Option Buffer) : Prop :=
  ∃ b', res = some b' ∧ b'.readIndex = b.readIndex ∧ b'.writeIndex = b.writeIndex
    ∧ b'.readable = b.readable

section Failure

variable {realloc : Realloc} {b : Buffer}

theorem makeRoom_of_reallocFails {size : Nat} (h : b.ReallocFails realloc size)
    : b.makeRoom realloc size = b := by
  obtain ⟨hspare, hnull⟩ := h
  unfold spare at hspare
  unfold makeRoom
  rw [if_neg (by omega), if_neg (by omega), hnull]

theorem bufferAppend_of_reallocFails (hwf : b.Wf) {src : List UInt8}
    (h : b.ReallocFails realloc src.length)
    : b.bufferAppend realloc (some src) = none := by
  have hlen := hwf.length_data
  have hspare := h.left
  unfold spare bufferFrontSpareSize bufferWriteableSize at hspare
  unfold bufferAppend
  dsimp only
  rw [makeRoom_of_reallocFails h, Block.store, if_neg (by omega)]

theorem bufferSocketRead_of_reallocFails (hwf : b.Wf) {chunk : List UInt8}
    (hoverflow : b.bufferWriteableSize < chunk.length)
    (h : ReallocFails realloc { b with writeIndex := b.totalSize }
      (chunk.length - b.bufferWriteableSize))
    : b.bufferSocketRead realloc chunk = none := by
  have hlen : (chunk.take b.bufferWriteableSize).length = b.bufferWriteableSize := by
    rw [List.length_take]
    omega
  obtain ⟨data, hstore, hwf', _⟩ :=
    store_spec hwf (chunk.take b.bufferWriteableSize) (Nat.le_of_eq hlen)
  have hwrite := hwf.write_le_total
  rw [hlen, show b.writeIndex + b.bufferWriteableSize = b.totalSize by
    unfold bufferWriteableSize; omega] at hwf'
  unfold bufferSocketRead
  dsimp only
  rw [if_neg (by omega), hstore]
  dsimp only
  apply bufferAppend_of_reallocFails hwf'
  rw [List.length_drop]
  exact h

theorem not_unharmed_none : ¬ b.Unharmed none := by
  intro h
  obtain ⟨b', hb', _⟩ := h
  simp at hb'

end Failure

theorem not_unharmed_of_reallocFails (realloc : Realloc) (b : Buffer) (hwf : b.Wf)
    : (∀ src, b.ReallocFails realloc src.length → ¬ b.Unharmed (b.bufferAppend realloc (some src)))
      ∧ (∀ c, b.ReallocFails realloc 1 → ¬ b.Unharmed (b.bufferAppendChar realloc c))
      ∧ (∀ chunk, b.bufferWriteableSize < chunk.length →
        ReallocFails realloc { b with writeIndex := b.totalSize }
          (chunk.length - b.bufferWriteableSize) →
        ¬ b.Unharmed (b.bufferSocketRead realloc chunk)) := by
  refine ⟨?_, ?_, ?_⟩
  . intro src hfails
    rw [bufferAppend_of_reallocFails hwf hfails]
    exact not_unharmed_none
  . intro c hfails
    rw [bufferAppendChar, bufferAppend_of_reallocFails hwf hfails]
    exact not_unharmed_none
  . intro chunk hoverflow hfails
    rw [bufferSocketRead_of_reallocFails hwf hoverflow hfails]
    exact not_unharmed_none

theorem not_unharmed_of_reallocFails_bufferNew
    : ¬ Unharmed (bufferNew fun _ => 0)
        ((bufferNew fun _ => 0).bufferAppend (fun _ => none)
          (some (List.replicate (INIT_BUFFER_SIZE + 1) 97))) := by
  apply (not_unharmed_of_reallocFails (fun _ => none) _ (bufferNew_wf fun _ => 0)).left
  constructor
  . rw [List.length_replicate]
    decide
  . rfl

-- A fresh buffer has room for 65536 bytes; the 65537th falls behind the block.
theorem append_overruns_bufferNew
    : ¬ ∀ (b : Buffer) (src : List UInt8), b.Wf → b.ReallocFails (fun _ => none) src.length →
        b.Unharmed (b.bufferAppend (fun _ => none) (some src)) := by
  intro h
  have hfails : (bufferNew fun _ => 0).ReallocFails (fun _ => none)
      (List.replicate (INIT_BUFFER_SIZE + 1) (97 : UInt8)).length := by
    constructor
    . rw [List.length_replicate]
      decide
    . rfl
  have hunharmed := h _ _ (bufferNew_wf fun _ => 0) hfails
  rw [bufferAppend_of_reallocFails (bufferNew_wf fun _ => 0) hfails] at hunharmed
  exact not_unharmed_none hunharmed

section Growth

variable {realloc : Realloc} {b b' : Buffer}

-- The sizes of the blocks that strings of the lengths `ns` make `make_room` ask for.
def requested (spare total : Nat) : List Nat → List Nat
  | [] => []
  | n :: ns =>
    if n ≤ spare then
      requested (spare - n) total ns
    else
      (total + n) :: requested spare (total + n) ns

theorem spare_makeRoom_of_le (hwf : b.Wf) {size : Nat} (h : size ≤ b.spare)
    : (b.makeRoom realloc size).spare = b.spare
        ∧ (b.makeRoom realloc size).totalSize = b.totalSize := by
  have hrw := hwf.read_le_write
  have hwt := hwf.write_le_total
  unfold spare at *
  unfold makeRoom
  split
  . exact ⟨rfl, rfl⟩
  . refine ⟨?_, rfl⟩
    dsimp [bufferFrontSpareSize, bufferWriteableSize, bufferReadableSize]
    omega

theorem spare_makeRoom_of_lt (hwf : b.Wf) {size : Nat} (h : b.spare < size)
    (hrealloc : (realloc (b.totalSize + size)).isSome = true)
    : (b.makeRoom realloc size).spare = b.spare + size
        ∧ (b.makeRoom realloc size).totalSize = b.totalSize + size := by
  have hwt := hwf.write_le_total
  unfold spare at *
  unfold makeRoom
  rw [if_neg (by omega), if_neg (by omega)]
  split
  . next hnull => simp [hnull] at hrealloc
  . refine ⟨?_, rfl⟩
    dsimp [bufferFrontSpareSize, bufferWriteableSize]
    omega

theorem spare_bufferAppend (hwf : b.Wf) {src : List UInt8}
    (h : b.bufferAppend realloc (some src) = some b')
    : b'.spare = (b.makeRoom realloc src.length).spare - src.length
        ∧ b'.totalSize = (b.makeRoom realloc src.length).totalSize := by
  have hroom := makeRoom_wf realloc hwf src.length
  have hlen := hroom.length_data
  unfold bufferAppend at h
  dsimp only at h
  split at h
  . simp at h
  . next data hstore =>
    rw [Option.some.injEq] at h
    subst h
    refine ⟨?_, rfl⟩
    unfold Block.store at hstore
    split at hstore
    . dsimp [spare, bufferFrontSpareSize, bufferWriteableSize]
      omega
    . simp at hstore

theorem bufferAppend_of_le (realloc : Realloc) (hwf : b.Wf) {src : List UInt8}
    (h : src.length ≤ b.spare)
    : ∃ b', b.bufferAppend realloc (some src) = some b' ∧ b'.Wf ∧ b'.readable = b.readable ++ src
        ∧ b'.spare = b.spare - src.length ∧ b'.totalSize = b.totalSize := by
  obtain ⟨b', happend, hwf', hreadable⟩ := @bufferAppend_spec realloc b hwf src (.inl h)
  obtain ⟨hspare, htotal⟩ := @spare_makeRoom_of_le realloc b hwf _ h
  obtain ⟨hspare', htotal'⟩ := spare_bufferAppend hwf happend
  exact ⟨b', happend, hwf', hreadable, by rw [hspare', hspare], by rw [htotal', htotal]⟩

theorem bufferAppend_of_lt (hwf : b.Wf) {src : List UInt8} (h : b.spare < src.length)
    (hrealloc : (realloc (b.totalSize + src.length)).isSome = true)
    : ∃ b', b.bufferAppend realloc (some src) = some b' ∧ b'.Wf ∧ b'.readable = b.readable ++ src
        ∧ b'.spare = b.spare ∧ b'.totalSize = b.totalSize + src.length := by
  obtain ⟨b', happend, hwf', hreadable⟩ := bufferAppend_spec hwf src (.inr hrealloc)
  obtain ⟨hspare, htotal⟩ := spare_makeRoom_of_lt hwf h hrealloc
  obtain ⟨hspare', htotal'⟩ := spare_bufferAppend hwf happend
  refine ⟨b', happend, hwf', hreadable, ?_, by rw [htotal', htotal]⟩
  rw [hspare', hspare]
  omega

end Growth

end Buffer
end NetWork
