import ByDoing.Lib.Block

/-!
This module contains the byte buffer of `buffer.c`: a block of `total_size` bytes of which the part
from `readIndex` to `writeIndex` is readable. A `Realloc` answers a request for a number of bytes with
`none` for `NULL` (an `int` sum that has left its range ends that way too) or with the bytes that the
grown block holds beyond the old ones. An operation that would leave the block of its buffer is `none`.
-/

namespace NetWork

abbrev Realloc := Nat → Option (Nat → UInt8)

structure Buffer where
  data : List UInt8
  readIndex : Nat
  writeIndex : Nat
  totalSize : Nat
  deriving Repr, DecidableEq

def INIT_BUFFER_SIZE : Nat := 65536

namespace Buffer

def bufferNew (garbage : Nat → UInt8) : Buffer :=
  {
    data := (List.range INIT_BUFFER_SIZE).map garbage
    readIndex := 0
    writeIndex := 0
    totalSize := INIT_BUFFER_SIZE
  }

def bufferWriteableSize (b : Buffer) : Nat :=
  b.totalSize - b.writeIndex

def bufferReadableSize (b : Buffer) : Nat :=
  b.writeIndex - b.readIndex

def bufferFrontSpareSize (b : Buffer) : Nat :=
  b.readIndex

def makeRoom (realloc : Realloc) (b : Buffer) (size : Nat) : Buffer :=
  if size ≤ b.bufferWriteableSize then
    b
  else if size ≤ b.bufferFrontSpareSize + b.bufferWriteableSize then
    let readable := b.bufferReadableSize
    { b with
      data := Block.shiftDown b.data b.readIndex readable
      readIndex := 0
      writeIndex := readable
    }
  else
    match realloc (b.totalSize + size) with
    | none => b
    | some garbage =>
      { b with
        data := b.data ++ (List.range size).map garbage
        totalSize := b.totalSize + size
      }

def bufferAppend (realloc : Realloc) (b : Buffer) (data : Option (List UInt8)) : Option Buffer :=
  match data with
  | none => some b
  | some src =>
    let b := b.makeRoom realloc src.length
    match Block.store b.data b.writeIndex src with
    | none => none
    | some data => some { b with data, writeIndex := b.writeIndex + src.length }

def bufferAppendChar (realloc : Realloc) (b : Buffer) (c : UInt8) : Option Buffer :=
  b.bufferAppend realloc (some [c])

def bufferAppendString (realloc : Realloc) (b : Buffer) (s : Option (List UInt8)) : Option Buffer :=
  b.bufferAppend realloc s

-- `chunk` is what `readv` returned: the bytes that do not fit behind `writeIndex` have gone to
-- `additional_buffer`.
def bufferSocketRead (realloc : Realloc) (b : Buffer) (chunk : List UInt8) : Option Buffer :=
  let maxWritable := b.bufferWriteableSize
  if chunk.length ≤ maxWritable then
    match Block.store b.data b.writeIndex chunk with
    | none => none
    | some data => some { b with data, writeIndex := b.writeIndex + chunk.length }
  else
    match Block.store b.data b.writeIndex (chunk.take maxWritable) with
    | none => none
    | some data =>
      bufferAppend realloc { b with data, writeIndex := b.totalSize } (some (chunk.drop maxWritable))

def advance (b : Buffer) (n : Nat) : Buffer :=
  { b with readIndex := b.readIndex + n }

def readable (b : Buffer) : List UInt8 :=
  Block.slice b.data b.readIndex b.writeIndex

structure Wf (b : Buffer) : Prop where
  read_le_write : b.readIndex ≤ b.writeIndex
  write_le_total : b.writeIndex ≤ b.totalSize
  length_data : b.data.length = b.totalSize

def Fits (realloc : Realloc) (b : Buffer) (size : Nat) : Prop :=
  size ≤ b.bufferFrontSpareSize + b.bufferWriteableSize ∨ (realloc (b.totalSize + size)).isSome

theorem bufferNew_wf (garbage : Nat → UInt8) : (bufferNew garbage).Wf := by
  constructor
  . exact Nat.le_refl _
  . exact Nat.zero_le _
  . simp [bufferNew]

@[simp]
theorem readable_bufferNew (garbage : Nat → UInt8) : (bufferNew garbage).readable = [] := by
  apply Block.slice_self

theorem length_readable {b : Buffer} (hwf : b.Wf) : b.readable.length = b.bufferReadableSize := by
  apply Block.length_slice
  have := hwf.write_le_total
  have := hwf.length_data
  omega

theorem readable_eq_nil_iff {b : Buffer} (hwf : b.Wf) : b.readable = [] ↔ b.bufferReadableSize = 0 := by
  rw [← length_readable hwf]
  exact List.length_eq_zero_iff.symm

theorem advance_wf {b : Buffer} (hwf : b.Wf) {n : Nat} (hn : n ≤ b.bufferReadableSize)
    : (b.advance n).Wf := by
  unfold bufferReadableSize at hn
  have := hwf.read_le_write
  constructor
  . dsimp [advance]
    omega
  . exact hwf.write_le_total
  . exact hwf.length_data

@[simp]
theorem readable_advance (b : Buffer) (n : Nat) : (b.advance n).readable = b.readable.drop n := by
  unfold readable advance
  rw [Block.drop_slice]

@[simp]
theorem advance_advance (b : Buffer) (m n : Nat) : (b.advance m).advance n = b.advance (m + n) := by
  simp [advance, Nat.add_assoc]

theorem makeRoom_wf (realloc : Realloc) {b : Buffer} (hwf : b.Wf) (size : Nat)
    : (b.makeRoom realloc size).Wf := by
  have hrw := hwf.read_le_write
  have hwt := hwf.write_le_total
  have hlen := hwf.length_data
  unfold makeRoom
  split
  . exact hwf
  . split
    . constructor
      . exact Nat.zero_le _
      . dsimp [bufferReadableSize]
        omega
      . dsimp
        rw [Block.length_shiftDown, hlen]
    . split
      . exact hwf
      . constructor
        . exact hrw
        . dsimp
          omega
        . simp [hlen]

theorem readable_makeRoom (realloc : Realloc) {b : Buffer} (hwf : b.Wf) (size : Nat)
    : (b.makeRoom realloc size).readable = b.readable := by
  have hrw := hwf.read_le_write
  have hwt := hwf.write_le_total
  have hlen := hwf.length_data
  unfold makeRoom
  split
  . rfl
  . split
    . unfold readable bufferReadableSize
      dsimp
      rw [Block.shiftDown_eq _ _ _ (by omega)]
      rw [show b.readIndex + (b.writeIndex - b.readIndex) = b.writeIndex by omega]
      have hslice := Block.length_slice b.data b.readIndex b.writeIndex (by omega)
      rw [Block.slice_append_right _ _ _ _ (by omega), ← hslice, Block.slice_zero_length]
    . split
      . rfl
      . unfold readable
        dsimp
        rw [Block.slice_append_right _ _ _ _ (by omega)]

theorem le_writeable_makeRoom {realloc : Realloc} {b : Buffer} (hwf : b.Wf) {size : Nat}
    (hfits : b.Fits realloc size)
    : size ≤ (b.makeRoom realloc size).bufferWriteableSize := by
  have hrw := hwf.read_le_write
  have hwt := hwf.write_le_total
  unfold makeRoom
  split
  . assumption
  . split
    . next hspare =>
      dsimp [bufferWriteableSize, bufferFrontSpareSize, bufferReadableSize] at *
      omega
    . next hspare =>
      cases hfits with
      | inl h => contradiction
      | inr h =>
        split
        . next hnull => simp [hnull] at h
        . dsimp [bufferWriteableSize]
          omega

theorem store_spec {b : Buffer} (hwf : b.Wf) (src : List UInt8) (hroom : src.length ≤ b.bufferWriteableSize)
    : ∃ data, Block.store b.data b.writeIndex src = some data
        ∧ Wf { b with data, writeIndex := b.writeIndex + src.length }
        ∧ readable { b with data, writeIndex := b.writeIndex + src.length } = b.readable ++ src := by
  have hrw := hwf.read_le_write
  have hwt := hwf.write_le_total
  have hlen := hwf.length_data
  unfold bufferWriteableSize at hroom
  have hstore := Block.store_eq_some (show b.writeIndex + src.length ≤ b.data.length by omega)
  refine ⟨_, hstore, ?_, ?_⟩
  . constructor
    . dsimp
      omega
    . dsimp
      omega
    . dsimp
      rw [Block.length_of_store hstore, hlen]
  . exact Block.slice_of_store hrw hstore

theorem bufferAppend_spec {realloc : Realloc} {b : Buffer} (hwf : b.Wf) (src : List UInt8)
    (hfits : b.Fits realloc src.length)
    : ∃ b', b.bufferAppend realloc (some src) = some b' ∧ b'.Wf ∧ b'.readable = b.readable ++ src := by
  have hroom := le_writeable_makeRoom hwf hfits
  have hwf' := makeRoom_wf realloc hwf src.length
  have hreadable := readable_makeRoom realloc hwf src.length
  unfold bufferAppend
  dsimp
  generalize b.makeRoom realloc src.length = room at *
  obtain ⟨data, hstore, hstored⟩ := store_spec hwf' src hroom
  rw [hreadable] at hstored
  exact ⟨_, by rw [hstore], hstored⟩

theorem bufferSocketRead_spec (realloc : Realloc) {b : Buffer} (hwf : b.Wf) (chunk : List UInt8)
    (hfits : b.bufferWriteableSize < chunk.length →
      Fits realloc { b with writeIndex := b.totalSize } (chunk.length - b.bufferWriteableSize))
    : ∃ b', b.bufferSocketRead realloc chunk = some b' ∧ b'.Wf ∧ b'.readable = b.readable ++ chunk := by
  have hwt := hwf.write_le_total
  unfold bufferSocketRead
  dsimp only
  split
  . next hroom =>
    obtain ⟨data, hstore, hwf', hreadable⟩ := store_spec hwf chunk hroom
    exact ⟨_, by rw [hstore], hwf', hreadable⟩
  . next hroom =>
    have hlen : (chunk.take b.bufferWriteableSize).length = b.bufferWriteableSize := by
      rw [List.length_take]
      omega
    obtain ⟨data, hstore, hwf', hreadable⟩ :=
      store_spec hwf (chunk.take b.bufferWriteableSize) (Nat.le_of_eq hlen)
    rw [hlen, show b.writeIndex + b.bufferWriteableSize = b.totalSize by
      unfold bufferWriteableSize; omega] at hwf' hreadable
    obtain ⟨b', happend, hwf'', hreadable'⟩ := by
      apply bufferAppend_spec hwf' (chunk.drop b.bufferWriteableSize)
      rw [List.length_drop]
      exact hfits (by omega)
    refine ⟨b', by simp [hstore, happend], hwf'', ?_⟩
    rw [hreadable', hreadable, List.append_assoc, List.take_append_drop]

end Buffer
end NetWork
