import ByDoing.Lib.Block

/-!
This module contains the strings that the HTTP code keeps in blocks from `malloc`. A fresh block holds
garbage. A store outside of the block is remembered and otherwise dropped; what a program would read
there is not defined, so a string has a value only if its terminator lies inside its block.
-/

namespace NetWork

structure CharBlock where
  bytes : List UInt8
  overrun : Bool
  deriving Repr, DecidableEq

namespace CharBlock

def malloc (garbage : Nat → UInt8) (size : Nat) : CharBlock :=
  { bytes := (List.range size).map garbage, overrun := false }

def store (block : CharBlock) (i : Nat) (c : UInt8) : CharBlock :=
  match Block.store block.bytes i [c] with
  | some bytes => { block with bytes }
  | none => { block with overrun := true }

-- `strncpy` stops at the first NUL of its source and pads with NULs up to `n` bytes.
def strncpy (block : CharBlock) (src : List UInt8) (n : Nat) : CharBlock :=
  let copied := (src.take n).takeWhile (· != 0)
  match Block.store block.bytes 0 (copied ++ List.replicate (n - copied.length) 0) with
  | some bytes => { block with bytes }
  | none => { block with overrun := true }

def cString (block : CharBlock) : Option (List UInt8) :=
  if 0 ∈ block.bytes then some (block.bytes.takeWhile (· != 0)) else none

-- Copy `src` into a block of one byte more and put the NUL at index `term`.
def copyString (garbage : Nat → UInt8) (src : List UInt8) (term : Nat) : CharBlock :=
  ((malloc garbage (src.length + 1)).strncpy src src.length).store term 0

end CharBlock

-- The bytes of both strings from their pointers on; `none` if the comparison leaves them.
def strncmp (as bs : List UInt8) (n : Nat) : Option Int :=
  match as, bs, n with
  | _, _, 0 => some 0
  | a :: as, b :: bs, n + 1 =>
    if a = b then
      if a = 0 then some 0 else strncmp as bs n
    else
      some ((a.toNat : Int) - b.toNat)
  | _, _, _ + 1 => none

namespace CharBlock

theorem strncpy_malloc {garbage : Nat → UInt8} {src : List UInt8} (h : 0 ∉ src)
    : (malloc garbage (src.length + 1)).strncpy src src.length
        =
      ⟨src ++ [garbage src.length], false⟩ := by
  have hcopied : (src.take src.length).takeWhile (· != 0) = src := by
    rw [List.take_length, List.takeWhile_eq_self_iff]
    intro c hc
    rw [bne_iff_ne]
    intro hzero
    exact h (hzero ▸ hc)
  have hlen : ((List.range (src.length + 1)).map garbage).length = src.length + 1 := by simp
  unfold strncpy malloc
  dsimp only
  rw [hcopied, Nat.sub_self, List.replicate_zero, List.append_nil]
  rw [Block.store_eq_some (by omega)]
  rw [List.range_succ, List.map_append]
  simp

theorem copyString_length {garbage : Nat → UInt8} {src : List UInt8} (h : 0 ∉ src)
    : copyString garbage src src.length = ⟨src ++ [0], false⟩ := by
  unfold copyString
  rw [strncpy_malloc h]
  unfold store Block.store
  simp

theorem copyString_length_add_one {garbage : Nat → UInt8} {src : List UInt8} (h : 0 ∉ src)
    : copyString garbage src (src.length + 1) = ⟨src ++ [garbage src.length], true⟩ := by
  unfold copyString
  rw [strncpy_malloc h]
  unfold store Block.store
  rw [if_neg (by simp)]

theorem overrun_store_of_le {block : CharBlock} {i : Nat} (h : block.bytes.length ≤ i) (c : UInt8)
    : (block.store i c).overrun = true := by
  unfold store Block.store
  rw [if_neg (by simp; omega)]

theorem length_strncpy (block : CharBlock) (src : List UInt8) (n : Nat)
    : (block.strncpy src n).bytes.length = block.bytes.length := by
  unfold strncpy
  dsimp only
  split
  . next hstore => exact Block.length_of_store hstore
  . rfl

theorem overrun_copyString (garbage : Nat → UInt8) (src : List UInt8)
    : (copyString garbage src (src.length + 1)).overrun = true := by
  apply overrun_store_of_le
  rw [length_strncpy]
  simp [malloc]

theorem cString_append {src : List UInt8} (h : 0 ∉ src) (c : UInt8) (overrun : Bool)
    : cString ⟨src ++ [c], overrun⟩ = if c = 0 then some src else none := by
  unfold cString
  dsimp only
  by_cases hc : c = 0
  . subst hc
    rw [if_pos (by simp), if_pos rfl, Block.takeWhile_append_terminator h]
  . rw [if_neg, if_neg hc]
    rw [List.mem_append, List.mem_singleton, not_or]
    exact ⟨h, Ne.symm hc⟩

end CharBlock

end NetWork
