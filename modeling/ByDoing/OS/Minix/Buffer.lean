import Mathlib.Logic.Function.Basic
import ByDoing.Lib.Machine

/-!
This module contains the state that the code of the Minix file system works on, and the buffers of
`buffer.c`. A call runs without interference from other tasks, so that nothing is waited for and no buffer
is locked. A buffer that nobody uses stays in the cache: what is recycled is written back and read again
when it is wanted. `ι` are the in-core inodes.
-/

namespace OS
namespace Minix

abbrev Block := Nat → Nat

structure BufferHead where
  bCount : Nat
  bDirt : Bool
  bUptodate : Bool
  bData : Block

structure Bitmap where
  bData : Nat → BitVec 32
  bDirt : Bool

structure SuperBlock (ι : Type) where
  sNinodes : Nat
  sNzones : Nat
  sImapBlocks : Nat
  sZmapBlocks : Nat
  sFirstdatazone : Nat
  sImap : Nat → Option Bitmap
  sZmap : Nat → Option Bitmap
  sImount : Option ι

structure MInode where
  iMode : Nat
  iUid : Nat
  iSize : Nat
  iMtime : Nat
  iGid : Nat
  iNlinks : Nat
  iZone : Nat → Nat
  iAtime : Nat
  iCtime : Nat
  iDev : Nat
  iNum : Nat
  iCount : Nat
  iDirt : Bool
  iPipe : Bool
  iMount : Bool

/--
`super_block` and `cache` are by device; `disk` is what a read brings, `none` where it fails. `cleared` are the
zones whose bit `free_block` has cleared, the last one first.
-/
structure Fs (ι : Type) where
  superBlock : Nat → Option (SuperBlock ι)
  cache : Nat → Nat → Option BufferHead
  disk : Nat → Nat → Option Block
  inode : ι → MInode
  CURRENT_TIME : Nat
  cleared : List (Nat × Nat)

-- A panic, or a step through a null pointer.
inductive Stop where
  | panic (msg : String)
  | fault
  deriving Repr, DecidableEq

abbrev Call (ι : Type) (α : Type) := Machine (Fs ι) Stop α

def panic {ι α : Type} (msg : String) : Call ι α :=
  Machine.stop (.panic msg)

namespace Fs

variable {ι : Type}

def put (s : Fs ι) (dev block : Nat) (bh : BufferHead) : Fs ι :=
  { s with cache := Function.update s.cache dev (Function.update (s.cache dev) block (some bh)) }

-- What `bread` finds in a block.
def content (s : Fs ι) (dev block : Nat) : Option Block :=
  match s.cache dev block with
  | some bh => if bh.bUptodate then some bh.bData else s.disk dev block
  | none => s.disk dev block

def count (s : Fs ι) (dev block : Nat) : Nat :=
  match s.cache dev block with
  | some bh => bh.bCount
  | none => 0

end Fs

section Buffers

variable {ι : Type}

def getSuper (s : Fs ι) (dev : Nat) : Option (SuperBlock ι) :=
  if dev = 0 then none else s.superBlock dev

def getHashTable (dev block : Nat) : Call ι (Option BufferHead) :=
  fun s =>
    match s.cache dev block with
    | none => .ok (none, s)
    | some bh =>
      let bh := { bh with bCount := bh.bCount + 1 }
      .ok (some bh, s.put dev block bh)

def getblk (dev block : Nat) : Call ι BufferHead := do
  match ← getHashTable dev block with
  | some bh => return bh
  | none =>
    let bh := { bCount := 1, bDirt := false, bUptodate := false, bData := fun _ => 0 }
    modify fun s => s.put dev block bh
    return bh

def brelse (dev block : Nat) : Call ι Unit :=
  fun s =>
    match s.cache dev block with
    | none => .error .fault
    | some bh =>
      if bh.bCount = 0 then
        .error (.panic "Trying to free free buffer")
      else
        .ok ((), s.put dev block { bh with bCount := bh.bCount - 1 })

def llRwBlockRead (dev block : Nat) : Call ι Unit :=
  fun s =>
    match s.cache dev block with
    | none => .error .fault
    | some bh =>
      match s.disk dev block with
      | some data =>
        .ok ((), s.put dev block { bh with bDirt := false, bUptodate := true, bData := data })
      | none => .ok ((), s.put dev block { bh with bDirt := false })

-- Whether the block could be read: the buffer, or `NULL`.
def bread (dev block : Nat) : Call ι Bool := do
  let bh ← getblk dev block
  if bh.bUptodate then
    return true
  llRwBlockRead dev block
  match (← get).cache dev block with
  | some bh =>
    if bh.bUptodate then
      return true
    brelse dev block
    return false
  | none => Machine.stop .fault

def bData (dev block : Nat) : Call ι Block :=
  fun s =>
    match s.cache dev block with
    | some bh => .ok (bh.bData, s)
    | none => .error .fault

def store (dev block i value : Nat) : Call ι Unit :=
  fun s =>
    match s.cache dev block with
    | some bh => .ok ((), s.put dev block { bh with bData := Function.update bh.bData i value, bDirt := true })
    | none => .error .fault

theorem cache_put (s : Fs ι) (dev block : Nat) (bh : BufferHead) (dev' block' : Nat)
    : (s.put dev block bh).cache dev' block'
        = if dev' = dev ∧ block' = block then some bh else s.cache dev' block' := by
  unfold Fs.put
  by_cases hdev : dev' = dev
  . subst hdev
    by_cases hblock : block' = block
    . simp [hblock]
    . simp [hblock]
  . simp [hdev]

@[simp]
theorem cache_put_self (s : Fs ι) (dev block : Nat) (bh : BufferHead)
    : (s.put dev block bh).cache dev block = some bh := by
  simp [cache_put]

@[simp]
theorem put_put (s : Fs ι) (dev block : Nat) (bh bh' : BufferHead)
    : (s.put dev block bh).put dev block bh' = s.put dev block bh' := by
  simp [Fs.put]

theorem content_put (s : Fs ι) (dev block : Nat) (bh : BufferHead) (dev' block' : Nat)
    : (s.put dev block bh).content dev' block'
        = if dev' = dev ∧ block' = block then
            if bh.bUptodate then some bh.bData else s.disk dev block
          else
            s.content dev' block' := by
  unfold Fs.content
  rw [cache_put]
  by_cases h : dev' = dev ∧ block' = block
  . obtain ⟨rfl, rfl⟩ := h
    simp only [and_self, if_true]
    rfl
  . simp only [if_neg h]
    rfl

theorem count_put (s : Fs ι) (dev block : Nat) (bh : BufferHead) (dev' block' : Nat)
    : (s.put dev block bh).count dev' block'
        = if dev' = dev ∧ block' = block then bh.bCount else s.count dev' block' := by
  unfold Fs.count
  rw [cache_put]
  by_cases h : dev' = dev ∧ block' = block
  . simp only [if_pos h]
  . simp only [if_neg h]

theorem content_put_of_eq {s : Fs ι} {dev block : Nat} {bh : BufferHead} {data : Block}
    (hcontent : s.content dev block = some data) (huptodate : bh.bUptodate = true) (hdata : bh.bData = data)
    : (s.put dev block bh).content = s.content := by
  funext dev' block'
  rw [content_put, if_pos huptodate]
  split
  . next h => rw [h.left, h.right, hcontent, hdata]
  . rfl

theorem getHashTable_none {s : Fs ι} {dev block : Nat} (h : s.cache dev block = none)
    : getHashTable dev block s = .ok (none, s) := by
  unfold getHashTable
  rw [h]

theorem getHashTable_some {s : Fs ι} {dev block : Nat} {bh : BufferHead} (h : s.cache dev block = some bh)
    : getHashTable dev block s
        = .ok (some { bh with bCount := bh.bCount + 1 },
            s.put dev block { bh with bCount := bh.bCount + 1 }) := by
  unfold getHashTable
  rw [h]

-- The buffer that `getblk` finds or makes.
def got (s : Fs ι) (dev block : Nat) : BufferHead :=
  match s.cache dev block with
  | some bh => { bh with bCount := bh.bCount + 1 }
  | none => { bCount := 1, bDirt := false, bUptodate := false, bData := fun _ => 0 }

@[simp]
theorem bCount_got (s : Fs ι) (dev block : Nat) : (got s dev block).bCount = s.count dev block + 1 := by
  unfold got Fs.count
  cases s.cache dev block with
  | none | some => rfl

theorem getblk_eq (s : Fs ι) (dev block : Nat)
    : getblk dev block s = .ok (got s dev block, s.put dev block (got s dev block)) := by
  unfold getblk got
  cases hcache : s.cache dev block with
  | none =>
    rw [Machine.bind_of_eq_ok (getHashTable_none hcache)]
    rfl
  | some bh =>
    rw [Machine.bind_of_eq_ok (getHashTable_some hcache)]
    rfl

theorem brelse_eq {s : Fs ι} {dev block : Nat} {bh : BufferHead} (h : s.cache dev block = some bh)
    (hcount : 0 < bh.bCount)
    : brelse dev block s = .ok ((), s.put dev block { bh with bCount := bh.bCount - 1 }) := by
  unfold brelse
  rw [h]
  simp only [if_neg (Nat.ne_of_gt hcount)]

theorem bread_eq_some {s : Fs ι} {dev block : Nat} {data : Block} (h : s.content dev block = some data)
    : ∃ bh, bread dev block s = .ok (true, s.put dev block bh) ∧ bh.bCount = s.count dev block + 1
        ∧ bh.bUptodate = true ∧ bh.bData = data := by
  unfold bread
  rw [Machine.bind_of_eq_ok (getblk_eq s dev block)]
  by_cases huptodate : (got s dev block).bUptodate = true
  . refine ⟨got s dev block, ?_, bCount_got s dev block, huptodate, ?_⟩
    . rw [if_pos huptodate]
      rfl
    . unfold Fs.content at h
      unfold got at huptodate ⊢
      cases hcache : s.cache dev block with
      | none => simp [hcache] at huptodate
      | some bh =>
        rw [hcache] at huptodate h
        simp only [if_pos huptodate, Option.some.injEq] at h
        exact h
  . have hdisk : s.disk dev block = some data := by
      unfold Fs.content at h
      unfold got at huptodate
      cases hcache : s.cache dev block with
      | none => simpa [hcache] using h
      | some bh =>
        rw [hcache] at huptodate h
        simpa only [if_neg huptodate] using h
    let bh : BufferHead :=
      { got s dev block with bDirt := false, bUptodate := true, bData := data }
    have hread : llRwBlockRead dev block (s.put dev block (got s dev block))
        = .ok ((), s.put dev block bh) := by
      unfold llRwBlockRead
      rw [cache_put_self]
      simp only [show (s.put dev block (got s dev block)).disk dev block = some data from hdisk, put_put]
      rfl
    refine ⟨bh, ?_, bCount_got s dev block, rfl, rfl⟩
    rw [if_neg huptodate, Machine.bind_of_eq_ok hread, Machine.bind_of_eq_ok Machine.get_eq, cache_put_self]
    rfl

theorem bread_eq_none {s : Fs ι} {dev block : Nat} (h : s.content dev block = none)
    : ∃ bh, bread dev block s = .ok (false, s.put dev block bh) ∧ bh.bCount = s.count dev block
        ∧ bh.bUptodate = false := by
  unfold bread
  rw [Machine.bind_of_eq_ok (getblk_eq s dev block)]
  have hgot : (got s dev block).bUptodate = false ∧ s.disk dev block = none := by
    unfold Fs.content at h
    unfold got
    cases hcache : s.cache dev block with
    | none =>
      rw [hcache] at h
      exact ⟨rfl, h⟩
    | some bh =>
      rw [hcache] at h
      cases huptodate : bh.bUptodate with
      | true => simp [huptodate] at h
      | false =>
        simp only [huptodate] at h
        exact ⟨rfl, h⟩
  let bh : BufferHead := { got s dev block with bDirt := false }
  have hread : llRwBlockRead dev block (s.put dev block (got s dev block)) = .ok ((), s.put dev block bh) := by
    unfold llRwBlockRead
    rw [cache_put_self]
    simp only [show (s.put dev block (got s dev block)).disk dev block = none from hgot.right, put_put]
    rfl
  have hbh : bh.bUptodate = false := hgot.left
  have hpos : 0 < bh.bCount := by
    rw [show bh.bCount = s.count dev block + 1 from bCount_got s dev block]
    exact Nat.succ_pos _
  have hbrelse := brelse_eq (cache_put_self s dev block bh) hpos
  rw [put_put] at hbrelse
  refine ⟨{ bh with bCount := bh.bCount - 1 }, ?_, ?_, hbh⟩
  . rw [if_neg (show ¬ (got s dev block).bUptodate = true by simp [hgot.left])]
    rw [Machine.bind_of_eq_ok hread, Machine.bind_of_eq_ok Machine.get_eq, cache_put_self]
    dsimp only
    rw [if_neg (show ¬ bh.bUptodate = true by simp [hbh]), Machine.bind_of_eq_ok hbrelse]
    rfl
  . rw [show bh.bCount = s.count dev block + 1 from bCount_got s dev block]
    rfl

theorem bData_eq {s : Fs ι} {dev block : Nat} {bh : BufferHead} (h : s.cache dev block = some bh)
    : bData dev block s = .ok (bh.bData, s) := by
  unfold bData
  rw [h]

theorem store_eq {s : Fs ι} {dev block : Nat} {bh : BufferHead} (h : s.cache dev block = some bh) (i value : Nat)
    : store dev block i value s
        = .ok ((), s.put dev block
            { bh with bData := Function.update bh.bData i value, bDirt := true }) := by
  unfold store
  rw [h]

end Buffers

end Minix
end OS
