import Mathlib.Algebra.Ring.Nat
import Mathlib.Data.List.FinRange
import ByDoing.Lib.Ensures
import ByDoing.OS.Minix.Truncate

/-!
This module contains the table of the in-core inodes, of `inode.c` and `bitmap.c`: `iget`, `iput`, `new_inode`,
`free_inode` and what they call. `Kernel` has, besides the file system, where the search for an empty inode goes on
and the devices of the super blocks in the order of their table.
-/

namespace OS
namespace Minix

def NR_INODE : Nat := 32

abbrev Slot := Fin NR_INODE

instance : NeZero NR_INODE :=
  ⟨by decide⟩

def ROOT_INO : Nat := 1
def INODES_PER_BLOCK : Nat := 32

def S_IFBLK : Nat := 0o060000
def S_IFCHR : Nat := 0o020000

def S_ISBLK (mode : Nat) : Bool :=
  mode &&& S_IFMT == S_IFBLK

def S_ISCHR (mode : Nat) : Bool :=
  mode &&& S_IFMT == S_IFCHR

namespace MInode

-- `memset(inode,0,sizeof(*inode))`.
def zero : MInode where
  iMode := 0
  iUid := 0
  iSize := 0
  iMtime := 0
  iGid := 0
  iNlinks := 0
  iZone := fun _ => 0
  iAtime := 0
  iCtime := 0
  iDev := 0
  iNum := 0
  iCount := 0
  iDirt := false
  iPipe := false
  iMount := false

-- The 16 shorts of the `d_inode` that an in-core inode begins with.
def shorts (m : MInode) (k : Nat) : Nat :=
  match k with
  | 0 => m.iMode % 65536
  | 1 => m.iUid % 65536
  | 2 => m.iSize % 65536
  | 3 => m.iSize / 65536 % 65536
  | 4 => m.iMtime % 65536
  | 5 => m.iMtime / 65536 % 65536
  | 6 => m.iGid % 256 + m.iNlinks % 256 * 256
  | k => m.iZone (k - 7) % 65536

end MInode

-- `i_num - 1`, which is unsigned.
def inodeIndex (nr : Nat) : Nat :=
  (nr + 0xffffffff) % 0x100000000

def SuperBlock.inodeBlock {ι : Type} (sb : SuperBlock ι) (nr : Nat) : Nat :=
  2 + sb.sImapBlocks + sb.sZmapBlocks + inodeIndex nr / INODES_PER_BLOCK

def Fs.setImap {ι : Type} (s : Fs ι) (dev i : Nat) (m : Bitmap) : Fs ι :=
  { s with superBlock := fun dev' =>
      if dev' = dev then
        (s.superBlock dev).map fun sb => { sb with sImap := Function.update sb.sImap i (some m) }
      else
        s.superBlock dev' }

section Inodes

def writeInode (inode : Slot) : Call Slot Unit := do
  let m := (← get).inode inode
  if !m.iDirt || m.iDev == 0 then return
  match getSuper (← get) m.iDev with
  | none => panic "trying to write inode without device"
  | some sb =>
    let block := sb.inodeBlock m.iNum
    if ← bread m.iDev block then
      forM (List.range 16) fun k =>
        store m.iDev block (inodeIndex m.iNum % INODES_PER_BLOCK * 16 + k) (m.shorts k)
      modify fun s => s.setInode inode fun m => { m with iDirt := false }
      brelse m.iDev block
    else
      panic "unable to read i-node block"

def syncInodes : Call Slot Unit :=
  forM (List.finRange NR_INODE) fun inode => do
    let m := (← get).inode inode
    if m.iDirt && !m.iPipe then
      writeInode inode

-- The loop over the buffers in `sync_dev`: every dirty one of the device, which is up to date, is written.
def writeBuffers (dev : Nat) : Call Slot Unit :=
  modify fun s =>
    { s with
      cache := fun d z =>
        (s.cache d z).map fun bh => if d = dev ∧ bh.bDirt ∧ bh.bUptodate then { bh with bDirt := false } else bh
      disk := fun d z =>
        match s.cache d z with
        | some bh => if d = dev ∧ bh.bDirt ∧ bh.bUptodate then some bh.bData else s.disk d z
        | none => s.disk d z }

def syncDev (dev : Nat) : Call Slot Unit := do
  writeBuffers dev
  syncInodes
  writeBuffers dev

def freeInode (inode : Option Slot) : Call Slot Unit := do
  match inode with
  | none => return
  | some inode =>
    let m := (← get).inode inode
    if m.iDev = 0 then
      modify fun s => s.setInode inode fun _ => MInode.zero
      return
    if m.iCount > 1 then panic "free_inode"
    if m.iNlinks ≠ 0 then panic "trying to free inode with links"
    match getSuper (← get) m.iDev with
    | none => panic "trying to free inode on nonexistent device"
    | some sb =>
      if m.iNum < 1 ∨ m.iNum > sb.sNinodes then panic "trying to free inode 0 or nonexistant inode"
      match sb.sImap (m.iNum / 8192) with
      | none => panic "nonexistent imap in superblock"
      | some map =>
        -- `printk` says so if the bit is clear already.
        modify fun s => s.setImap m.iDev (m.iNum / 8192) (map.clearBit (m.iNum % 8192))
        modify fun s => s.setInode inode fun _ => MInode.zero

def decrement (inode : Slot) : Call Slot Unit :=
  modify fun s => s.setInode inode fun m => { m with iCount := m.iCount - 1 }

-- The page of a pipe, which `free_page` takes back, is not in this state.
def iput (inode : Option Slot) : Call Slot Unit := do
  match inode with
  | none => return
  | some inode =>
    let m := (← get).inode inode
    if m.iCount = 0 then panic "iput: trying to free free inode"
    if m.iPipe then
      decrement inode
      if m.iCount = 1 then
        modify fun s => s.setInode inode fun m => { m with iCount := 0, iDirt := false, iPipe := false }
      return
    if m.iDev = 0 then
      decrement inode
      return
    if S_ISBLK m.iMode then
      syncDev (m.iZone 0)
    let m := (← get).inode inode
    if m.iCount > 1 then
      decrement inode
      return
    if m.iNlinks = 0 then
      truncate inode
      freeInode inode
      return
    -- Written, the inode is clean, and the next round comes to the last line.
    if m.iDirt then
      writeInode inode
    decrement inode

structure Kernel where
  fs : Fs Slot
  lastInode : Slot
  sDev : List Nat

abbrev Sys (α : Type) := Machine Kernel Stop α

def liftCall {α : Type} (x : Call Slot α) : Sys α :=
  fun k =>
    match x k.fs with
    | .ok (a, s) => .ok (a, { k with fs := s })
    | .error e => .error e

-- The loop over the table that begins behind `last_inode`: the inode, and the new `last_inode`.
def findEmpty (inode : Slot → MInode) : Nat → Slot → Option Slot → Option Slot × Slot
  | 0, last, found => (found, last)
  | n + 1, last, found =>
    if (inode (last + 1)).iCount = 0 then
      if (inode (last + 1)).iDirt then
        findEmpty inode n (last + 1) (some (last + 1))
      else
        (some (last + 1), last + 1)
    else
      findEmpty inode n (last + 1) found

def getEmptyInode : Sys Slot := do
  let k ← get
  let found := findEmpty k.fs.inode NR_INODE k.lastInode none
  modify fun k => { k with lastInode := found.snd }
  match found.fst with
  | none => Machine.stop (.panic "No free inodes in mem")
  | some inode =>
    if (k.fs.inode inode).iDirt then
      liftCall (writeInode inode)
      if ((← get).fs.inode inode).iDirt then Machine.stop .fault
    liftCall (modify fun s => s.setInode inode fun _ => { MInode.zero with iCount := 1 })
    return inode

structure Task where
  root : Option Slot
  pwd : Option Slot
  euid : Nat
  egid : Nat
  umask : Nat

def newInode (current : Task) (dev : Nat) : Sys (Option Slot) := do
  let inode ← getEmptyInode
  match getSuper (← get).fs dev with
  | none => Machine.stop (.panic "new_inode with unknown device")
  | some sb =>
    match firstClear sb.sImap with
    | none =>
      liftCall (iput inode)
      return none
    | some (i, j) =>
      if j + i * 8192 > sb.sNinodes then
        liftCall (iput inode)
        return none
      match sb.sImap i with
      | none => Machine.stop .fault
      | some map =>
        if map.bit j then Machine.stop (.panic "new_inode: bit already set")
        liftCall (modify fun s => s.setImap dev i (map.setBit j))
        liftCall (modify fun s => s.setInode inode fun m =>
          { m with
            iCount := 1
            iNlinks := 1
            iDev := dev
            iUid := current.euid
            iGid := current.egid % 256
            iDirt := true
            iNum := j + i * 8192
            iMtime := s.CURRENT_TIME
            iAtime := s.CURRENT_TIME
            iCtime := s.CURRENT_TIME })
        return inode

end Inodes

section Frames

open Machine

def Stop.OfBmap (e : Stop) : Prop :=
  e = .panic "_bmap: block<0" ∨ e = .panic "_bmap: block>big"

-- What `bread` puts into the cache: it holds the buffer if there is one to be returned.
structure Read (s : Fs Slot) (dev block : Nat) (b : Bool) (bh : BufferHead) : Prop where
  count : bh.bCount = s.count dev block + b.toNat
  uptodate : bh.bUptodate = b
  content : s.content dev block = if b then some bh.bData else none

theorem bread_ensures {s : Fs Slot} {dev block : Nat} {Q : Bool → Fs Slot → Prop} {E : Stop → Prop}
    (h : ∀ b bh, Read s dev block b bh → Q b (s.put dev block bh))
    : Ensures (bread dev block) s Q E := by
  cases hcontent : s.content dev block with
  | none =>
    obtain ⟨bh, hread, hcount, huptodate⟩ := bread_eq_none hcontent
    exact .of_eq_ok hread (h false bh ⟨hcount, huptodate, hcontent⟩)
  | some data =>
    obtain ⟨bh, hread, hcount, huptodate, hdata⟩ := bread_eq_some hcontent
    exact .of_eq_ok hread (h true bh ⟨hcount, huptodate, by rw [hcontent, hdata]; rfl⟩)

theorem brelse_ensures {s : Fs Slot} {dev block : Nat} {Q : Unit → Fs Slot → Prop} {E : Stop → Prop}
    (h : ∀ bh, s.cache dev block = some bh → 0 < bh.bCount →
      Q () (s.put dev block { bh with bCount := bh.bCount - 1 }))
    (hE : s.count dev block = 0 → ∀ e : Stop, ¬ e.OfBmap → E e)
    : Ensures (brelse dev block) s Q E := by
  cases hcache : s.cache dev block with
  | none =>
    have hzero : s.count dev block = 0 := by simp [Fs.count, hcache]
    exact .of_eq_error (by simp only [brelse, hcache]) (hE hzero .fault (by simp [Stop.OfBmap]))
  | some bh =>
    by_cases hzero : bh.bCount = 0
    . have hcount : s.count dev block = 0 := by simp [Fs.count, hcache, hzero]
      have hstop : brelse dev block s = .error (.panic "Trying to free free buffer") := by
        simp only [brelse, hcache, if_pos hzero]
      exact .of_eq_error hstop (hE hcount _ (by simp [Stop.OfBmap]))
    . have hpos : 0 < bh.bCount := Nat.pos_of_ne_zero hzero
      exact .of_eq_ok (brelse_eq hcache hpos) (h bh hcache hpos)

theorem store_ensures {s : Fs Slot} {dev block i value : Nat} {bh : BufferHead} {Q : Unit → Fs Slot → Prop}
    {E : Stop → Prop} (hcache : s.cache dev block = some bh)
    (h : Q () (s.put dev block { bh with bData := Function.update bh.bData i value, bDirt := true }))
    : Ensures (store dev block i value) s Q E :=
  .of_eq_ok (store_eq hcache i value) h

@[simp]
theorem superBlock_setInode (s : Fs Slot) (inode : Slot) (f : MInode → MInode)
    : (s.setInode inode f).superBlock = s.superBlock :=
  rfl

@[simp]
theorem cache_setInode (s : Fs Slot) (inode : Slot) (f : MInode → MInode) : (s.setInode inode f).cache = s.cache :=
  rfl

@[simp]
theorem inode_setInode (s : Fs Slot) (inode : Slot) (f : MInode → MInode)
    : (s.setInode inode f).inode = Function.update s.inode inode (f (s.inode inode)) :=
  rfl

@[simp]
theorem inode_put (s : Fs Slot) (dev block : Nat) (bh : BufferHead) : (s.put dev block bh).inode = s.inode :=
  rfl

@[simp]
theorem setInode_put (s : Fs Slot) (dev block : Nat) (bh : BufferHead) (inode : Slot) (f : MInode → MInode)
    : (s.put dev block bh).setInode inode f = (s.setInode inode f).put dev block bh :=
  rfl

theorem count_put_self {s : Fs Slot} {dev block : Nat} {bh : BufferHead} (h : bh.bCount = s.count dev block)
    : (s.put dev block bh).count = s.count := by
  funext d z
  rw [count_put]
  split
  . next heq => rw [h, heq.left, heq.right]
  . rfl

theorem forM_store_ensures {s : Fs Slot} {dev block : Nat} {bh : BufferHead} {is : List Nat} {i value : Nat → Nat}
    {Q : Unit → Fs Slot → Prop} {E : Stop → Prop}
    (h : ∀ bh', bh'.bCount = bh.bCount → bh'.bUptodate = bh.bUptodate → Q () (s.put dev block bh'))
    : Ensures (forM is fun k => store dev block (i k) (value k)) (s.put dev block bh) Q E := by
  have hrounds : Ensures (forM is fun k => store dev block (i k) (value k)) (s.put dev block bh)
      (fun _ t => ∃ bh', t = s.put dev block bh' ∧ bh'.bCount = bh.bCount ∧ bh'.bUptodate = bh.bUptodate) E := by
    apply Ensures.forM ⟨bh, rfl, rfl, rfl⟩
    rintro k _ _ ⟨bh', rfl, hcount, huptodate⟩
    apply store_ensures (cache_put_self s dev block bh')
    exact ⟨_, put_put s dev block _ _, hcount, huptodate⟩
  apply hrounds.imp
  rintro _ _ ⟨bh', rfl, hcount, huptodate⟩
  exact h bh' hcount huptodate

-- What `write_inode` does besides the store into the block.
structure Written (s s' : Fs Slot) (inode : Slot) : Prop where
  superBlock : s'.superBlock = s.superBlock
  count : s'.count = s.count
  inode : ∃ dirt, s'.inode = Function.update s.inode inode { s.inode inode with iDirt := dirt }

theorem Written.refl (s : Fs Slot) (inode : Slot) : Written s s inode where
  superBlock := rfl
  count := rfl
  inode := ⟨(s.inode inode).iDirt, by simp⟩

theorem writeInode_ensures {E : Stop → Prop} (hE : ∀ e : Stop, ¬ e.OfBmap → E e) (s : Fs Slot) (inode : Slot)
    : Ensures (writeInode inode) s (fun _ s' => Written s s' inode) E := by
  unfold writeInode
  apply Ensures.bind
  apply Ensures.get
  dsimp only
  split
  . exact .pure (.refl s inode)
  . apply Ensures.bind
    apply Ensures.get
    split
    . exact .stop (hE _ (by simp [Stop.OfBmap]))
    . next sb _ =>
      apply Ensures.bind
      apply bread_ensures
      intro b bh hread
      split
      . next hb =>
        subst hb
        apply Ensures.bind
        apply forM_store_ensures
        intro bh' hcount _
        apply Ensures.bind
        apply Ensures.modify
        apply brelse_ensures
        . intro bh'' hcache hpos
          have hbh : bh'' = bh' := by simpa using hcache.symm
          subst hbh
          have hself : bh''.bCount - 1 = s.count (s.inode inode).iDev (sb.inodeBlock (s.inode inode).iNum) := by
            rw [hcount, hread.count]
            rfl
          refine ⟨rfl, ?_, false, rfl⟩
          rw [setInode_put, put_put, count_put_self hself]
          rfl
        . intro hzero
          simp [count_put, hcount, hread.count] at hzero
      . exact .stop (hE _ (by simp [Stop.OfBmap]))

theorem liftCall_ensures {α : Type} {x : Call Slot α} {k : Kernel} {Q : α → Kernel → Prop} {E : Stop → Prop}
    (h : Ensures x k.fs (fun a s => Q a { k with fs := s }) E)
    : Ensures (liftCall x) k Q E := by
  cases hx : x k.fs with
  | error e =>
    have hlift : liftCall x k = .error e := by simp only [liftCall, hx]
    exact .of_eq_error hlift (h.error hx)
  | ok p =>
    have hlift : liftCall x k = .ok (p.fst, { k with fs := p.snd }) := by simp only [liftCall, hx]
    exact .of_eq_ok hlift (h.ok hx)

theorem findEmpty_free {inode : Slot → MInode} {n : Nat} {last : Slot} {found : Option Slot}
    (hfound : ∀ i, found = some i → (inode i).iCount = 0) {i : Slot}
    (h : (findEmpty inode n last found).fst = some i)
    : (inode i).iCount = 0 := by
  induction n generalizing last found with
  | zero => exact hfound i h
  | succ n ih =>
    unfold findEmpty at h
    split at h
    . next hzero =>
      have hlast : ∀ i, some (last + 1) = some i → (inode i).iCount = 0 := by
        rintro _ ⟨⟩
        exact hzero
      split at h
      . exact ih hlast h
      . exact hlast i h
    . exact ih hfound h

structure Emptied (k k' : Kernel) (inode : Slot) : Prop where
  superBlock : k'.fs.superBlock = k.fs.superBlock
  count : k'.fs.count = k.fs.count
  sDev : k'.sDev = k.sDev
  free : (k.fs.inode inode).iCount = 0
  inode : k'.fs.inode = Function.update k.fs.inode inode { MInode.zero with iCount := 1 }

theorem getEmptyInode_ensures {E : Stop → Prop} (hE : ∀ e : Stop, ¬ e.OfBmap → E e) (k : Kernel)
    : Ensures getEmptyInode k (fun inode k' => Emptied k k' inode) E := by
  unfold getEmptyInode
  apply Ensures.bind
  apply Ensures.get
  dsimp only
  apply Ensures.bind
  apply Ensures.modify
  split
  . exact .stop (hE _ (by simp [Stop.OfBmap]))
  . next inode hfound =>
    have hfree : (k.fs.inode inode).iCount = 0 := findEmpty_free (by simp) hfound
    split
    . apply Ensures.bind
      apply liftCall_ensures
      apply (writeInode_ensures hE _ inode).imp
      intro _ s hwritten
      obtain ⟨dirt, hinode⟩ := hwritten.inode
      apply Ensures.bind
      apply Ensures.get
      split
      . apply Ensures.bind
        exact .stop (hE _ (by simp [Stop.OfBmap]))
      . apply Ensures.bind
        apply liftCall_ensures
        apply Ensures.modify
        apply Ensures.pure
        refine ⟨hwritten.superBlock, hwritten.count, rfl, hfree, ?_⟩
        simp [hinode]
    . apply Ensures.bind
      apply liftCall_ensures
      apply Ensures.modify
      exact .pure ⟨rfl, rfl, rfl, hfree, rfl⟩

theorem iput_no_device {s : Fs Slot} {inode : Slot} (hcount : (s.inode inode).iCount ≠ 0)
    (hpipe : (s.inode inode).iPipe = false) (hdev : (s.inode inode).iDev = 0)
    : iput inode s = .ok ((), s.setInode inode fun m => { m with iCount := m.iCount - 1 }) := by
  unfold iput decrement
  dsimp only
  rw [bind_of_eq_ok get_eq, if_neg hcount, if_neg (by simp [hpipe]), if_pos hdev, bind_of_eq_ok modify_eq]
  rfl

end Frames

end Minix
end OS
