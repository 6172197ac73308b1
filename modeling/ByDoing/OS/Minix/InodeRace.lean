import ByDoing.Lib.Run
import ByDoing.OS.Minix.Inode
import Mathlib.Logic.Function.Basic

/-!
This module contains the table of the in-core inodes when several tasks open, create and unlink files: `open_namei`,
`sys_unlink`, `iget`, `get_empty_inode`, `new_inode`, `iput` and `free_inode`, each from one place where a task may lose
the CPU to the next. The directories that the tasks work in are held by them, nothing is mounted on what they look up, and
the blocks of a file, its owner and its mode are left out: what depends on them comes with the event.
-/

namespace OS
namespace Minix
namespace InodeRace

-- `i_dev` and `i_num`.
abbrev Key := Nat × Nat

structure CoreInode where
  iDev : Nat
  iNum : Nat
  iCount : Nat
  iNlinks : Nat
  iDirt : Bool
  iLock : Bool
  deriving DecidableEq

namespace CoreInode

def zero : CoreInode :=
  {
    iDev := 0
    iNum := 0
    iCount := 0
    iNlinks := 0
    iDirt := false
    iLock := false
  }

def key (inode : CoreInode) : Key :=
  (inode.iDev, inode.iNum)

end CoreInode

-- Who has called `iget`: `open_namei`, or `sys_unlink` with the entry that it has found.
inductive Caller (Place : Type) where
  | opening
  | unlinking (e : Place)

-- What `get_empty_inode` has been called for: `iget`, or `new_inode` for a device.
inductive Goal (Place : Type) where
  | iget (key : Key) (caller : Caller Place)
  | create (dev : Nat)

inductive Pc (Place : Type) where
  | idle
  -- The search of `get_empty_inode` begins; behind it the slot `i` is waited for, and written.
  | empty (goal : Goal Place)
  | waiting (goal : Goal Place) (i : Slot)
  | saving (goal : Goal Place) (i : Slot)
  -- `iget` has an empty slot and waits for one that has the number.
  | matching (key : Key) (caller : Caller Place) (empty i : Slot)
  -- `read_inode`
  | reading (caller : Caller Place) (i : Slot)
  -- `add_entry`
  | adding (i : Slot)
  | opened (i : Slot)
  -- `iput`, which waits for the inode, truncates it or writes it.
  | putting (i : Slot)
  | truncating (i : Slot)
  | writing (i : Slot)

structure State (Place : Type) where
  inodeTable : Slot → CoreInode
  imap : Key → Bool
  disk : Key → Nat
  entry : Place → Nat
  pc : Nat → Pc Place

structure Disks (Place : Type) where
  iDev : Place → Nat
  sNinodes : Nat → Nat

-- What a task does next. `allowed` is what `open_namei` and `sys_unlink` find when they check the permissions of the inode
-- that `iget` has returned.
inductive Event (Place : Type) where
  -- `find_entry` finds an entry, or none, and the file is to be created.
  | openNamei (e : Place)
  | create (dev : Nat)
  | sysUnlink (e : Place)
  -- The search of `get_empty_inode` finds a slot.
  | pick (i : Slot) (allowed : Bool)
  | go (allowed : Bool)
  -- `add_entry` finds a free entry, or none.
  | add (e : Place)
  | full
  | close

variable {Place : Type} [DecidableEq Place]

namespace State

def setPc (s : State Place) (t : Nat) (pc : Pc Place) : State Place :=
  { s with pc := Function.update s.pc t pc }

def setInode (s : State Place) (i : Slot) (inode : CoreInode) : State Place :=
  { s with inodeTable := Function.update s.inodeTable i inode }

variable (d : Disks Place) (s : State Place) (t : Nat)

-- `iput` from `repeat` on.
def release (i : Slot) : Option (State Place) :=
  let inode := s.inodeTable i
  if 1 < inode.iCount then
    some ((s.setInode i { inode with iCount := inode.iCount - 1 }).setPc t .idle)
  else if inode.iNlinks = 0 then
    some (s.setPc t (.truncating i))
  else if inode.iDirt then
    some ((s.setInode i { inode with iLock := true }).setPc t (.writing i))
  else
    some ((s.setInode i { inode with iCount := inode.iCount - 1 }).setPc t .idle)

-- There is no next state after a panic.
def iput (i : Slot) : Option (State Place) :=
  let inode := s.inodeTable i
  if inode.iLock then
    some (s.setPc t (.putting i))
  else if inode.iCount = 0 then
    none
  else if inode.iDev = 0 then
    some ((s.setInode i { inode with iCount := inode.iCount - 1 }).setPc t .idle)
  else
    s.release t i

-- `write_inode`, when the block of the inode has been read.
def writeInode (i : Slot) : State Place :=
  let inode := s.inodeTable i
  { s.setInode i { inode with iDirt := false, iLock := false } with
    disk := Function.update s.disk inode.key inode.iNlinks }

def freeInode (i : Slot) : Option (State Place) :=
  let inode := s.inodeTable i
  if inode.iDev = 0 then
    some ((s.setInode i .zero).setPc t .idle)
  else if 1 < inode.iCount ∨ inode.iNlinks ≠ 0 ∨ inode.iNum < 1 ∨ d.sNinodes inode.iDev < inode.iNum then
    none
  else
    some ({ s.setInode i .zero with imap := Function.update s.imap inode.key false }.setPc t .idle)

-- `iget` has returned the inode.
def returned (caller : Caller Place) (i : Slot) (allowed : Bool) : Option (State Place) :=
  match caller, allowed with
  | _, false => s.iput t i
  | .opening, true => some (s.setPc t (.opened i))
  | .unlinking e, true =>
    let inode := s.inodeTable i
    -- A file without links is given one.
    let iNlinks := if inode.iNlinks = 0 then 1 else inode.iNlinks
    { s.setInode i { inode with iNlinks := iNlinks - 1, iDirt := true } with
      entry := Function.update s.entry e 0 }.iput t i

def found (caller : Caller Place) (empty i : Slot) (allowed : Bool) : Option (State Place) :=
  let inode := s.inodeTable i
  let s := s.setInode i { inode with iCount := inode.iCount + 1 }
  let unused := s.inodeTable empty
  (s.setInode empty { unused with iCount := unused.iCount - 1 }).returned t caller i allowed

-- The search of `iget`, with an empty slot.
def search (key : Key) (caller : Caller Place) (empty : Slot) (allowed : Bool) : Option (State Place) :=
  match (List.finRange NR_INODE).find? fun i => (s.inodeTable i).key = key with
  | some i =>
    if (s.inodeTable i).iLock then
      some (s.setPc t (.matching key caller empty i))
    else
      s.found t caller empty i allowed
  | none =>
    let inode := s.inodeTable empty
    some ((s.setInode empty { inode with iDev := key.fst, iNum := key.snd, iLock := true }).setPc t
      (.reading caller empty))

-- The number that `find_first_zero` finds.
def firstZero (dev : Nat) : Option Nat :=
  (List.range (d.sNinodes dev + 1)).find? fun nr => !s.imap (dev, nr)

-- `new_inode`, with an empty slot.
def newInode (dev : Nat) (i : Slot) : State Place :=
  let inode := s.inodeTable i
  match s.firstZero d dev with
  | none => (s.setInode i { inode with iCount := inode.iCount - 1 }).setPc t .idle
  | some nr =>
    let inode := { inode with iCount := 1, iNlinks := 1, iDev := dev, iDirt := true, iNum := nr }
    { s.setInode i inode with imap := Function.update s.imap (dev, nr) true }.setPc t (.adding i)

-- `get_empty_inode` has returned the slot.
def emptied (goal : Goal Place) (i : Slot) (allowed : Bool) : Option (State Place) :=
  let s := s.setInode i { CoreInode.zero with iCount := 1 }
  match goal with
  | .iget key caller => s.search t key caller i allowed
  | .create dev => some (s.newInode d t dev i)

-- `get_empty_inode` with the slot that its search has found.
def clean (goal : Goal Place) (i : Slot) (allowed : Bool) : Option (State Place) :=
  let inode := s.inodeTable i
  if inode.iLock then
    some (s.setPc t (.waiting goal i))
  else if inode.iDirt then
    some ((s.setInode i { inode with iLock := true }).setPc t (.saving goal i))
  else if inode.iCount ≠ 0 then
    some (s.setPc t (.empty goal))
  else
    s.emptied d t goal i allowed

def step : Nat × Event Place → Option (State Place)
  | (t, ev) =>
    match s.pc t, ev with
    | .idle, .openNamei e =>
      if s.entry e = 0 ∨ d.iDev e = 0 then none else some (s.setPc t (.empty (.iget (d.iDev e, s.entry e) .opening)))
    | .idle, .create dev => if dev = 0 then none else some (s.setPc t (.empty (.create dev)))
    | .idle, .sysUnlink e =>
      if s.entry e = 0 ∨ d.iDev e = 0 then
        none
      else
        some (s.setPc t (.empty (.iget (d.iDev e, s.entry e) (.unlinking e))))
    | .empty goal, .pick i allowed =>
      if (s.inodeTable i).iCount = 0 then s.clean d t goal i allowed else none
    | .waiting goal i, .go allowed => s.clean d t goal i allowed
    | .saving goal i, .go allowed => (s.writeInode i).clean d t goal i allowed
    | .matching key caller empty i, .go allowed =>
      if (s.inodeTable i).iLock then
        none
      else if (s.inodeTable i).key = key then
        s.found t caller empty i allowed
      else
        s.search t key caller empty allowed
    | .reading caller i, .go allowed =>
      let inode := s.inodeTable i
      (s.setInode i { inode with iNlinks := s.disk inode.key, iLock := false }).returned t caller i allowed
    | .adding i, .add e =>
      if s.entry e = 0 ∧ d.iDev e = (s.inodeTable i).iDev then
        some ({ s with entry := Function.update s.entry e (s.inodeTable i).iNum }.setPc t (.opened i))
      else
        none
    | .adding i, .full =>
      let inode := s.inodeTable i
      (s.setInode i { inode with iNlinks := inode.iNlinks - 1 }).iput t i
    | .opened i, .close => s.iput t i
    | .putting i, .go _ => s.iput t i
    | .truncating i, .go _ => s.freeInode d t i
    | .writing i, .go _ => (s.writeInode i).release t i
    | _, _ => none

def init (imap : Key → Bool) (disk : Key → Nat) (entry : Place → Nat) : State Place :=
  {
    inodeTable := fun _ => .zero
    imap
    disk
    entry
    pc := fun _ => .idle
  }

structure Kept : Prop where
  once : ∀ i j, 0 < (s.inodeTable i).iCount → 0 < (s.inodeTable j).iCount → (s.inodeTable i).iDev ≠ 0 →
    (s.inodeTable i).key = (s.inodeTable j).key → i = j
  marked : ∀ i, 0 < (s.inodeTable i).iCount → (s.inodeTable i).iDev ≠ 0 → s.imap (s.inodeTable i).key = true

-- The inode that `iget` begins to read from its device, if it has not found it in the table.
def reads (a : Nat × Event Place) : Option Key :=
  match s.step d a with
  | none => none
  | some s' =>
    match s'.pc a.fst with
    | .reading _ i => some (s'.inodeTable i).key
    | _ => none

def Current (a : Nat × Event Place) : Prop :=
  (s.reads d a).all s.imap = true

instance (a : Nat × Event Place) : Decidable (s.Current d a) :=
  inferInstanceAs (Decidable (_ = _))

end State
end InodeRace
end Minix
end OS
