import Mathlib.Data.Fintype.Prod
import Mathlib.Data.Fintype.Sum
import ByDoing.Lib.References
import ByDoing.Lib.Run
import ByDoing.OS.Pid

/-!
This module contains the file table, the inodes in memory and the descriptors of the tasks, with the calls that open,
copy and close descriptors. Every call runs to its end before the next one begins, so no inode is locked between them.
The counts are of 16 bits.
-/

namespace OS
namespace Files

def NR_OPEN : Nat := 20
def NR_FILE : Nat := 64
def NR_INODE : Nat := 32
def NR_SUPER : Nat := 8

abbrev Fd := Fin NR_OPEN
abbrev FileNr := Fin NR_FILE
abbrev InodeNr := Fin NR_INODE
abbrev SuperNr := Fin NR_SUPER

def EPERM : Int := 1
def EBADF : Int := 9
def EAGAIN : Int := 11
def EINVAL : Int := 22
def EMFILE : Int := 24

def MAJOR (dev : Nat) : Nat := dev / 256
def MINOR (dev : Nat) : Nat := dev % 256

-- An `unsigned short` is incremented.
def succShort (n : Nat) : Nat := (n + 1) % 65536

-- What the calls read of an inode: `iZone0` is `i_zone[0]`, the device of a special file.
structure Inode where
  iMode : Nat
  iSize : Nat
  iNlinks : Nat
  iZone0 : Nat
  iDev : Nat
  iCount : Nat
  iDirt : Bool
  iPipe : Bool

namespace Inode

def zero : Inode :=
  { iMode := 0, iSize := 0, iNlinks := 0, iZone0 := 0, iDev := 0, iCount := 0, iDirt := false, iPipe := false }

def isChr (inode : Inode) : Bool := inode.iMode / 4096 % 16 == 2

def isBlk (inode : Inode) : Bool := inode.iMode / 4096 % 16 == 6

-- `iput` of an inode whose count is not 0.
def put (inode : Inode) : Inode :=
  if inode.iPipe then
    if inode.iCount - 1 ≠ 0 then
      { inode with iCount := inode.iCount - 1 }
    else
      { inode with iCount := 0, iDirt := false, iPipe := false }
  else if inode.iDev = 0 then
    { inode with iCount := inode.iCount - 1 }
  else if 1 < inode.iCount then
    { inode with iCount := inode.iCount - 1 }
  else if inode.iNlinks = 0 then
    -- `free_inode`.
    zero
  else
    -- A dirty inode is written by `write_inode` before the code comes here.
    { inode with iDirt := false, iCount := inode.iCount - 1 }

end Inode

-- `inode_table`, with the `last_inode` of `get_empty_inode`.
structure Inodes where
  inode : InodeNr → Inode
  last : InodeNr

namespace Inodes

def set (t : Inodes) (n : InodeNr) (inode : Inode) : Inodes :=
  { t with inode := Function.update t.inode n inode }

def count (t : Inodes) (n : InodeNr) : Nat :=
  (t.inode n).iCount

-- `none` is the panic.
def iput (t : Inodes) : Option InodeNr → Option Inodes
  | none => some t
  | some n => if (t.inode n).iCount = 0 then none else some (t.set n (t.inode n).put)

-- `i_count++`, if there is an inode.
def share (t : Inodes) : Option InodeNr → Inodes
  | none => t
  | some n => t.set n { t.inode n with iCount := succShort (t.inode n).iCount }

def invalidateInodes (t : Inodes) (dev : Nat) : Inodes :=
  { t with
    inode := fun n => if (t.inode n).iDev = dev then { t.inode n with iDev := 0, iDirt := false } else t.inode n }

-- `put_super` and `invalidate_buffers` leave the inodes alone.
def checkDiskChange (t : Inodes) (dev : Nat) (floppyChange : Bool) : Inodes :=
  if MAJOR dev = 2 ∧ floppyChange = true then t.invalidateInodes dev else t

namespace getEmptyInode

-- The loop over the next `i` inodes, with the free inode that has been found.
def search (t : Inodes) : Nat → Option InodeNr → InodeNr → Option InodeNr × InodeNr
  | 0, inode, last => (inode, last)
  | i + 1, inode, last =>
    let last : InodeNr := ⟨(last.val + 1) % NR_INODE, Nat.mod_lt _ (by decide)⟩
    if (t.inode last).iCount = 0 then
      if (t.inode last).iDirt then search t i (some last) last else (some last, last)
    else
      search t i inode last

end getEmptyInode

def getEmptyInode (t : Inodes) : Option (InodeNr × Inodes) :=
  match getEmptyInode.search t NR_INODE none t.last with
  | (none, _) => none
  | (some n, last) => some (n, { inode := Function.update t.inode n { Inode.zero with iCount := 1 }, last := last })

-- `page` is what `get_free_page` returns.
def getPipeInode (t : Inodes) (page : Nat) : Option (Option InodeNr × Inodes) :=
  match t.getEmptyInode with
  | none => none
  | some (n, t) =>
    if page = 0 then
      some (none, t.set n { t.inode n with iSize := page, iCount := 0 })
    else
      some (some n, t.set n { t.inode n with iSize := page, iCount := 2, iPipe := true })

end Inodes

-- What `open_namei` returns, or `do_execve` has found when it comes to the point of no return, with the inodes then.
structure Namei where
  result : Except Int InodeNr
  inodes : Inodes

def Namei.Balanced (o : Namei) (t : Inodes) : Prop :=
  ∀ n, o.inodes.count n = if o.result.toOption = some n then succShort (t.count n) else t.count n

instance (o : Namei) (t : Inodes) : Decidable (o.Balanced t) :=
  inferInstanceAs (Decidable (∀ _, _))

structure File where
  fMode : Nat
  fFlags : BitVec 16
  fCount : Nat
  fInode : Option InodeNr
  fPos : Nat

inductive TaskRef where
  | pwd
  | root
  | executable
  deriving DecidableEq

structure Task where
  zombie : Bool
  pid : Nat
  leader : Bool
  tty : Int
  pwd : Option InodeNr
  root : Option InodeNr
  executable : Option InodeNr
  closeOnExec : BitVec 32
  filp : Fd → Option FileNr

namespace Task

def ref (task : Task) : TaskRef → Option InodeNr
  | .pwd => task.pwd
  | .root => task.root
  | .executable => task.executable

def setRef (task : Task) (inode : Option InodeNr) : TaskRef → Task
  | .pwd => { task with pwd := inode }
  | .root => { task with root := inode }
  | .executable => { task with executable := inode }

def setFilp (task : Task) (fd : Fd) (file : Option FileNr) : Task :=
  { task with filp := Function.update task.filp fd file }

def clearCloseOnExec (task : Task) (fd : Nat) : Task :=
  { task with closeOnExec := task.closeOnExec &&& ~~~(1#32 <<< fd) }

def freeFds (task : Task) : List Fd :=
  (List.finRange NR_OPEN).filter fun fd => (task.filp fd).isNone

-- The first descriptor from `arg` on that is free.
def freeFd (task : Task) (arg : Nat) : Option Fd :=
  (List.finRange NR_OPEN).find? fun fd => arg ≤ fd.val && (task.filp fd).isNone

-- `current->filp[fd]`, if `fd` is less than `NR_OPEN`.
def fileOf (task : Task) (fd : Nat) : Option FileNr :=
  if h : fd < NR_OPEN then task.filp ⟨fd, h⟩ else none

end Task

structure Super where
  sIsup : Option InodeNr
  sImount : Option InodeNr

structure State where
  task : Slot → Option Task
  lastPid : Nat
  file : FileNr → File
  inodes : Inodes
  super : SuperNr → Super

namespace State

def setTask (s : State) (c : Slot) (task : Task) : State :=
  { s with task := Function.update s.task c (some task) }

def setFile (s : State) (f : FileNr) (file : File) : State :=
  { s with file := Function.update s.file f file }

def setInodes (s : State) (t : Inodes) : State :=
  { s with inodes := t }

def setCount (s : State) (f : FileNr) (count : Nat) : State :=
  s.setFile f { s.file f with fCount := count }

def freeFiles (s : State) : List FileNr :=
  (List.finRange NR_FILE).filter fun f => (s.file f).fCount == 0

-- `mount_root` has got the root inode with one reference and adds three.
def init (root : InodeNr) (t : Inodes) : State :=
  {
    task := fun i =>
      if i.val = 0 then
        some
          {
            zombie := false, pid := 0, leader := false, tty := -1, pwd := some root, root := some root,
            executable := none, closeOnExec := 0, filp := fun _ => none
          }
      else
        none
    lastPid := 0
    file := fun _ => { fMode := 0, fFlags := 0, fCount := 0, fInode := none, fPos := 0 }
    inodes := { t with inode := fun n => { t.inode n with iCount := if n = root then 4 else 0 } }
    super := fun i =>
      if i.val = 0 then { sIsup := some root, sImount := some root } else { sIsup := none, sImount := none }
  }

namespace sysOpen

-- `current->filp[fd]=NULL` and `f->f_count=0`.
def undo (s : State) (c : Slot) (task : Task) (fd : Fd) (f : FileNr) : State :=
  (s.setTask c (task.setFilp fd none)).setCount f 0

-- What follows `open_namei` when it has found the inode `n`.
def found (s : State) (c : Slot) (task : Task) (fd : Fd) (f : FileNr) (flag : Nat) (n : InodeNr) (floppyChange : Bool)
    : Option (Int × State) :=
  let inode := s.inodes.inode n
  if inode.isChr = true ∧ MAJOR inode.iZone0 = 5 ∧ task.tty < 0 then
    (s.inodes.iput (some n)).map fun t => (-EPERM, undo (s.setInodes t) c task fd f)
  else
    let tty := if inode.isChr = true ∧ MAJOR inode.iZone0 = 4 ∧ task.leader = true ∧ task.tty < 0 then
        (MINOR inode.iZone0 : Int)
      else
        task.tty
    let t := if inode.isBlk then s.inodes.checkDiskChange inode.iZone0 floppyChange else s.inodes
    let file :=
      { fMode := inode.iMode, fFlags := BitVec.ofNat 16 flag, fCount := 1, fInode := some n, fPos := 0 }
    some (fd.val, ((s.setInodes t).setTask c { task with tty := tty }).setFile f file)

end sysOpen

def sysOpen (s : State) (c : Slot) (flag : Nat) (o : Namei) (floppyChange : Bool) : Option (Int × State) :=
  match s.task c with
  | none => none
  | some task =>
    match task.freeFd 0 with
    | none => some (-EINVAL, s)
    | some fd =>
      let task := task.clearCloseOnExec fd.val
      match s.freeFiles with
      | [] => some (-EINVAL, s.setTask c task)
      | f :: _ =>
        let task := task.setFilp fd (some f)
        let s := (s.setTask c task).setCount f (succShort (s.file f).fCount)
        let s := s.setInodes o.inodes
        match o.result with
        | .error e => some (e, sysOpen.undo s c task fd f)
        | .ok n => sysOpen.found s c task fd f flag n floppyChange

def sysClose (s : State) (c : Slot) (fd : Nat) : Option (Int × State) :=
  match s.task c with
  | none => none
  | some task =>
    if h : fd < NR_OPEN then
      let task := task.clearCloseOnExec fd
      match task.filp ⟨fd, h⟩ with
      | none => some (-EINVAL, s.setTask c task)
      | some f =>
        let s := s.setTask c (task.setFilp ⟨fd, h⟩ none)
        if (s.file f).fCount = 0 then
          -- The panic.
          none
        else if (s.file f).fCount - 1 ≠ 0 then
          some (0, s.setCount f ((s.file f).fCount - 1))
        else
          (s.inodes.iput (s.file f).fInode).map fun t => (0, (s.setCount f ((s.file f).fCount - 1)).setInodes t)
    else
      some (-EINVAL, s)

def dupfd (s : State) (c : Slot) (fd arg : Nat) : Option (Int × State) :=
  match s.task c with
  | none => none
  | some task =>
    match task.fileOf fd with
    | none => some (-EBADF, s)
    | some f =>
      if NR_OPEN ≤ arg then
        some (-EINVAL, s)
      else
        match task.freeFd arg with
        | none => some (-EMFILE, s)
        | some i =>
          let task := (task.clearCloseOnExec i.val).setFilp i (some f)
          some (i.val, (s.setTask c task).setCount f (succShort (s.file f).fCount))

def sysDup2 (s : State) (c : Slot) (oldfd newfd : Nat) : Option (Int × State) :=
  (s.sysClose c newfd).bind fun r => r.snd.dupfd c oldfd newfd

def sysDup (s : State) (c : Slot) (fildes : Nat) : Option (Int × State) :=
  s.dupfd c fildes 0

inductive FcntlCmd where
  | dupfd
  | getfd
  | setfd
  | getfl
  | setfl
  -- `F_GETLK`, `F_SETLK`, `F_SETLKW` and all others.
  | other
  deriving DecidableEq

-- `O_APPEND | O_NONBLOCK`.
def setflMask : BitVec 16 := 3072

def sysFcntl (s : State) (c : Slot) (fd : Nat) (cmd : FcntlCmd) (arg : Nat) : Option (Int × State) :=
  match s.task c with
  | none => none
  | some task =>
    match task.fileOf fd with
    | none => some (-EBADF, s)
    | some f =>
      match cmd with
      | .dupfd => s.dupfd c fd arg
      | .getfd => some (((task.closeOnExec >>> fd) &&& 1).toNat, s)
      | .setfd =>
        if arg % 2 = 1 then
          some (0, s.setTask c { task with closeOnExec := task.closeOnExec ||| (1#32 <<< fd) })
        else
          some (0, s.setTask c (task.clearCloseOnExec fd))
      | .getfl => some ((s.file f).fFlags.toNat, s)
      | .setfl =>
        let flags := ((s.file f).fFlags &&& ~~~setflMask) ||| (BitVec.ofNat 16 arg &&& setflMask)
        some (0, s.setFile f { s.file f with fFlags := flags })
      | .other => some (-1, s)

-- The two ends of the pipe, if there are any: `none` is the result -1.
def sysPipe (s : State) (c : Slot) (page : Nat) : Option (Option (Fd × Fd) × State) :=
  match s.task c with
  | none => none
  | some task =>
    match s.freeFiles with
    | f₀ :: f₁ :: _ =>
      let s := s.setCount f₀ (succShort (s.file f₀).fCount)
      let s := s.setCount f₁ (succShort (s.file f₁).fCount)
      match task.freeFds with
      | fd₀ :: fd₁ :: _ =>
        let task := (task.setFilp fd₀ (some f₀)).setFilp fd₁ (some f₁)
        let s := s.setTask c task
        match s.inodes.getPipeInode page with
        | none => none
        | some (none, t) =>
          let s := (s.setInodes t).setTask c ((task.setFilp fd₁ none).setFilp fd₀ none)
          some (none, (s.setCount f₁ 0).setCount f₀ 0)
        | some (some n, t) =>
          let s := s.setInodes t
          let s := s.setFile f₀ { s.file f₀ with fInode := some n, fPos := 0, fMode := 1 }
          let s := s.setFile f₁ { s.file f₁ with fInode := some n, fPos := 0, fMode := 2 }
          some (some (fd₀, fd₁), s)
      | [fd₀] =>
        let s := s.setTask c (task.setFilp fd₀ (some f₀))
        let s := s.setTask c ((task.setFilp fd₀ (some f₀)).setFilp fd₀ none)
        some (none, (s.setCount f₁ 0).setCount f₀ 0)
      | [] => some (none, (s.setCount f₁ 0).setCount f₀ 0)
    | [f₀] =>
      let s := s.setCount f₀ (succShort (s.file f₀).fCount)
      some (none, s.setCount f₀ 0)
    | [] => some (none, s)

namespace copyProcess

def countFiles (s : State) (filp : Fd → Option FileNr) : List Fd → State
  | [] => s
  | fd :: fds =>
    match filp fd with
    | none => countFiles s filp fds
    | some f => countFiles (s.setCount f (succShort (s.file f).fCount)) filp fds

end copyProcess

def copyProcess (s : State) (nr : Slot) (task : Task) (pid : Nat) (pageOk memOk : Bool) : Int × State :=
  if pageOk = true ∧ memOk = true then
    let child := { task with pid := pid, leader := false }
    let s := copyProcess.countFiles (s.setTask nr child) child.filp (List.finRange NR_OPEN)
    (pid, s.setInodes (((s.inodes.share task.pwd).share task.root).share task.executable))
  else
    (-EAGAIN, s)

def pids (s : State) (i : Slot) : Option Nat :=
  (s.task i).map Task.pid

def sysFork (s : State) (c : Slot) (pageOk memOk : Bool) : Option (Int × State) :=
  match s.task c with
  | none => none
  | some task =>
    match findEmptyProcess s.pids s.lastPid with
    | none => none
    | some (pid, none) => some (-EAGAIN, { s with lastPid := pid })
    | some (pid, some nr) => some (copyProcess { s with lastPid := pid } nr task pid pageOk memOk)

-- A loop over the descriptors that closes those for which `p` holds when the loop comes to them.
def closeFds (p : Task → Fd → Bool) (s : State) (c : Slot) : List Fd → Option State
  | [] => some s
  | fd :: fds =>
    match s.task c with
    | none => none
    | some task =>
      if p task fd then
        match s.sysClose c fd.val with
        | none => none
        | some (_, s') => closeFds p s' c fds
      else
        closeFds p s c fds

-- `iput` of an inode that the task keeps, and the pointer is set.
def putRef (s : State) (c : Slot) (r : TaskRef) (inode : Option InodeNr) : Option State :=
  match s.task c with
  | none => none
  | some task => (s.inodes.iput (task.ref r)).map fun t => (s.setInodes t).setTask c (task.setRef inode r)

def mapTask (s : State) (c : Slot) (f : Task → Task) : State :=
  { s with task := Function.update s.task c ((s.task c).map f) }

def doExecve (s : State) (c : Slot) (o : Namei) : Option (Int × State) :=
  let s := s.setInodes o.inodes
  match o.result with
  | .error e => some (e, s)
  | .ok n =>
    match s.putRef c .executable (some n) with
    | none => none
    | some s =>
      match s.closeFds (fun task fd => ((task.closeOnExec >>> fd.val) &&& 1) != 0) c (List.finRange NR_OPEN) with
      | none => none
      | some s => some (0, s.mapTask c fun task => { task with closeOnExec := 0 })

def doExit (s : State) (c : Slot) : Option State :=
  match s.closeFds (fun task fd => (task.filp fd).isSome) c (List.finRange NR_OPEN) with
  | none => none
  | some s =>
    match ((s.putRef c .pwd none).bind fun s => s.putRef c .root none).bind fun s => s.putRef c .executable none with
    | none => none
    | some s => some (s.mapTask c fun task => { task with zombie := true })

inductive Act where
  | openFile (c : Slot) (flag : Nat) (o : Namei) (floppyChange : Bool)
  | close (c : Slot) (fd : Nat)
  | dup (c : Slot) (fildes : Nat)
  | dup2 (c : Slot) (oldfd newfd : Nat)
  | fcntl (c : Slot) (fd : Nat) (cmd : FcntlCmd) (arg : Nat)
  | pipe (c : Slot) (page : Nat)
  | fork (c : Slot) (pageOk memOk : Bool)
  | execve (c : Slot) (o : Namei)
  | exit (c : Slot)
  -- `release` of a task that has exited.
  | release (i : Slot)

def alive (s : State) (c : Slot) : Bool :=
  (s.task c).any fun task => !task.zombie

def reapable (s : State) (i : Slot) : Bool :=
  (s.task i).any fun task => task.zombie

def enabled (s : State) : Act → Bool
  | .openFile c _ o _ => s.alive c && decide (o.Balanced s.inodes)
  | .close c _ => s.alive c
  | .dup c _ => s.alive c
  | .dup2 c _ _ => s.alive c
  | .fcntl c _ _ _ => s.alive c
  | .pipe c _ => s.alive c
  | .fork c _ _ => s.alive c
  | .execve c o => s.alive c && decide (o.Balanced s.inodes)
  | .exit c => s.alive c
  | .release i => s.reapable i

def call (s : State) : Act → Option State
  | .openFile c flag o floppyChange => (s.sysOpen c flag o floppyChange).map Prod.snd
  | .close c fd => (s.sysClose c fd).map Prod.snd
  | .dup c fildes => (s.sysDup c fildes).map Prod.snd
  | .dup2 c oldfd newfd => (s.sysDup2 c oldfd newfd).map Prod.snd
  | .fcntl c fd cmd arg => (s.sysFcntl c fd cmd arg).map Prod.snd
  | .pipe c page => (s.sysPipe c page).map Prod.snd
  | .fork c pageOk memOk => (s.sysFork c pageOk memOk).map Prod.snd
  | .execve c o => (s.doExecve c o).map Prod.snd
  | .exit c => s.doExit c
  | .release i => some { s with task := Function.update s.task i none }

def step (s : State) (a : Act) : Option State :=
  if s.enabled a then s.call a else none

end State
end Files
end OS
