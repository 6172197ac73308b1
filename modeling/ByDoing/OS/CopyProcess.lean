import ByDoing.OS.CopyUndo
import ByDoing.OS.FileTable
import ByDoing.OS.Fork
import ByDoing.OS.Kernel

/-!
This module contains `copy_process` together with the memory that it copies and all that changes what it finds there: the
pages of the tasks, `execve`, exits and the release of tasks. `pages` are the memory and the pages that are held, among
them those of the task structures. The registers of the processor and the times of a task are left out.
-/

namespace OS

def ENOMEM : Int := 12

-- The bases and limits of `ldt[1]` and `ldt[2]`.
structure Ldt where
  codeBase : Word
  codeLimit : Word
  dataBase : Word
  dataLimit : Word

structure I387 where
  cwd : Word
  swd : Word
  twd : Word
  fip : Word
  fcs : Word
  foo : Word
  fos : Word
  stSpace : Fin 20 → Word

def I387.zero : I387 :=
  { cwd := 0, swd := 0, twd := 0, fip := 0, fcs := 0, foo := 0, fos := 0, stSpace := fun _ => 0 }

-- The contents of the coprocessor after `fninit`, which marks its registers as empty.
def I387.fninit (regs : I387) : I387 :=
  { regs with cwd := 0xffff037f, swd := 0xffff0000, twd := 0xffffffff, fip := 0, fcs := 0, foo := 0, fos := 0xffff0000 }

/--
The coprocessor: `last_task_used_math`, the bit `TS` of `cr0`, which makes its instructions trap, and what it contains.
-/
structure Coprocessor where
  lastTask : Option Slot
  ts : Bool
  regs : I387

-- `clts ; fnsave`, which leaves the coprocessor as after `fninit`.
def Coprocessor.fnsave (c : Coprocessor) : Coprocessor :=
  { c with ts := false, regs := c.regs.fninit }

-- A `task_struct` and the page it is in, which for task 0 is in the image of the kernel.
structure Process where
  page : Nat
  task : Task
  startCode : Word
  ldt : Ldt
  pwd : Option Files.InodeNr
  root : Option Files.InodeNr
  executable : Option Files.InodeNr
  filp : Files.Fd → Option Files.FileNr
  usedMath : Bool
  i387 : I387

inductive ForkPanic where
  | memory (e : MemError)
  | separateSpaces
  | badDataLimit
  deriving Repr, DecidableEq

structure Processes where
  table : Slot → Option Process
  current : Slot
  lastPid : Nat
  fCount : Files.FileNr → Nat
  iCount : Files.InodeNr → Nat
  pages : PageRun
  math : Coprocessor

namespace Process

def isZombie (p : Process) : Bool :=
  p.task.state == .TASK_ZOMBIE

-- `INIT_TASK`
def initTask : Process :=
  {
    page := 0
    task := Task.initTask
    startCode := 0
    ldt := { codeBase := 0, codeLimit := 0xa0000, dataBase := 0, dataLimit := 0xa0000 }
    pwd := none
    root := none
    executable := none
    filp := fun _ => none
    usedMath := false
    i387 := I387.zero
  }

-- The two calls of `free_page_tables` in `do_exit` and `do_execve`.
def freeRanges (p : Process) (m : Memory) : Except MemError Memory := do
  let m ← m.freePageTables p.ldt.codeBase p.ldt.codeLimit
  m.freePageTables p.ldt.dataBase p.ldt.dataLimit

def changeLdt (p : Process) (textSize : Word) : Process :=
  { p with
    ldt :=
      {
        codeBase := p.ldt.codeBase
        codeLimit := (textSize + 4096 - 1) &&& 0xfffff000
        dataBase := p.ldt.codeBase
        dataLimit := 0x4000000
      }
  }

end Process

namespace Processes

def init (b : KernelBoot) : Processes :=
  {
    table := Function.update (fun _ => none) 0 (some Process.initTask)
    current := 0
    lastPid := 0
    fCount := fun _ => 0
    iCount := fun _ => 0
    pages := PageRun.init b
    math := { lastTask := none, ts := false, regs := I387.zero.fninit }
  }

def setTask (s : Processes) (nr : Slot) (p : Option Process) : Processes :=
  { s with table := Function.update s.table nr p }

theorem table_setTask (s : Processes) (nr : Slot) (p : Option Process) : (s.setTask nr p).table nr = p := by
  simp [setTask]

theorem table_setTask_of_ne (s : Processes) {nr i : Slot} (h : i ≠ nr) (p : Option Process)
    : (s.setTask nr p).table i = s.table i := by
  simp [setTask, h]

def setMemory (s : Processes) (m : Memory) : Processes :=
  { s with pages := { s.pages with memory := m } }

def memory (s : Processes) : Memory :=
  s.pages.memory

def pids (s : Processes) : Slot → Option Nat :=
  fun i => (s.table i).map fun p => p.task.pid

def copyMem (s : Processes) (nr : Slot) (current p : Process) : Except ForkPanic (Int × Process × Processes) :=
  if current.ldt.dataBase ≠ current.ldt.codeBase then
    .error .separateSpaces
  else if current.ldt.dataLimit < current.ldt.codeLimit then
    .error .badDataLimit
  else
    let newBase := BitVec.ofNat 32 nr.val * TASK_SIZE
    let p := { p with startCode := newBase, ldt := { p.ldt with codeBase := newBase, dataBase := newBase } }
    match s.memory.copyPageTablesPart current.ldt.dataBase newBase current.ldt.dataLimit with
    | (m, none) => .ok (0, p, s.setMemory m)
    | (m, some .outOfMemory) =>
      match m.freePageTables newBase current.ldt.dataLimit with
      | .ok m => .ok (-ENOMEM, p, s.setMemory m)
      | .error e => .error (.memory e)
    | (_, some e) => .error (.memory e)

namespace copyProcess

def countFiles (fCount : Files.FileNr → Nat) (filp : Files.Fd → Option Files.FileNr)
    : List Files.Fd → Files.FileNr → Nat
  | [] => fCount
  | fd :: fds =>
    match filp fd with
    | none => countFiles fCount filp fds
    | some f => countFiles (Function.update fCount f (Files.succShort (fCount f))) filp fds

def share (iCount : Files.InodeNr → Nat) : Option Files.InodeNr → Files.InodeNr → Nat
  | none => iCount
  | some n => Function.update iCount n (Files.succShort (iCount n))

end copyProcess

-- `*p = *current` and what follows up to `copy_mem`.
def newTask (s : Processes) (page : Nat) (current : Process) : Process :=
  { current with
    page
    task := { current.task.childOf s.lastPid with state := .TASK_UNINTERRUPTIBLE }
  }

-- `fnsave` into the new task if the current one is `last_task_used_math`.
def saveMath (s : Processes) (p : Process) : Process × Processes :=
  let owns := s.math.lastTask = some s.current
  ({ p with i387 := if owns then s.math.regs else p.i387 }, { s with math := if owns then s.math.fnsave else s.math })

-- `task[nr] = p`, where `p` is a page that has just been taken.
def addTask (s : Processes) (nr : Slot) (p : Process) (m : Memory) : Processes :=
  { s.setTask nr (some p) with pages := { memory := m, held := p.page :: s.pages.held } }

-- `task[nr] = NULL` and `free_page` of the task structure.
def freeTask (s : Processes) (nr : Slot) (page : Nat) : Except MemError Processes :=
  match s.memory.freePage page with
  | .error e => .error e
  | .ok m => .ok { s.setTask nr none with pages := { memory := m, held := s.pages.held.erase page } }

-- What follows `copy_mem` when it has succeeded.
def countRefs (s : Processes) (nr : Slot) (current p : Process) : Processes :=
  let p := { p with task := { p.task with state := .TASK_RUNNING } }
  { s.setTask nr (some p) with
    fCount := copyProcess.countFiles s.fCount p.filp (List.finRange Files.NR_OPEN)
    iCount := copyProcess.share (copyProcess.share (copyProcess.share s.iCount current.pwd) current.root)
      current.executable
  }

def copyProcess (s : Processes) (nr : Slot) (current : Process) : Except ForkPanic (Int × Processes) :=
  match s.memory.getFreePage with
  | none => .ok (-EAGAIN, s)
  | some (page, m) =>
    let p := s.newTask page current
    let (p, s) := (s.addTask nr p m).saveMath p
    match s.copyMem nr current p with
    | .error e => .error e
    | .ok (r, p, s) =>
      if r ≠ 0 then
        match s.freeTask nr page with
        | .error e => .error (.memory e)
        | .ok s => .ok (-EAGAIN, s)
      else
        .ok (s.lastPid, s.countRefs nr current p)

def sysFork (s : Processes) (current : Process) : Option Processes :=
  match findEmptyProcess s.pids s.lastPid with
  | none => none
  | some (lastPid, none) => some { s with lastPid }
  | some (lastPid, some nr) => (({ s with lastPid }.copyProcess nr current).toOption).map Prod.snd

-- The instructions of the coprocessor trap when `TS` is set.
def mathStateRestore (s : Processes) (current : Process) : Processes :=
  let s := { s with math := { s.math with ts := false } }
  if s.math.lastTask = some s.current then
    s
  else
    let s :=
      match s.math.lastTask with
      | none => s
      | some last =>
        let saved := (s.table last).map fun (p : Process) => { p with i387 := s.math.regs }
        { s.setTask last saved with math := s.math.fnsave }
    let regs := if current.usedMath then current.i387 else s.math.regs.fninit
    { s.setTask s.current (some { current with usedMath := true }) with
      math := { s.math with lastTask := some s.current, regs }
    }

-- `last_task_used_math = NULL` in `do_exit` and `do_execve`.
def dropMath (s : Processes) : Processes :=
  { s with math := { s.math with lastTask := if s.math.lastTask = some s.current then none else s.math.lastTask } }

def switchTo (s : Processes) (i : Slot) : Processes :=
  if i = s.current then
    s
  else
    { s with current := i, math := { s.math with ts := decide (s.math.lastTask ≠ some i) } }

inductive Act where
  -- The memory on behalf of the current task: its page faults, and the pages that the kernel takes and gives back.
  | page (a : MapAct)
  -- The calls that open and close files or change directories.
  | files (filp : Files.Fd → Option Files.FileNr) (pwd root executable : Option Files.InodeNr)
      (fCount : Files.FileNr → Nat) (iCount : Files.InodeNr → Nat)
  -- The timer, signals and calls that change the other fields of a task.
  | task (i : Slot) (task : Task)
  | fork
  | execve (textSize : Word)
  | exit
  | release (i : Slot)
  | switch (i : Slot)
  | mathTrap
  -- An instruction of the coprocessor.
  | compute (regs : I387)

def step (s : Processes) : Act → Option Processes
  | .page a => (s.pages.step a).toOption.map fun pages => { s with pages }
  | .files filp pwd root executable fCount iCount =>
    (s.table s.current).map fun p =>
      { s.setTask s.current (some { p with filp, pwd, root, executable }) with fCount, iCount }
  | .task i task => (s.table i).map fun p => s.setTask i (some { p with task })
  | .fork => (s.table s.current).bind s.sysFork
  | .execve textSize =>
    (s.table s.current).bind fun p =>
      (p.freeRanges s.memory).toOption.map fun m =>
        ((s.setTask s.current (some { p.changeLdt textSize with usedMath := false })).setMemory m).dropMath
  | .exit =>
    (s.table s.current).bind fun p =>
      (p.freeRanges s.memory).toOption.map fun m =>
        ((s.setTask s.current (some { p with task := { p.task with state := .TASK_ZOMBIE } })).setMemory m).dropMath
  | .release i => (s.table i).bind fun p => (s.freeTask i p.page).toOption
  | .switch i => some (s.switchTo i)
  | .mathTrap => (s.table s.current).map s.mathStateRestore
  | .compute regs => if s.math.ts then none else some { s with math := { s.math with regs } }

def Runs (s : Processes) (p : Process) : Prop :=
  s.table s.current = some p ∧ p.isZombie = false

def NoTask (s : Processes) (page : Nat) : Prop :=
  ∀ i p, s.table i = some p → p.page ≠ page

-- The addresses of a task end at its limit, and the page of a task is given back by `release` only.
def Own (s : Processes) : MapAct → Prop
  | .freePage page => s.NoTask page
  | .putPage page address => s.NoTask page ∧ ∃ p, s.Runs p ∧ address.val - p.ldt.dataBase < p.ldt.dataLimit
  | .tryToShare address _ current => current.val = s.current ∧ ∃ p, s.Runs p ∧ address.val < p.ldt.dataLimit
  | .copyFirst _ => False
  | .copy _ _ _ => False
  | .freePageTables _ _ => False
  | _ => True

def Allowed (s : Processes) : Act → Prop
  | .page a => s.pages.Allowed a ∧ s.Own a
  | .task i task => ∀ p, s.table i = some p → task.pid = p.task.pid ∧ (task.state = .TASK_ZOMBIE ↔ p.isZombie = true)
  | .release i => i ≠ 0 ∧ ∃ p, s.table i = some p ∧ p.isZombie = true
  | .switch i => ∃ p, s.table i = some p ∧ p.isZombie = false
  | _ => ∃ p, s.Runs p

-- There is no page for the task structure, or `copy_page_tables` comes to a page table that there is no page for.
def NoMemory (s : Processes) (nr : Slot) (current : Process) : Prop :=
  s.memory.getFreePage = none ∨ current.ldt.codeLimit ≤ current.ldt.dataLimit ∧
    ∃ page m, s.memory.getFreePage = some (page, m) ∧
      (m.copyPageTablesPart current.ldt.dataBase (BitVec.ofNat 32 nr.val * TASK_SIZE) current.ldt.dataLimit).snd
        = some .outOfMemory

structure Undone (s : Processes) (nr : UserSlot) (current : Process) (s' : Processes) : Prop where
  table : s'.table = s.table
  current_eq : s'.current = s.current
  lastPid : s'.lastPid = s.lastPid
  fCount : s'.fCount = s.fCount
  iCount : s'.iCount = s.iCount
  held : s'.pages.held = s.pages.held
  memMap : s'.memory.memMap = s.memory.memMap
  dir : s'.memory.dir = s.memory.dir
  range : ∀ j, j < 16 → s'.memory.dir (nr.block j) = 0
  page : ∀ f, ¬s.memory.IsFree f → ¬s.memory.RangeTable current.ldt.dataBase current.ldt.dataLimit f →
    s'.memory.ram f = s.memory.ram f
  entry : ∀ f, ¬s.memory.IsFree f → ∀ i,
    s'.memory.ram f i = s.memory.ram f i ∨ s'.memory.ram f i = s.memory.ram f i &&& ~~~2

structure Restored (s : Processes) (nr : UserSlot) (current : Process) (s' : Processes) : Prop
    extends Undone s nr current s' where
  math : s'.math = s.math

-- `fnsave` is not reached, or the coprocessor is another task's, or it is as `fnsave` leaves it anyway.
def KeepsMath (s : Processes) : Prop :=
  s.memory.getFreePage = none ∨ s.math.lastTask ≠ some s.current ∨ s.math.fnsave = s.math

end Processes
end OS
