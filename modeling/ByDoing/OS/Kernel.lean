import Mathlib.Logic.Function.Basic
import ByDoing.OS.Pid
import ByDoing.OS.StatLog

/-!
This module contains the instrumented kernel: the task table, `schedule`, the sleep and wake functions of
`sched.c`, `do_exit` and `sys_waitpid` of `exit.c` and `copy_process` of `fork.c`, with the log lines that
they write. A pointer to a `task_struct` is the number of its page, so a wait queue may still point to a
page that has been freed. Only the current task runs, and it loses the CPU in `schedule` alone; what it
goes on with after that is its frame. A change of state and the log line that comes with it are one
step, and interrupts come between any two steps. `fprintk` appends its line at once.
-/

namespace OS

abbrev Page := Nat

inductive TaskState where
  | TASK_RUNNING
  | TASK_INTERRUPTIBLE
  | TASK_UNINTERRUPTIBLE
  | TASK_ZOMBIE
  | TASK_STOPPED
  deriving Repr, DecidableEq

structure Task where
  state : TaskState
  counter : BitVec 32
  priority : BitVec 32
  signal : BitVec 32
  blocked : BitVec 32
  alarm : BitVec 32
  pid : Nat
  father : Int
  pgrp : Int
  session : Int
  leader : Bool
  deriving Repr, DecidableEq

def SIGHUP : Nat := 1
def SIGKILL : Nat := 9
def SIGALRM : Nat := 14
def SIGCHLD : Nat := 17
def SIGSTOP : Nat := 19
def HZ : BitVec 32 := 100

def signalBit (sig : Nat) : BitVec 32 := 1#32 <<< (sig - 1)

def BLOCKABLE : BitVec 32 := ~~~(signalBit SIGKILL ||| signalBit SIGSTOP)

namespace Task

def initTask : Task :=
  {
    state := .TASK_RUNNING
    counter := 15
    priority := 15
    signal := 0
    blocked := 0
    alarm := 0
    pid := 0
    father := -1
    pgrp := 0
    session := 0
    leader := false
  }

def raise (t : Task) (bits : BitVec 32) : Task :=
  { t with signal := t.signal ||| bits }

def checkAlarm (t : Task) (jiffies : BitVec 32) : Task :=
  if t.alarm != 0 && t.alarm.slt jiffies then { t.raise (signalBit SIGALRM) with alarm := 0 } else t

def hasSignal (t : Task) : Bool :=
  t.signal &&& ~~~(BLOCKABLE &&& t.blocked) != 0

def refill (t : Task) : Task :=
  { t with counter := t.counter.sshiftRight 1 + t.priority }

def nice (t : Task) (increment : BitVec 32) : Task :=
  if 0 < (t.priority - increment).toInt then { t with priority := t.priority - increment } else t

def childOf (t : Task) (pid : Nat) : Task :=
  { t with
    state := .TASK_RUNNING
    pid
    father := t.pid
    counter := t.priority
    signal := 0
    alarm := 0
    leader := false
  }

theorem nice_eq (t : Task) (increment : BitVec 32) : ∃ priority, t.nice increment = { t with priority } := by
  unfold nice
  split
  . exact ⟨_, rfl⟩
  . exact ⟨t.priority, rfl⟩

end Task

structure WaitArgs where
  pid : Int
  wnohang : Bool
  wuntraced : Bool
  deriving Repr, DecidableEq

inductive Frame where
  | user
  | ret
  | kernel
  | sleepOn (tmp : Option Page)
  | interruptibleSleepOn (q : Nat) (tmp : Option Page)
  | waitpid (args : WaitArgs)
  deriving Repr, DecidableEq

/--
Where the current task is: in user mode, at `ret_from_sys_call`, in a system call, between the two
lines of `copy_process`, before `tell_father`, in the loops of `schedule`, before the two lines of
`schedule`, before its `switch_to`, after `schedule`, or at the `repeat` of `interruptible_sleep_on`.
-/
inductive Phase where
  | user
  | ret
  | kernel
  | forked (child : Page)
  | exited
  | signals (slots : List Slot) (frame : Frame)
  | select (frame : Frame)
  | ready (next : Slot) (frame : Frame)
  | run (next : Slot) (frame : Frame)
  | switch (next : Slot) (frame : Frame)
  | resumed (frame : Frame)
  | again (q : Nat) (tmp : Option Page)
  deriving Repr, DecidableEq

structure Kernel where
  task : Slot → Option Page
  mem : Page → Task
  frame : Page → Frame
  current : Page
  phase : Phase
  queue : Nat → Option Page
  jiffies : BitVec 32
  lastPid : Nat
  log : List LogLine

-- `LAST_TASK` down to the one after `FIRST_TASK`
def lastToFirst : List Slot :=
  ((List.finRange NR_TASKS).drop 1).reverse

theorem mem_lastToFirst {i : Slot} (h : i ∈ lastToFirst) : i ≠ 0 := by
  have hall : ∀ i ∈ lastToFirst, i ≠ 0 := by decide
  apply hall
  apply h

theorem mem_lastToFirst_of_ne {i : Slot} (h : i ≠ 0) : i ∈ lastToFirst := by
  have hall : ∀ i : Slot, i ≠ 0 → i ∈ lastToFirst := by decide
  exact hall i h

namespace Kernel

def init (jiffies : BitVec 32) : Kernel :=
  {
    task := Function.update (fun _ => none) 0 (some 0)
    mem := fun _ => Task.initTask
    frame := fun _ => .user
    current := 0
    phase := .user
    queue := fun _ => none
    jiffies
    lastPid := 0
    log := []
  }

def setTask (s : Kernel) (p : Page) (t : Task) : Kernel :=
  { s with mem := Function.update s.mem p t }

def setState (s : Kernel) (p : Page) (state : TaskState) : Kernel :=
  s.setTask p { s.mem p with state }

def fprintk (s : Kernel) (p : Page) (letter : Letter) : Kernel :=
  { s with log := s.log ++ [{ pid := (s.mem p).pid, letter, time := s.jiffies.toInt }] }

def inTable (s : Kernel) (p : Page) : Bool :=
  (List.finRange NR_TASKS).any fun i => s.task i == some p

def isIdle (s : Kernel) : Bool :=
  s.task 0 == some s.current

def pids (s : Kernel) : Slot → Option Nat :=
  fun i => (s.task i).map fun p => (s.mem p).pid

def schedule (s : Kernel) (frame : Frame) : Kernel :=
  { s with phase := .signals lastToFirst frame }

def choose (s : Kernel) : BitVec 32 × Slot :=
  lastToFirst.foldl (fun (c, next) i =>
    match s.task i with
    | none => (c, next)
    | some p =>
      if (s.mem p).state = .TASK_RUNNING ∧ c.toInt < (s.mem p).counter.toInt then
        ((s.mem p).counter, i)
      else
        (c, next))
    (-1, 0)

def refill (s : Kernel) : Kernel :=
  { s with
    mem := fun p =>
      if lastToFirst.any fun i => s.task i == some p then (s.mem p).refill else s.mem p
  }

def switchTo (s : Kernel) (p : Page) (frame : Frame) : Kernel :=
  if p = s.current then
    { s with phase := .resumed frame }
  else
    { s with
      frame := Function.update s.frame s.current frame
      current := p
      phase := .resumed (s.frame p)
    }

abbrev Move := Kernel × Option (Page × Letter)

def wake (s : Kernel) (p : Page) : Move :=
  (s.setState p .TASK_RUNNING, some (p, .J))

def sleep (s : Kernel) (state : TaskState) (frame : Frame) : Move :=
  ((s.setState s.current state).schedule frame, some (s.current, .W))

def wakeUp (s : Kernel) (q : Nat) : Move :=
  match s.queue q with
  | none => (s, none)
  | some p => ({ s with queue := Function.update s.queue q none }.wake p)

def sleepOn (s : Kernel) (q : Nat) : Move :=
  let tmp := s.queue q
  { s with queue := Function.update s.queue q (some s.current) }.sleep .TASK_UNINTERRUPTIBLE (.sleepOn tmp)

def interruptibleSleepOn (s : Kernel) (q : Nat) : Move :=
  let tmp := s.queue q
  { s with queue := Function.update s.queue q (some s.current) }.sleep .TASK_INTERRUPTIBLE
    (.interruptibleSleepOn q tmp)

def sysPause (s : Kernel) : Move :=
  let s' := (s.setState s.current .TASK_INTERRUPTIBLE).schedule .kernel
  if (s.mem s.current).pid ≠ 0 then (s', some (s.current, .W)) else (s', none)

namespace sysWaitpid

inductive Scan where
  | stopped
  | zombie (i : Slot)
  | waiting
  | noChild
  deriving Repr, DecidableEq

def isChild (s : Kernel) (args : WaitArgs) (p : Page) : Bool :=
  p != s.current && (s.mem p).father == (s.mem s.current).pid
    && if 0 < args.pid then
        ((s.mem p).pid : Int) == args.pid
      else if args.pid = 0 then
        (s.mem p).pgrp == (s.mem s.current).pgrp
      else
        args.pid == -1 || (s.mem p).pgrp == -args.pid

def scan (s : Kernel) (args : WaitArgs) (flag : Bool) : List Slot → Scan
  | [] => if flag then .waiting else .noChild
  | i :: slots =>
    match s.task i with
    | none => scan s args flag slots
    | some p =>
      if isChild s args p then
        match (s.mem p).state with
        | .TASK_STOPPED => if args.wuntraced then .stopped else scan s args flag slots
        | .TASK_ZOMBIE => .zombie i
        | _ => scan s args true slots
      else
        scan s args flag slots

end sysWaitpid

def sysWaitpid (s : Kernel) (args : WaitArgs) : Move :=
  match sysWaitpid.scan s args false lastToFirst with
  | .zombie i => ({ s with task := Function.update s.task i none }.schedule .kernel, none)
  | .waiting =>
    if args.wnohang then
      ({ s with phase := .kernel }, none)
    else
      s.sleep .TASK_INTERRUPTIBLE (.waitpid args)
  | _ => ({ s with phase := .kernel }, none)

-- The loop over the children at the start of `do_exit`.
def reparent (s : Kernel) : Kernel :=
  let isChild := fun p => s.inTable p && (s.mem p).father == (s.mem s.current).pid
  let hasZombie := (List.finRange NR_TASKS).any fun i =>
    match s.task i with
    | none => false
    | some p => isChild p && (s.mem p).state == .TASK_ZOMBIE
  { s with
    mem := fun p =>
      let t := if isChild p then { s.mem p with father := 1 } else s.mem p
      if hasZombie && s.task 1 == some p then t.raise (signalBit SIGCHLD) else t
  }

def killSession (s : Kernel) : Kernel :=
  { s with
    mem := fun p =>
      if lastToFirst.any (fun i => s.task i == some p)
          && (s.mem p).session == (s.mem s.current).session then
        (s.mem p).raise (signalBit SIGHUP)
      else
        s.mem p
  }

def doExit (s : Kernel) : Move :=
  let s := if (s.mem s.current).leader then s.killSession else s
  ({ s.setState s.current .TASK_ZOMBIE with phase := .exited }, some (s.current, .E))

-- `tell_father`, which releases the current task if it has no father, and the `schedule` after it.
def tellFather (s : Kernel) : Option Kernel :=
  let father := (s.mem s.current).father
  let found := (List.finRange NR_TASKS).findSome? fun i =>
    match s.task i with
    | none => none
    | some p => if ((s.mem p).pid : Int) = father then some p else none
  match (if father = 0 then none else found) with
  | some p => some ((s.setTask p ((s.mem p).raise (signalBit SIGCHLD))).schedule .kernel)
  | none =>
    match ((List.finRange NR_TASKS).drop 1).find? fun i => s.task i == some s.current with
    | none => none
    | some i => some ({ s with task := Function.update s.task i none }.schedule .kernel)

-- `page` is the answer of `get_free_page`, `memOk` that of `copy_mem`.
def sysFork (s : Kernel) (page : Option Page) (memOk : Bool) : Option Move :=
  match findEmptyProcess s.pids s.lastPid with
  | none => none
  | some (lastPid, nr) =>
    match nr, page with
    | some nr, some p =>
      if s.inTable p || p == s.current then
        none
      else
        let child := (s.mem s.current).childOf lastPid
        if memOk then
          some ({ s.setTask p child with
              task := Function.update s.task nr (some p)
              frame := Function.update s.frame p .user
              lastPid
              phase := .forked p
            }, some (p, .N))
        else
          some ({ s.setTask p { child with state := .TASK_UNINTERRUPTIBLE } with lastPid }, none)
    | _, _ => some ({ s with lastPid }, none)

def resume (s : Kernel) : Frame → Move
  | .user => ({ s with phase := .user }, none)
  | .ret => ({ s with phase := .ret }, none)
  | .kernel => ({ s with phase := .kernel }, none)
  | .sleepOn tmp =>
    match tmp with
    | none => ({ s with phase := .kernel }, none)
    | some p => { s with phase := .kernel }.wake p
  | .interruptibleSleepOn q tmp =>
    match s.queue q with
    | some p =>
      if p = s.current then
        resumeTail q tmp
      else
        { s with phase := .again q tmp }.wake p
    | none => resumeTail q tmp
  | .waitpid args =>
    let signal := (s.mem s.current).signal &&& ~~~signalBit SIGCHLD
    let s := s.setTask s.current { s.mem s.current with signal }
    if signal = 0 then s.sysWaitpid args else ({ s with phase := .kernel }, none)
where
  resumeTail (q : Nat) (tmp : Option Page) : Move :=
    let s := { s with queue := Function.update s.queue q none, phase := .kernel }
    match tmp with
    | none => (s, none)
    | some p => s.wake p

def go (s : Kernel) : Option Move :=
  match s.phase with
  | .user => none
  | .ret => some ({ s with phase := .user }, none)
  | .kernel => none
  | .forked child => some ({ s with phase := .kernel }, some (child, .J))
  | .exited => s.tellFather.map fun s => (s, none)
  | .signals [] frame => some ({ s with phase := .select frame }, none)
  | .signals (i :: slots) frame =>
    let s := { s with phase := .signals slots frame }
    match s.task i with
    | none => some (s, none)
    | some p =>
      let t := (s.mem p).checkAlarm s.jiffies
      let s := s.setTask p t
      if t.hasSignal && t.state == .TASK_INTERRUPTIBLE then some (s.wake p) else some (s, none)
  | .select frame =>
    let (c, next) := s.choose
    if c = 0 then
      some (s.refill, none)
    else
      match s.task next with
      | none => none
      | some p =>
        if (s.mem s.current).pid ≠ (s.mem p).pid then
          some ({ s with phase := .ready next frame }, none)
        else
          some (s.switchTo p frame, none)
  | .ready next frame =>
    let s' := { s with phase := .run next frame }
    if (s.mem s.current).state = .TASK_RUNNING then some (s', some (s.current, .J)) else some (s', none)
  | .run next frame =>
    match s.task next with
    | none => none
    | some p => some ({ s with phase := .switch next frame }, some (p, .R))
  | .switch next frame =>
    match s.task next with
    | none => none
    | some p => some (s.switchTo p frame, none)
  | .resumed frame => some (s.resume frame)
  | .again q tmp => some (s.sleep .TASK_INTERRUPTIBLE (.interruptibleSleepOn q tmp))

inductive Act where
  | enter
  | leave
  | doSignal (sig : Nat) (exits : Bool)
  | fork (page : Option Page) (memOk : Bool)
  | pause
  | sleepOn (q : Nat)
  | interruptibleSleepOn (q : Nat)
  | wakeUp (q : Nat)
  | waitpid (args : WaitArgs)
  | reparent
  | exit
  | alarm (seconds : BitVec 32)
  | ssetmask (mask : BitVec 32)
  | nice (increment : BitVec 32)
  | setIds (i : Slot) (pgrp session : Int) (leader : Bool)
  | signal (i : Slot) (bits : BitVec 32)
  | go
  | tick
  | interrupt (q : Nat)
  deriving Repr, DecidableEq

def setCurrent (s : Kernel) (f : Task → Task) : Kernel :=
  s.setTask s.current (f (s.mem s.current))

def setSlot (s : Kernel) (i : Slot) (f : Task → Task) : Kernel :=
  match s.task i with
  | none => s
  | some p => s.setTask p (f (s.mem p))

-- `do_timer` after the interrupt has counted `jiffies`.
def doTimer (s : Kernel) : Kernel :=
  let left := (s.mem s.current).counter - 1
  let counter := if 0 < left.toInt then left else 0
  let s' := { s.setCurrent (fun t => { t with counter }) with jiffies := s.jiffies + 1 }
  if 0 < left.toInt then s' else if s.phase = .user then s'.schedule .ret else s'

-- System calls: the current task is in one, and task 0 calls `fork` and `pause` only.
def call (s : Kernel) : Act → Option Move
  | .leave =>
    let t := s.mem s.current
    if t.state ≠ .TASK_RUNNING ∨ t.counter = 0 then
      some (s.schedule .ret, none)
    else
      some ({ s with phase := .ret }, none)
  | .fork page memOk => s.sysFork page memOk
  | .pause => some s.sysPause
  | .wakeUp q => some (s.wakeUp q)
  | .sleepOn q => if s.isIdle then none else some (s.sleepOn q)
  | .interruptibleSleepOn q => if s.isIdle then none else some (s.interruptibleSleepOn q)
  | .waitpid args => if s.isIdle then none else some (s.sysWaitpid args)
  | .reparent => if s.isIdle then none else some (s.reparent, none)
  | .exit => if s.isIdle then none else some s.doExit
  | .alarm seconds =>
    let alarm := if (0#32).slt seconds then s.jiffies + HZ * seconds else 0
    some (s.setCurrent fun t => { t with alarm }, none)
  | .ssetmask mask => some (s.setCurrent fun t => { t with blocked := mask &&& ~~~signalBit SIGKILL }, none)
  | .nice increment => some (s.setCurrent fun t => t.nice increment, none)
  | _ => none

def move (s : Kernel) : Act → Option Move
  | .enter => if s.phase = .user then some ({ s with phase := .kernel }, none) else none
  | .doSignal sig exits =>
    let t := s.mem s.current
    if s.phase = .ret ∧ s.isIdle = false ∧ t.signal &&& ~~~t.blocked &&& signalBit sig ≠ 0 then
      let s := s.setCurrent fun t => { t with signal := t.signal &&& ~~~signalBit sig }
      some ({ s with phase := if exits then .kernel else .ret }, none)
    else
      none
  | .setIds i pgrp session leader => some (s.setSlot i fun t => { t with pgrp, session, leader }, none)
  | .signal i bits => some (s.setSlot i fun t => t.raise bits, none)
  | .go => s.go
  | .tick => some (s.doTimer, none)
  | .interrupt q => some (s.wakeUp q)
  | a => if s.phase = .kernel then s.call a else none

def step (s : Kernel) (a : Act) : Option Kernel :=
  match s.move a with
  | none => none
  | some (s', none) => some s'
  | some (s', some (p, letter)) => some (s'.fprintk p letter)

end Kernel
end OS
