import ByDoing.Lib.Ensures
import ByDoing.OS.RequestQueue

/-!
This module contains the driver of the hard disk in `hd.c`. What the controller answers to its commands is given with
each step. An interrupt runs to its end. `add_request` calls the driver with interrupts enabled, so there they may come
between its steps, which are those that tell whether a handler is set and what it is set for.
-/

namespace OS
namespace HardDisk

open Requests (Request Order)

def MAX_ERRORS : Nat := 7

def MAJOR_NR : Nat := 3

def READ : Nat := 0

def WRITE : Nat := 1

def MAJOR (dev : Int) : Nat :=
  dev.toNat / 256

def MINOR (dev : Int) : Nat :=
  dev.toNat % 256

-- What the driver uses of `hd_info` and `hd`.
structure HdInfo where
  head : Nat
  sect : Nat
  cyl : Nat

structure HdStruct where
  startSect : Nat
  nrSects : Nat

structure Disks where
  NR_HD : Nat
  hdInfo : Nat → HdInfo
  hd : Nat → HdStruct

inductive Command where
  | WIN_SPECIFY
  | WIN_RESTORE
  | WIN_READ
  | WIN_WRITE
  deriving DecidableEq

-- What `hd_out` sends.
structure Output where
  drive : Nat
  nsect : Nat
  sect : Nat
  head : Nat
  cyl : Nat
  cmd : Command
  deriving DecidableEq

inductive Handler where
  | readIntr
  | writeIntr
  | recalIntr

-- Whether the controller is ready for a command, and whether it asks for the data of a `WIN_WRITE` in time.
structure Answer where
  ready : Bool
  drq : Bool

-- `CURRENT` has been used without a request, `panic` or a division by zero has been reached, or the loop of
-- `do_hd_request` has not ended.
inductive Halt where
  | null
  | panic
  | fuel
  deriving DecidableEq

-- The queue and the variables of the driver, with the last command; `subject` is the request that it was given for, if
-- that is still in the queue, `failures` is how often the sector that is being transferred has failed since one was
-- transferred last, and `charges` is the requests that an error has been counted for, each with the one that had failed.
structure State where
  queue : Requests.State
  doHd : Option Handler
  reset : Bool
  recalibrate : Bool
  command : Option Output
  halt : Option Halt
  subject : Nat
  failures : Nat
  charges : List (Nat × Nat)

abbrev Hd := Machine State Halt

def CURRENT : Hd Request := do
  let s ← get
  if s.queue.currentRequest = 0 then
    Machine.stop .null
  else
    pure (s.queue.request s.queue.currentRequest)

def setCURRENT (request : Request) : Hd Unit :=
  modify fun s =>
    { s with queue := { s.queue with
        request := Function.update s.queue.request s.queue.currentRequest request } }

def endRequest (uptodate : Bool) : Hd Unit := do
  let s ← get
  match s.queue.endRequest uptodate with
  | none => Machine.stop .null
  | some queue =>
    modify fun s =>
      { s with queue, failures := 0, subject := if s.subject = s.queue.currentRequest then 0 else s.subject }

-- `hd_out` up to `do_hd = intr_addr`.
def arm (ready : Bool) (output : Output) (intr_addr : Handler) : Hd Unit :=
  if 1 < output.drive ∨ 15 < output.head then
    Machine.stop .panic
  else if !ready then
    Machine.stop .panic
  else
    modify fun s => { s with doHd := some intr_addr }

-- The rest of it, for the request `req` that was the first one when the command was chosen.
def send (output : Output) (req : Nat) : Hd Unit :=
  modify fun s => { s with command := some output, subject := if req = s.queue.currentRequest then req else 0 }

def hdOut (ready : Bool) (output : Output) (intr_addr : Handler) : Hd Unit := do
  arm ready output intr_addr
  let s ← get
  send output s.queue.currentRequest

-- `++CURRENT->errors`
def countError : Hd Nat := do
  let request ← CURRENT
  setCURRENT { request with errors := request.errors + 1 }
  modify fun s =>
    { s with failures := s.failures + 1, charges := (s.queue.currentRequest, s.subject) :: s.charges }
  pure (request.errors + 1)

def badRwIntr : Hd Unit := do
  let errors ← countError
  (if MAX_ERRORS ≤ errors then endRequest false else pure ())
  let request ← CURRENT
  if MAX_ERRORS / 2 < request.errors then
    modify fun s => { s with reset := true }

variable (disks : Disks)

-- A round of `do_hd_request` ends with its `return`, with `goto repeat` or with a command.
inductive Next where
  | idle
  | again
  | command (output : Output) (handler : Handler)

-- From `INIT_REQUEST` to the call of `hd_out`.
def nextCommand : Hd Next := do
  let s ← get
  if s.queue.currentRequest = 0 then
    return .idle
  let request ← CURRENT
  if MAJOR request.dev ≠ MAJOR_NR then
    Machine.stop .panic
  else if request.bh ≠ 0 ∧ s.queue.bLock request.bh = false then
    Machine.stop .panic
  else if 5 * disks.NR_HD ≤ MINOR request.dev
      ∨ (disks.hd (MINOR request.dev)).nrSects < (request.sector + 2) % 4294967296 then
    endRequest false
    return .again
  else
    let block := (request.sector + (disks.hd (MINOR request.dev)).startSect) % 4294967296
    let dev := MINOR request.dev / 5
    let info := disks.hdInfo dev
    if info.sect = 0 ∨ info.head = 0 then
      Machine.stop .panic
    else if s.reset then
      modify fun s => { s with reset := false, recalibrate := true }
      return .command
        { drive := dev, nsect := info.sect, sect := info.sect, head := info.head - 1, cyl := info.cyl,
          cmd := .WIN_SPECIFY } .recalIntr
    else if s.recalibrate then
      modify fun s => { s with recalibrate := false }
      return .command
        { drive := dev, nsect := info.sect, sect := 0, head := 0, cyl := 0, cmd := .WIN_RESTORE } .recalIntr
    else
      let output := fun cmd => {
        drive := dev, nsect := request.nrSectors, sect := block % info.sect + 1
        head := block / info.sect % info.head, cyl := block / info.sect / info.head
        cmd
      }
      if request.cmd = WRITE then
        return .command (output .WIN_WRITE) .writeIntr
      else if request.cmd = READ then
        return .command (output .WIN_READ) .readIntr
      else
        Machine.stop .panic

-- What follows `hd_out` for a `WIN_WRITE`: `port_write` of the buffer of `CURRENT`, or an error and `goto repeat`.
def writeData (drq : Bool) : Hd Bool := do
  if drq then
    let _ ← CURRENT
    return false
  else
    badRwIntr
    return true

-- `do_hd_request` without interrupts. Where no answer is given the controller does what it is to do.
def doHdRequest : Nat → List Answer → Hd Unit
  | 0, _ => Machine.stop .fuel
  | fuel + 1, answers => do
    match ← nextCommand disks with
    | .idle => return
    | .again => doHdRequest fuel answers
    | .command output handler =>
      let answer := answers.headD { ready := true, drq := true }
      hdOut answer.ready output handler
      if output.cmd = .WIN_WRITE then
        if ← writeData answer.drq then
          doHdRequest fuel answers.tail

-- Enough rounds for the loop: in each one but the last a request leaves the queue or an answer is used up.
def fuel (answers : List Answer) : Nat :=
  Requests.NR_REQUEST + answers.length + 1

-- What `--CURRENT->nr_sectors` leaves.
def decrement (nrSectors : Nat) : Nat :=
  if nrSectors = 0 then 4294967295 else nrSectors - 1

def transferred : Hd Unit :=
  modify fun s => { s with failures := 0 }

def setHandler (handler : Handler) : Hd Unit :=
  modify fun s => { s with doHd := some handler }

def readIntr (ok : Bool) (answers : List Answer) : Hd Unit := do
  if !ok then
    badRwIntr
    doHdRequest disks (fuel answers) answers
  else
    let request ← CURRENT
    let nrSectors := decrement request.nrSectors
    setCURRENT { request with errors := 0, sector := request.sector + 1, nrSectors }
    transferred
    if nrSectors ≠ 0 then
      setHandler .readIntr
    else
      endRequest true
      doHdRequest disks (fuel answers) answers

def writeIntr (ok : Bool) (answers : List Answer) : Hd Unit := do
  if !ok then
    badRwIntr
    doHdRequest disks (fuel answers) answers
  else
    let request ← CURRENT
    let nrSectors := decrement request.nrSectors
    transferred
    if nrSectors ≠ 0 then
      setCURRENT { request with nrSectors, sector := request.sector + 1 }
      setHandler .writeIntr
    else
      setCURRENT { request with nrSectors }
      endRequest true
      doHdRequest disks (fuel answers) answers

def recalIntr (ok : Bool) (answers : List Answer) : Hd Unit := do
  (if !ok then badRwIntr else pure ())
  doHdRequest disks (fuel answers) answers

def handle (ok : Bool) (answers : List Answer) : Handler → Hd Unit
  | .readIntr => readIntr disks ok answers
  | .writeIntr => writeIntr disks ok answers
  | .recalIntr => recalIntr disks ok answers

-- Where `do_hd_request` is when `add_request` has called it: at `repeat`, inside of `hd_out` behind `do_hd = intr_addr`,
-- or waiting for the controller to ask for the data.
inductive Doing where
  | entry
  | sending (output : Output) (req : Nat)
  | waiting
  deriving DecidableEq

def goOn (answer : Answer) : Doing → Hd (Option Doing)
  | .entry => do
    match ← nextCommand disks with
    | .idle => return none
    | .again => return some .entry
    | .command output handler =>
      arm answer.ready output handler
      let s ← get
      return some (.sending output s.queue.currentRequest)
  | .sending output req => do
    send output req
    return if output.cmd = .WIN_WRITE then some .waiting else none
  | .waiting => do
    if ← writeData answer.drq then
      return some .entry
    else
      return none

structure Driver where
  hd : State
  doing : Option Doing

inductive Act where
  -- `make_request` has locked the buffer, if there is one, and has found a free request.
  | add (req : Nat) (order : Order)
  | goOn (answer : Answer)
  -- `win_result` says whether the command has gone well.
  | interrupt (ok : Bool) (answers : List Answer)

def lockBuffer (queue : Requests.State) (bh : Nat) : Requests.State :=
  { queue with bLock := Function.update queue.bLock bh true }

namespace State

def run (s : State) (x : Hd Unit) : State :=
  match x s with
  | .ok (_, s') => s'
  | .error halt => { s with halt := some halt }

def init (bDirt bUptodate bLock : Nat → Bool) : State :=
  {
    queue := Requests.State.init bDirt bUptodate bLock
    doHd := none
    reset := true
    recalibrate := true
    command := none
    halt := none
    subject := 0
    failures := 0
    charges := []
  }

end State

namespace Driver

def goOn (s : Driver) (answer : Answer) (doing : Doing) : Driver :=
  match HardDisk.goOn disks answer doing s.hd with
  | .ok (doing, hd) => { hd, doing }
  | .error halt => { s with hd := { s.hd with halt := some halt } }

def step (s : Driver) : Act → Option Driver
  | .add req order =>
    if s.hd.halt = none ∧ s.doing = none ∧ 1 ≤ req ∧ req ≤ Requests.NR_REQUEST ∧ (s.hd.queue.request req).dev < 0
        ∧ 0 ≤ order.dev then
      match (lockBuffer s.hd.queue order.bh).makeRequest req order with
      | none => none
      | some queue =>
        some { hd := { s.hd with queue }, doing := if s.hd.queue.currentRequest = 0 then some .entry else none }
    else
      none
  | .goOn answer => if s.hd.halt = none then s.doing.map (s.goOn disks answer) else none
  | .interrupt ok answers =>
    if s.hd.halt = none then
      match s.hd.doHd with
      | none => some s
      | some handler => some { s with hd := State.run { s.hd with doHd := none } (handle disks ok answers handler) }
    else
      none

def init (bDirt bUptodate bLock : Nat → Bool) : Driver :=
  { hd := State.init bDirt bUptodate bLock, doing := none }

end Driver
end HardDisk
end OS
