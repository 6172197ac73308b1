import ByDoing.Lib.Ensures
import ByDoing.OS.ExecPages
import Mathlib.Data.List.TakeWhile

/-!
This module contains `do_execve` with the references to inodes and buffers and the pages that it takes: the checks of the
file, the line `#!` of a script, whose interpreter goes through the checks again, and the two labels that its failures go
to.
-/

namespace OS
namespace Exec

open Ledger

-- What `do_execve` reads of an inode.
structure Inode where
  iMode : BitVec 16
  iUid : BitVec 16
  iSize : BitVec 32
  iGid : BitVec 8
  iZone : BitVec 16
  iDev : BitVec 16

-- The address space of a process: the limits in `task_struct`, and the pages that its data segment has.
structure Space where
  endCode : BitVec 32
  endData : BitVec 32
  brk : BitVec 32
  startStack : BitVec 32
  codeLimit : BitVec 32
  mapped : Nat → Bool

-- What a new program changes of the process, with the `eip` and the `esp` that it goes on with.
structure Task where
  euid : BitVec 16
  egid : BitVec 16
  executable : Option Nat
  saHandler : Fin 32 → BitVec 32
  filp : Nat → Option Nat
  closeOnExec : BitVec 32
  space : Space
  eip : Address
  esp : Address

-- The task, the references to the inodes and to the buffers of a device, and `page[]` with the free pages.
structure Kernel where
  task : Task
  iCount : Nat → Nat
  bCount : BitVec 16 × BitVec 16 → Nat
  pages : Pages

structure Files where
  namei : CString → Option Nat
  inode : Nat → Inode
  block : BitVec 16 × BitVec 16 → Option (Nat → Byte)

-- The panics: `do_execve` is called from supervisor mode, or an inode or a buffer is released that is free.
inductive Panic where
  | supervisor
  | inode
  | buffer
  deriving DecidableEq

abbrev Execve := Machine Kernel Panic

def ENOENT : Int := 2
def ENOEXEC : Int := 8
def ENOMEM : Int := 12
def EACCES : Int := 13

namespace Kernel

def holding (k : Kernel) (i : Nat) : Kernel :=
  { k with iCount := Function.update k.iCount i (k.iCount i + 1) }

def reading (k : Kernel) (b : BitVec 16 × BitVec 16) : Kernel :=
  { k with bCount := Function.update k.bCount b (k.bCount b + 1) }

end Kernel

def iput (i : Nat) : Execve Unit := do
  let k ← get
  if k.iCount i = 0 then
    Machine.stop .inode
  else
    modify fun k => { k with iCount := Function.update k.iCount i (k.iCount i - 1) }

def brelse (b : BitVec 16 × BitVec 16) : Execve Unit := do
  let k ← get
  if k.bCount b = 0 then
    Machine.stop .buffer
  else
    modify fun k => { k with bCount := Function.update k.bCount b (k.bCount b - 1) }

def execError1 (retval : Int) : Execve Int := do
  modify fun k => { k with pages := k.pages.release }
  return retval

def execError2 (i : Nat) (retval : Int) : Execve Int := do
  iput i
  execError1 retval

-- `struct exec`, the first bytes of the file.
structure Header where
  aMagic : BitVec 32
  aText : BitVec 32
  aData : BitVec 32
  aBss : BitVec 32
  aSyms : BitVec 32
  aEntry : BitVec 32
  aTrsize : BitVec 32
  aDrsize : BitVec 32

def Header.of (data : Nat → Byte) : Header :=
  let long (i : Nat) : BitVec 32 := data (4 * i + 3) ++ data (4 * i + 2) ++ data (4 * i + 1) ++ data (4 * i)
  {
    aMagic := long 0
    aText := long 1
    aData := long 2
    aBss := long 3
    aSyms := long 4
    aEntry := long 5
    aTrsize := long 6
    aDrsize := long 7
  }

def ZMAGIC : BitVec 32 := 0o413
def BLOCK_SIZE : BitVec 32 := 1024
def SEGMENT_SIZE : BitVec 32 := 1024

def Header.N_TXTOFF (ex : Header) : BitVec 32 :=
  if ex.aMagic = ZMAGIC then SEGMENT_SIZE - 32 + 32 else 32

namespace Inode

def S_ISREG (inode : Inode) : Bool :=
  inode.iMode &&& 0o170000 == 0o100000

def executable (inode : Inode) (current : Task) : Bool :=
  let i :=
    if current.euid = inode.iUid then
      inode.iMode >>> 6
    else if current.egid = inode.iGid.setWidth 16 then
      inode.iMode >>> 3
    else
      inode.iMode
  i &&& 1 != 0 || (inode.iMode &&& 0o111 != 0 && current.euid == 0)

def unfit (inode : Inode) (ex : Header) : Bool :=
  ex.aMagic != ZMAGIC || ex.aTrsize != 0 || ex.aDrsize != 0
    || decide (ex.aText + ex.aData + ex.aBss > 0x3000000)
    || decide (inode.iSize < ex.aText + ex.aData + ex.aSyms + ex.N_TXTOFF)
    || ex.N_TXTOFF != BLOCK_SIZE

end Inode

def CString.of (l : List Byte) : CString :=
  {
    chars := l.takeWhile (· != 0)
    nonzero := fun c hc => by simpa using List.mem_takeWhile_imp hc
  }

-- The line `#!` of a script.
structure Interpreter where
  interp : CString
  iName : CString
  iArg : Option CString

def isScript (data : Nat → Byte) : Bool :=
  data 0 == 0x23 && data 1 == 0x21

def blank (c : Byte) : Bool :=
  c == 0x20 || c == 0x09

-- The loop that looks for the end of the name, with the `i_name` found so far.
def lastName (iName : List Byte) : List Byte → List Byte
  | [] => iName
  | c :: cp => lastName (if c = 0x2f then cp else iName) cp

def interpreter (data : Nat → Byte) : Option Interpreter :=
  let buf := (CString.of ((List.range 1022).map fun i => data (i + 2))).chars
  if 0x0a ∈ buf then
    let cp := (buf.takeWhile (· != 0x0a)).dropWhile blank
    if cp = [] then
      none
    else
      let interp := cp.takeWhile fun c => !blank c
      some {
        interp := .of interp
        iName := .of (lastName interp interp)
        iArg :=
          match cp.dropWhile fun c => !blank c with
          | [] => none
          | _ :: iArg => some (.of iArg)
      }
  else
    none

-- What `do_execve` is called with.
structure Args where
  filename : CString
  argv : List CString
  envp : List CString

def Args.scriptCalls (args : Args) (line : Interpreter) : List (List CString) :=
  [args.envp, args.argv.tail, [args.filename]] ++ line.iArg.toList.map (fun iArg => [iArg]) ++ [[line.iName]]

def Args.calls (args : Args) : List (List CString) :=
  [args.envp, args.argv]

-- `argc` for a script.
def Args.scriptArgc (args : Args) (line : Interpreter) : Int :=
  args.argv.length - 1 + 1 + line.iArg.toList.length + 1

-- Where the tables of `create_tables` begin.
def tables (p : Address) (argc : Int) (envc : Nat) : Address :=
  (0xfffffffc &&& p) - BitVec.ofNat 32 (4 * (envc + 1)) - BitVec.ofInt 32 (4 * (argc + 1)) - 12

-- What the new program makes of the process. The pages of `page[]` are the last ones of its data segment.
def Task.started (task : Task) (inode : Inode) (i : Nat) (ex : Header) (argc : Int) (envc : Nat) (p : Address)
    (page : Nat → Bool)
    : Task :=
  let p := tables (p + (dataLimit - BitVec.ofNat 32 (MAX_ARG_PAGES * PAGE_SIZE))) argc envc
  let first := dataLimit.toNat / PAGE_SIZE - MAX_ARG_PAGES
  {
    euid := if inode.iMode &&& 0o4000 = 0 then task.euid else inode.iUid
    egid := if inode.iMode &&& 0o2000 = 0 then task.egid else inode.iGid.setWidth 16
    executable := some i
    saHandler := fun _ => 0
    filp := fun fd => if task.closeOnExec.getLsbD fd then none else task.filp fd
    closeOnExec := 0
    space := {
      endCode := ex.aText
      endData := ex.aText + ex.aData
      brk := ex.aText + ex.aData + ex.aBss
      startStack := p &&& 0xfffff000
      codeLimit := (ex.aText + BitVec.ofNat 32 (PAGE_SIZE - 1)) &&& 0xfffff000
      mapped := fun j => decide (first ≤ j ∧ j < first + MAX_ARG_PAGES) && page (j - first)
    }
    eip := ex.aEntry
    esp := p
  }

section Execve

variable (files : Files) (args : Args)

def namei (pathname : CString) : Execve (Option Nat) :=
  match files.namei pathname with
  | none => pure none
  | some i => do
    modify fun k => k.holding i
    return some i

def bread (b : BitVec 16 × BitVec 16) : Execve (Option (Nat → Byte)) :=
  match files.block b with
  | none => pure none
  | some data => do
    modify fun k => k.reading b
    return some data

def Files.first (i : Nat) : BitVec 16 × BitVec 16 :=
  ((files.inode i).iDev, (files.inode i).iZone)

def copyLists (strss : List (List CString)) (p : Address) : Execve Address := do
  let k ← get
  let r := Ledger.copyCalls strss k.pages p
  modify fun k => { k with pages := r.fst }
  return r.snd

def iputExecutable : Execve Unit := do
  let k ← get
  match k.task.executable with
  | none => pure ()
  | some old => iput old

def start (i : Nat) (ex : Header) (argc : Int) (p : Address) : Execve Int := do
  iputExecutable
  modify fun k =>
    { k with task := k.task.started (files.inode i) i ex argc args.envp.length p k.pages.page }
  return 0

-- From `restart_interp` on, as far as the first block; `go` is what is done with it.
def restartInterp (i : Nat) (go : (Nat → Byte) → Execve Int) : Execve Int := do
  let k ← get
  let inode := files.inode i
  if !inode.S_ISREG then
    execError2 i (-EACCES)
  else if !inode.executable k.task then
    execError2 i (-ENOEXEC)
  else
    match ← bread files (files.first i) with
    | none => execError2 i (-EACCES)
    | some data => go data

-- A file that is not a script. With `sh_bang` it is an interpreter, and the strings have been copied.
def program (sh_bang : Bool) (i : Nat) (argc : Int) (p : Address) (data : Nat → Byte) : Execve Int := do
  let ex := Header.of data
  brelse (files.first i)
  if (files.inode i).unfit ex then
    execError2 i (-ENOEXEC)
  else if sh_bang then
    start files args i ex argc p
  else do
    let p ← copyLists args.calls p
    if p = 0 then execError2 i (-ENOMEM) else start files args i ex argc p

def script (i : Nat) (p : Address) (data : Nat → Byte) : Execve Int := do
  brelse (files.first i)
  iput i
  match interpreter data with
  | none => execError1 (-ENOEXEC)
  | some line => do
    let p ← copyLists (args.scriptCalls line) p
    if p = 0 then
      execError1 (-ENOMEM)
    else do
      match ← namei files line.interp with
      | none => execError1 (-ENOENT)
      | some i => restartInterp files i (program files args true i (args.scriptArgc line) p)

-- `page[]` is cleared, and what is behind it on the stack is not.
def Ledger.Pages.clear (pages : Pages) : Pages :=
  { pages with page := fun i => if i < MAX_ARG_PAGES then false else pages.page i, stray := false }

-- `cs` is what the process has been interrupted with.
def doExecve (cs : BitVec 16) : Execve Int := do
  if cs ≠ 0x000f then
    Machine.stop .supervisor
  else do
    modify fun k => { k with pages := k.pages.clear }
    match ← namei files args.filename with
    | none => return -ENOENT
    | some i =>
      let p := BitVec.ofNat 32 ROOM
      restartInterp files i fun data =>
        if isScript data then script files args i p data else program files args false i args.argv.length p data

-- The strings that `do_execve` comes to copy.
def handed (current : Task) : List (List CString) :=
  match files.namei args.filename with
  | none => []
  | some i =>
    let inode := files.inode i
    if inode.S_ISREG && inode.executable current then
      match files.block (files.first i) with
      | none => []
      | some data =>
        if isScript data then
          match interpreter data with
          | none => []
          | some line => args.scriptCalls line
        else if inode.unfit (.of data) then
          []
        else
          args.calls
    else
      []

end Execve

structure Restored (k k' : Kernel) : Prop where
  task : k'.task = k.task
  iCount : k'.iCount = k.iCount
  bCount : k'.bCount = k.bCount
  pages : k'.pages.free = k.pages.free ∧ k'.pages.stray = false

end Exec
end OS
