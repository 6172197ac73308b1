import ByDoing.Lib.ByteMemory
import ByDoing.Lib.Ensures
import Mathlib.Logic.Function.Basic

/-!
This module contains the part of `exec.c` that hands the arguments and the environment over to a new program:
`copy_strings`, which collects the strings in pages, `change_ldt`, which puts the pages at the end of the data segment,
and `create_tables`, which builds the tables of pointers.
-/

namespace OS
namespace Exec

open ByteMemory

abbrev Byte := BitVec 8
abbrev Address := BitVec 32
abbrev Mem := ByteMemory 32

def PAGE_SIZE : Nat := 4096
def MAX_ARG_PAGES : Nat := 32

def ADDRESSES : Nat := 4294967296

-- What the segment register `fs` may select.
inductive Seg where
  | kernel
  | user
  deriving DecidableEq

-- `page[]`, with the contents of the pages, the number of free pages, and `fs`.
structure ArgPages where
  page : Nat → Option (Nat → Byte)
  free : Nat
  fs : Seg

-- The variables of `copy_strings`; `pag` is the index of the page that it points to.
structure Copy extends ArgPages where
  p : Address
  tmp : Address
  pag : Option Nat
  offset : Int

-- Why `copy_strings` stops: it returns 0, it uses an index that `page[]` does not have or a null pointer, it panics, or
-- it looks for the end of a string for ever.
inductive Exit where
  | zero (pages : ArgPages)
  | index
  | null
  | argc
  | endless

-- What `copy_strings` begins with.
def Copy.start (pages : ArgPages) (p : Address) : Copy :=
  { pages with p, tmp := 0, pag := none, offset := 0 }

abbrev Copying := Machine Copy Exit

open Machine

-- `fs` is loaded if the condition holds.
def setFs (cond : Prop) [Decidable cond] (seg : Seg) : Copying Unit :=
  modify fun c => { c with fs := if cond then seg else c.fs }

-- `get_free_page` clears the page.
def getFreePage (i : Nat) : Copying Unit := do
  let c ← get
  if c.free = 0 then
    stop (.zero c.toArgPages)
  else
    modify fun c => { c with free := c.free - 1, page := Function.update c.page i (some fun _ => 0) }

-- `pag` is set to the page of `p`.
def findPage : Copying Unit := do
  let c ← get
  let i := c.p.toNat / PAGE_SIZE
  if i < MAX_ARG_PAGES then
    match c.page i with
    | some _ => modify fun c => { c with pag := some i }
    | none => do
      getFreePage i
      modify fun c => { c with pag := some i }
  else
    stop .index

variable (mem : Seg → Mem) (fromKmem : Nat) (old_fs : Seg)

def enterPage : Copying Unit := do
  modify fun c => { c with offset := c.p.toNat % PAGE_SIZE }
  setFs (fromKmem = 2) old_fs
  findPage
  setFs (fromKmem = 2) .kernel

-- `*(pag + offset) = get_fs_byte(tmp)`
def putByte : Copying Unit := do
  let c ← get
  match c.pag with
  | none => stop .null
  | some i =>
    modify fun c =>
      { c with
        page := Function.update c.page i
          ((c.page i).map fun bytes => Function.update bytes c.offset.toNat (mem c.fs c.tmp)) }

def copyByte : Copying Unit := do
  modify fun c => { c with p := c.p - 1, tmp := c.tmp - 1, offset := c.offset - 1 }
  let c ← get
  (if c.offset < 0 then enterPage fromKmem old_fs else pure ())
  putByte mem

def copyBytes : Nat → Copying Unit
  | 0 => pure ()
  | len + 1 => do
    copyByte mem fromKmem old_fs
    copyBytes len

-- The string with the number `argc` of the array `argv`.
def copyString (argv : Address) (argc : Nat) : Copying Unit := do
  setFs (fromKmem = 1) .kernel
  let c ← get
  let tmp := getLong (mem c.fs) (argv + BitVec.ofNat 32 (4 * argc))
  if tmp = 0 then
    stop .argc
  else do
    setFs (fromKmem = 1) old_fs
    let c ← get
    match scan (mem c.fs) ADDRESSES tmp with
    | none => stop .endless
    | some len =>
      -- Both are unsigned, and so is the difference.
      if c.p - BitVec.ofNat 32 len < 0 then
        stop (.zero { c with fs := old_fs })
      else do
        modify fun c => { c with tmp := tmp + BitVec.ofNat 32 len }
        copyBytes mem fromKmem old_fs len

def copyArgs (argv : Address) : Nat → Copying Unit
  | 0 => pure ()
  | argc + 1 => do
    copyString mem fromKmem old_fs argv argc
    copyArgs argv argc

-- A call of `copy_strings`, with its arguments.
structure Call where
  argc : Nat
  argv : Address
  fromKmem : Nat

def copyAll (call : Call) : Copying Unit := do
  setFs (call.fromKmem = 2) .kernel
  copyArgs mem call.fromKmem old_fs call.argv call.argc
  setFs (call.fromKmem = 2) old_fs

def copyStrings (call : Call) (pages : ArgPages) (p : Address) : Except Exit (ArgPages × Address) :=
  if p = 0 then
    .ok (pages, 0)
  else
    match copyAll mem pages.fs call (.start pages p) with
    | .ok (_, c) => .ok (c.toArgPages, c.p)
    | .error (.zero pages) => .ok (pages, 0)
    | .error e => .error e

def copyCalls : List Call → ArgPages → Address → Except Exit (ArgPages × Address)
  | [], pages, p => .ok (pages, p)
  | call :: calls, pages, p => do
    let (pages, p) ← copyStrings mem call pages p
    copyCalls calls pages p

def putPage (mem : Mem) (bytes : Nat → Byte) (address : Address) : Mem :=
  fun a => if (a - address).toNat < PAGE_SIZE then bytes (a - address).toNat else mem a

-- The loop of `change_ldt`, for the pages below `i`; `data_base` is counted from the start of the data segment.
def putPages (page : Nat → Option (Nat → Byte)) : Nat → Address → Mem → Mem
  | 0, _, mem => mem
  | i + 1, data_base, mem =>
    let data_base := data_base - BitVec.ofNat 32 PAGE_SIZE
    match page i with
    | none => putPages page i data_base mem
    | some bytes => putPages page i data_base (putPage mem bytes data_base)

def dataLimit : Address := 0x4000000

-- `mem` is what the data segment shows where no page has been put.
def changeLdt (page : Nat → Option (Nat → Byte)) (mem : Mem) : Mem :=
  putPages page MAX_ARG_PAGES dataLimit mem

-- A loop of `create_tables`: the pointers to `argc` strings from `p` on are put into the table, and both pointers have
-- moved on behind it.
def fillTable : Nat → Mem → Address → Address → Except Exit (Mem × Address × Address)
  | 0, mem, p, table => .ok (mem, p, table)
  | argc + 1, mem, p, table =>
    let mem := putLong mem table p
    match scan mem ADDRESSES p with
    | none => .error .endless
    | some len => fillTable argc mem (p + BitVec.ofNat 32 len) (table + 4)

def createTables (mem : Mem) (p : Address) (argc envc : Nat) : Except Exit (Mem × Address) := do
  let sp := (0xfffffffc : Address) &&& p
  let sp := sp - BitVec.ofNat 32 (4 * (envc + 1))
  let envp := sp
  let sp := sp - BitVec.ofNat 32 (4 * (argc + 1))
  let argv := sp
  let mem := putLong mem (sp - 4) envp
  let mem := putLong mem (sp - 8) argv
  let mem := putLong mem (sp - 12) (BitVec.ofNat 32 argc)
  let (mem, p, argv) ← fillTable argc mem p argv
  let mem := putLong mem argv 0
  let (mem, _, envp) ← fillTable envc mem p envp
  let mem := putLong mem envp 0
  return (mem, sp - 12)

-- What `do_execve` does with the strings: the environment is copied first, and then the arguments. There is no result
-- when it returns `-ENOMEM`. `data` is what the new data segment shows otherwise.
def execStrings (data : Mem) (free : Nat) (env : Call) (args : List Call) : Except Exit (Option (Mem × Address)) := do
  let pages : ArgPages := { page := fun _ => none, free, fs := .user }
  let (pages, p) ← copyCalls mem (env :: args) pages (BitVec.ofNat 32 (PAGE_SIZE * MAX_ARG_PAGES - 4))
  if p = 0 then
    return none
  else
    let argc := (args.map Call.argc).sum
    let p := p + (dataLimit - BitVec.ofNat 32 (MAX_ARG_PAGES * PAGE_SIZE))
    let started ← createTables (changeLdt pages.page data) p argc env.argc
    return some started

end Exec
end OS
