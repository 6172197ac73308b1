import Mathlib.Data.Finset.Card
import Mathlib.Logic.Function.Basic
import ByDoing.Lib.Run

/-!
This module contains the page management of `memory.c`: `mem_map` counts the users of each page, and the page
directory at address 0 and the page tables are themselves pages of memory. `copy_page_tables` lets two ranges of
addresses share their pages and takes the right to write to them away from both; a write then gets a page of its
own through `do_wp_page`. A page is given here by the number of its frame, that is its address shifted by 12.
-/

namespace OS

abbrev Word := BitVec 32

abbrev PageIndex := Fin 1024

abbrev Contents := PageIndex → Word

def LOW_MEM : Word := 0x100000
def PAGING_PAGES : Nat := 3840
def USED : BitVec 8 := 100

inductive MemError where
  | outOfMemory
  | wrongAlignment
  | alreadyExist
  | swapperMemory
  | nonexistentPage
  | freePage
  | notPresent
  | pastDirectory
  deriving Repr, DecidableEq

-- `MAP_NR` of an address.
def mapNr (address : Word) : Nat :=
  ((address - LOW_MEM) >>> 12).toNat

-- The number of the first frame from `LOW_MEM` on.
@[irreducible]
def lowFrame : Nat :=
  256

namespace Entry

def present (entry : Word) : Bool :=
  1 &&& entry != 0

def writable (entry : Word) : Bool :=
  entry &&& 2 != 0

def frame (entry : Word) : Nat :=
  ((0xfffff000 &&& entry) >>> 12).toNat

-- `page | 7`
def make (frame : Nat) : Word :=
  BitVec.ofNat 32 frame <<< 12 ||| 7

end Entry

structure Memory where
  ram : Nat → Contents
  memMap : Nat → BitVec 8
  highMemory : Nat

namespace Memory

def dirOf (address : Word) : PageIndex :=
  Fin.ofNat 1024 (address >>> 22).toNat

def entryOf (address : Word) : PageIndex :=
  Fin.ofNat 1024 (address >>> 12).toNat

def setEntry (m : Memory) (table : Nat) (i : PageIndex) (entry : Word) : Memory :=
  { m with ram := Function.update m.ram table (Function.update (m.ram table) i entry) }

def setPage (m : Memory) (frame : Nat) (contents : Contents) : Memory :=
  { m with ram := Function.update m.ram frame contents }

def setMap (m : Memory) (nr : Nat) (count : BitVec 8) : Memory :=
  { m with memMap := Function.update m.memMap nr count }

def dir (m : Memory) (d : PageIndex) : Word :=
  m.ram 0 d

def table (m : Memory) (d : PageIndex) : Nat :=
  Entry.frame (m.dir d)

-- The scan starts at the end of `mem_map`, and the page is cleared.
def getFreePage (m : Memory) : Option (Nat × Memory) :=
  match (List.range PAGING_PAGES).reverse.find? fun nr => m.memMap nr == 0 with
  | none => none
  | some nr => some (lowFrame + nr, (m.setMap nr 1).setPage (lowFrame + nr) fun _ => 0)

def freePage (m : Memory) (frame : Nat) : Except MemError Memory :=
  if frame < lowFrame then
    .ok m
  else if m.highMemory ≤ frame then
    .error .nonexistentPage
  else if m.memMap (frame - lowFrame) ≠ 0 then
    .ok (m.setMap (frame - lowFrame) (m.memMap (frame - lowFrame) - 1))
  else
    .error .freePage

def freeEntry (table : Nat) (m : Memory) (i : PageIndex) : Except MemError Memory := do
  let m ← if Entry.present (m.ram table i) then m.freePage (Entry.frame (m.ram table i)) else .ok m
  return m.setEntry table i 0

def freeTable (m : Memory) (d : PageIndex) : Except MemError Memory := do
  if !Entry.present (m.dir d) then
    return m
  let m ← (List.finRange 1024).foldlM (freeEntry (m.table d)) m
  let m ← m.freePage (m.table d)
  return m.setEntry 0 d 0

def tables (size : Word) : Nat :=
  ((size + 0x3fffff) >>> 22).toNat

def dirAt (d : Nat) : Except MemError PageIndex :=
  if h : d < 1024 then .ok ⟨d, h⟩ else .error .pastDirectory

def freePageTables (m : Memory) (from_ size : Word) : Except MemError Memory := do
  if from_ &&& 0x3fffff ≠ 0 then
    throw .wrongAlignment
  if from_ = 0 then
    throw .swapperMemory
  (List.range (tables size)).foldlM (fun m j => do m.freeTable (← dirAt ((dirOf from_).val + j))) m

def copyEntry (fromTable toTable : Nat) (m : Memory) (i : PageIndex) : Memory :=
  if Entry.present (m.ram fromTable i) then
    let thisPage := m.ram fromTable i &&& ~~~2
    let m := m.setEntry toTable i thisPage
    if LOW_MEM < thisPage then
      (m.setEntry fromTable i thisPage).setMap (mapNr thisPage) (m.memMap (mapNr thisPage) + 1)
    else
      m
  else
    m

def copyTable (nr : Nat) (m : Memory) (fromDir toDir : PageIndex) : Except MemError Memory :=
  if Entry.present (m.dir toDir) then
    .error .alreadyExist
  else if Entry.present (m.dir fromDir) then
    let fromTable := m.table fromDir
    match m.getFreePage with
    | none => .error .outOfMemory
    | some (toTable, m) =>
      let m := m.setEntry 0 toDir (Entry.make toTable)
      .ok (((List.finRange 1024).take nr).foldl (copyEntry fromTable toTable) m)
  else
    .ok m

def copyPageTables (m : Memory) (from_ to_ size : Word) : Except MemError Memory := do
  if from_ &&& 0x3fffff ≠ 0 ∨ to_ &&& 0x3fffff ≠ 0 then
    throw .wrongAlignment
  let nr := if from_ = 0 then 0xA0 else 1024
  (List.range (tables size)).foldlM
    (fun m j => do m.copyTable nr (← dirAt ((dirOf from_).val + j)) (← dirAt ((dirOf to_).val + j))) m

-- `page_table[(address>>12) & 0x3ff] = page | 7`, with a new page table if there is none.
def putPage (m : Memory) (page : Nat) (address : Word) : Except MemError Memory :=
  if Entry.present (m.dir (dirOf address)) then
    .ok (m.setEntry (m.table (dirOf address)) (entryOf address) (Entry.make page))
  else
    match m.getFreePage with
    | none => .error .outOfMemory
    | some (table, m) =>
      let m := m.setEntry 0 (dirOf address) (Entry.make table)
      .ok (m.setEntry table (entryOf address) (Entry.make page))

def unWpPage (m : Memory) (table : Nat) (i : PageIndex) : Except MemError Memory :=
  let oldPage := Entry.frame (m.ram table i)
  if lowFrame ≤ oldPage ∧ m.memMap (oldPage - lowFrame) = 1 then
    .ok (m.setEntry table i (m.ram table i ||| 2))
  else
    match m.getFreePage with
    | none => .error .outOfMemory
    | some (newPage, m) =>
      let m :=
        if lowFrame ≤ oldPage then
          m.setMap (oldPage - lowFrame) (m.memMap (oldPage - lowFrame) - 1)
        else
          m
      let m := m.setEntry table i (Entry.make newPage)
      .ok (m.setPage newPage (m.ram oldPage))

def doWpPage (m : Memory) (address : Word) : Except MemError Memory :=
  m.unWpPage (m.table (dirOf address)) (entryOf address)

def writeVerify (m : Memory) (address : Word) : Except MemError Memory :=
  if Entry.present (m.dir (dirOf address)) then
    if 3 &&& m.ram (m.table (dirOf address)) (entryOf address) = 1 then
      m.unWpPage (m.table (dirOf address)) (entryOf address)
    else
      .ok m
  else
    .ok m

-- The free pages that `calc_mem` counts.
@[irreducible]
def freePages (m : Memory) : Nat :=
  ((Finset.range PAGING_PAGES).filter fun nr => m.memMap nr = 0).card

-- `mem_init`: the pages from `startMem` up to `endMem` are free, all others are in use.
def memInit (ram : Nat → Contents) (startMem endMem : Nat) : Memory :=
  let i := (startMem - LOW_MEM.toNat) / 4096
  {
    ram
    memMap := fun nr => if i ≤ nr ∧ nr < i + (endMem - startMem) / 4096 then 0 else USED
    highMemory := endMem / 4096
  }

end Memory
end OS
