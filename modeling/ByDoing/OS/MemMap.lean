import ByDoing.OS.Paging
import ByDoing.OS.UserMemory

/-!
This module contains all the ways in which `memory.c` hands out, shares and takes back pages, with the references
that `get_free_page` has handed out and that are in no page table yet. A function that runs out of memory leaves
what it has done so far, and the calls of `panic` end a run.
-/

namespace OS

namespace Memory

-- The loop of `copy_page_tables` up to its end or to the first directory entry that it fails at.
def copyTables (nr : Nat) (from_ to_ : Word) : List Nat → Memory → Memory × Option MemError
  | [], m => (m, none)
  | j :: js, m =>
    match dirAt ((dirOf from_).val + j), dirAt ((dirOf to_).val + j) with
    | .ok fromDir, .ok toDir =>
      match m.copyTable nr fromDir toDir with
      | .ok m => copyTables nr from_ to_ js m
      | .error e => (m, some e)
    | _, _ => (m, some .pastDirectory)

-- `copy_page_tables` with the page tables that it leaves when it fails.
def copyPageTablesPart (m : Memory) (from_ to_ size : Word) : Memory × Option MemError :=
  if from_ &&& 0x3fffff ≠ 0 ∨ to_ &&& 0x3fffff ≠ 0 then
    (m, some .wrongAlignment)
  else
    copyTables (if from_ = 0 then 0xA0 else 1024) from_ to_ (List.range (tables size)) m

-- The end of `try_to_share`, with the page table that the page is to be entered in.
def shareEntry (m : Memory) (fromTable toTable : Nat) (i : PageIndex) : Except MemError (Bool × Memory) :=
  if Entry.present (m.ram toTable i) then
    .error .alreadyExist
  else
    let entry := m.ram fromTable i &&& ~~~2
    let nr := Entry.frame entry - lowFrame
    let m := (m.setEntry fromTable i entry).setEntry toTable i entry
    .ok (true, m.setMap nr (m.memMap nr + 1))

-- `try_to_share`, where `address` is relative to the ranges of the tasks that start at `p` and `current`.
def tryToShare (m : Memory) (address p current : Word) : Except MemError (Bool × Memory) := do
  let fromDir ← dirAt ((dirOf address).val + (dirOf p).val)
  let toDir ← dirAt ((dirOf address).val + (dirOf current).val)
  if !Entry.present (m.dir fromDir) then
    return (false, m)
  let fromTable := m.table fromDir
  let entry := m.ram fromTable (entryOf address)
  if entry &&& 0x41 ≠ 0x01 then
    return (false, m)
  if m.highMemory ≤ Entry.frame entry ∨ Entry.frame entry < lowFrame then
    return (false, m)
  if Entry.present (m.dir toDir) then
    m.shareEntry fromTable (m.table toDir) (entryOf address)
  else
    match m.getFreePage with
    | none => .error .outOfMemory
    | some (toTable, m) =>
      (m.setEntry 0 toDir (Entry.make toTable)).shareEntry fromTable toTable (entryOf address)

theorem foldlM_eq_copyTables (nr : Nat) (from_ to_ : Word) (js : List Nat) (m : Memory)
    : js.foldlM
        (fun m j => do m.copyTable nr (← dirAt ((dirOf from_).val + j)) (← dirAt ((dirOf to_).val + j))) m
        = match copyTables nr from_ to_ js m with
          | (m, none) => .ok m
          | (_, some e) => .error e := by
  have herror : ∀ d e, dirAt d = .error e → e = .pastDirectory := by
    intro d e h
    unfold dirAt at h
    split at h
    . cases h
    . exact (Except.error.inj h).symm
  induction js generalizing m with
  | nil => rfl
  | cons j js ih =>
    rw [List.foldlM_cons]
    unfold copyTables
    cases hfrom : dirAt ((dirOf from_).val + j) with
    | error e =>
      rw [herror _ _ hfrom]
      rfl
    | ok fromDir =>
      cases hto : dirAt ((dirOf to_).val + j) with
      | error e =>
        rw [herror _ _ hto]
        rfl
      | ok toDir =>
        dsimp only
        show (m.copyTable nr fromDir toDir >>= _) = _
        cases m.copyTable nr fromDir toDir with
        | error e => rfl
        | ok m' => exact ih m'

theorem copyPageTables_eq_part (m : Memory) (from_ to_ size : Word)
    : m.copyPageTables from_ to_ size
        = match m.copyPageTablesPart from_ to_ size with
          | (m, none) => .ok m
          | (_, some e) => .error e := by
  unfold copyPageTables copyPageTablesPart
  by_cases haligned : from_ &&& 0x3fffff ≠ 0 ∨ to_ &&& 0x3fffff ≠ 0
  . simp only [haligned, if_true]
    rfl
  . simp only [haligned, if_false]
    exact foldlM_eq_copyTables _ from_ to_ _ m

end Memory

-- The memory after `setup_paging`, which maps the first 16 MB to themselves.
structure KernelBoot extends Boot where
  pgDir : ∀ d : PageIndex, d.val < 4 → ram 0 d = Entry.make (d.val + 1)
  identity : ∀ d i : PageIndex, d.val < 4 → ram (d.val + 1) i = Entry.make (1024 * d.val + i.val)

abbrev DataAddress := { address : Word // address < TASK_SIZE }

inductive MapAct where
  | getFreePage
  | freePage (page : Nat)
  | putPage (page : Nat) (address : UserAddress)
  -- The fork of task 0, which has 640 kB.
  | copyFirst (to_ : UserSlot)
  | copy (from_ to_ : UserSlot) (size : RangeSize)
  | unWpPage (address : UserAddress)
  | tryToShare (address : DataAddress) (p current : UserSlot)
  | freePageTables (nr : UserSlot) (size : RangeSize)
  -- The processor notes in the entry that its page has been accessed and written.
  | mark (address : UserAddress)
  -- A task or the kernel writes to a page that is no page table.
  | store (page : Nat) (contents : Contents)

structure PageRun where
  memory : Memory
  held : List Nat

namespace PageRun

def init (b : KernelBoot) : PageRun :=
  {
    memory := b.toBoot.memory
    held := []
  }

-- What the callers see to: they give back only what they hold, `put_page` is for addresses without a page, and
-- `un_wp_page` for pages that are there.
def Allowed (s : PageRun) : MapAct → Prop
  | .freePage page => page ∈ s.held
  | .putPage page address => page ∈ s.held ∧ s.memory.translate address.val = none
  | .unWpPage address => (s.memory.translate address.val).isSome
  | .tryToShare _ p current => p ≠ current
  | .mark address => (s.memory.translate address.val).isSome
  | .store page _ => lowFrame ≤ page ∧ ∀ d, s.memory.userTable d ≠ some page
  | _ => True

def getFreePage (s : PageRun) : PageRun :=
  match s.memory.getFreePage with
  | none => s
  | some (page, m) => { memory := m, held := page :: s.held }

-- `put_page` returns 0 and leaves the page to its caller if there is no page for the page table.
def putPage (s : PageRun) (page : Nat) (address : Word) : PageRun :=
  match s.memory.putPage page address with
  | .ok m => { memory := m, held := s.held.erase page }
  | .error _ => s

-- The outcome of `copy_page_tables`, which returns -1 if there is no page left and stops the kernel otherwise.
def copied (s : PageRun) (r : Memory × Option MemError) : Except MemError PageRun :=
  match r with
  | (m, none) => .ok { s with memory := m }
  | (m, some .outOfMemory) => .ok { s with memory := m }
  | (_, some e) => .error e

def unWpPage (s : PageRun) (address : Word) : PageRun :=
  match s.memory.doWpPage address with
  | .ok m => { s with memory := m }
  | .error _ => s

def tryToShare (s : PageRun) (address p current : Word) : Except MemError PageRun :=
  match s.memory.tryToShare address p current with
  | .ok (_, m) => .ok { s with memory := m }
  | .error .outOfMemory => .ok s
  | .error e => .error e

def mark (s : PageRun) (address : Word) : PageRun :=
  let table := s.memory.table (Memory.dirOf address)
  let i := Memory.entryOf address
  { s with memory := s.memory.setEntry table i (s.memory.ram table i ||| 0x60) }

def step (s : PageRun) : MapAct → Except MemError PageRun
  | .getFreePage => .ok s.getFreePage
  | .freePage page => do
    let m ← s.memory.freePage page
    return { memory := m, held := s.held.erase page }
  | .putPage page address => .ok (s.putPage page address.val)
  | .copyFirst to_ => s.copied (s.memory.copyPageTablesPart 0 to_.base 0xa0000)
  | .copy from_ to_ size => s.copied (s.memory.copyPageTablesPart from_.base to_.base size.val)
  | .unWpPage address => .ok (s.unWpPage address.val)
  | .tryToShare address p current => s.tryToShare address.val p.base current.base
  | .freePageTables nr size => do
    let m ← s.memory.freePageTables nr.base size.val
    return { s with memory := m }
  | .mark address => .ok (s.mark address.val)
  | .store page contents => .ok { s with memory := s.memory.setPage page contents }

end PageRun

namespace Memory

def entryRefs (m : Memory) (f : Nat) : Nat :=
  (Finset.univ.filter fun k : PageIndex × PageIndex => (m.lookup k).bind Entry.target = some f).card

def tableRefs (m : Memory) (f : Nat) : Nat :=
  (Finset.univ.filter fun d : PageIndex => m.userTable d = some f).card

-- The same counts with the page tables of the kernel, which `setup_paging` has filled.
def allEntryRefs (m : Memory) (f : Nat) : Nat :=
  (Finset.univ.filter fun k : PageIndex × PageIndex =>
    Entry.present (m.dir k.fst) = true ∧ Entry.target (m.ram (m.table k.fst) k.snd) = some f).card

def allTableRefs (m : Memory) (f : Nat) : Nat :=
  (Finset.univ.filter fun d : PageIndex => Entry.target (m.dir d) = some f).card

end Memory

end OS
