import ByDoing.Lib.Threaded
import ByDoing.OS.PageOps
import ByDoing.OS.UserMemory

/-!
This module contains `malloc` and `free_s` of the kernel. Each bucket is a page of objects of one size with a
descriptor, the objects that are free form a list that is threaded through them, and the descriptors are on the chain
of their size or on a list of free ones.
-/

namespace OS

namespace Memory

def wordIndex (address : Nat) : PageIndex :=
  ⟨address % 4096 / 4, by omega⟩

def load (m : Memory) (address : Nat) : Nat :=
  (m.ram (address / 4096) (wordIndex address)).toNat

def store (m : Memory) (address value : Nat) : Memory :=
  m.setEntry (address / 4096) (wordIndex address) (BitVec.ofNat 32 value)

end Memory

namespace Malloc

structure BucketDesc where
  page : Nat
  next : Nat
  freeptr : Nat
  refcnt : Nat
  bucketSize : Nat

-- The sizes in `bucket_dir`.
def bucketDir : List Nat :=
  [16, 32, 64, 128, 256, 512, 1024, 2048, 4096]

inductive Error where
  -- "malloc: bad arg"
  | badArg
  -- "Out of memory in init_bucket_desc()" and "Out of memory in kernel malloc()"
  | outOfMemory
  -- "Bad address passed to kernel free_s()"
  | badAddress
  -- "malloc bucket chains corrupted"
  | chainsCorrupted
  | freePage (e : MemError)
  -- A list without an end.
  | endless

-- The descriptors are given by their addresses. `descPages` notes the pages that they are in.
structure Heap where
  memory : Memory
  desc : Nat → BucketDesc
  chain : Nat → Nat
  freeBucketDesc : Nat
  descPages : List Nat

def MAX_DESC : Nat := 0x100000

-- `init_bucket_desc` from the descriptor `bdesc` on, with `n` more of them, in a page that is cleared.
def linkDescs (desc : Nat → BucketDesc) (free bdesc : Nat) : Nat → Nat → BucketDesc
  | 0 => Function.update desc bdesc { page := 0, next := free, freeptr := 0, refcnt := 0, bucketSize := 0 }
  | n + 1 =>
    let first : BucketDesc := { page := 0, next := bdesc + 16, freeptr := 0, refcnt := 0, bucketSize := 0 }
    linkDescs (Function.update desc bdesc first) free (bdesc + 16) n

-- The chain of free objects from `cp` on, with `n` more of them.
def linkObjects (m : Memory) (size cp : Nat) : Nat → Memory
  | 0 => m.store cp 0
  | n + 1 => linkObjects (m.store cp (cp + size)) size (cp + size) n

namespace Heap

def next (h : Heap) (d : Nat) : Nat :=
  (h.desc d).next

def setDesc (h : Heap) (d : Nat) (bdesc : BucketDesc) : Heap :=
  { h with desc := Function.update h.desc d bdesc }

def initBucketDesc (h : Heap) : Except Error Heap :=
  match h.memory.getFreePage with
  | none => .error .outOfMemory
  | some (frame, memory) =>
    .ok { h with
      memory
      desc := linkDescs h.desc h.freeBucketDesc (4096 * frame) (4096 / 16 - 1)
      freeBucketDesc := 4096 * frame
      descPages := frame :: h.descPages }

def needDesc (h : Heap) : Except Error Heap :=
  if h.freeBucketDesc = 0 then h.initBucketDesc else .ok h

-- The part of `malloc` for a size that has no bucket with free space.
def newBucket (h : Heap) (size : Nat) : Except Error (Nat × Heap) := do
  let h ← h.needDesc
  let bdesc := h.freeBucketDesc
  let next := h.next bdesc
  match h.memory.getFreePage with
  | none => .error .outOfMemory
  | some (frame, memory) =>
    let cp := 4096 * frame
    let memory := linkObjects memory size cp (4096 / size - 1)
    let entry : BucketDesc := { page := cp, next := h.chain size, freeptr := cp, refcnt := 0, bucketSize := size }
    return (bdesc, { h.setDesc bdesc entry with
      memory
      freeBucketDesc := next
      chain := Function.update h.chain size bdesc })

-- The end of `malloc`.
def take (h : Heap) (d : Nat) : Nat × Heap :=
  let bdesc := h.desc d
  let retval := bdesc.freeptr
  (retval, h.setDesc d
    { bdesc with freeptr := h.memory.load retval, refcnt := (bdesc.refcnt + 1) % 0x10000 })

def needBucket (h : Heap) (size bdesc : Nat) : Except Error (Nat × Heap) :=
  if bdesc = 0 then h.newBucket size else .ok (bdesc, h)

def malloc (h : Heap) (len : Nat) : Except Error (Nat × Heap) :=
  match bucketDir.find? fun size => len ≤ size with
  | none => .error .badArg
  | some size =>
    match Threaded.search h.next (fun d => (h.desc d).freeptr != 0) MAX_DESC 0 (h.chain size) with
    | none => .error .endless
    | some (_, bdesc) => do
      let (bdesc, h) ← h.needBucket size bdesc
      return h.take bdesc

def findBucket (h : Heap) (page size : Nat) : List Nat → Except Error (Nat × Nat × Nat)
  | [] => .error .badAddress
  | bdir :: rest =>
    if bdir < size then
      h.findBucket page size rest
    else
      match Threaded.search h.next (fun d => (h.desc d).page == page) MAX_DESC 0 (h.chain bdir) with
      | none => .error .endless
      | some (prev, bdesc) => if bdesc = 0 then h.findBucket page size rest else .ok (bdir, prev, bdesc)

def findPrev (h : Heap) (bdir prev bdesc : Nat) : Except Error Nat :=
  if prev ≠ 0 ∧ h.next prev ≠ bdesc ∨ prev = 0 ∧ h.chain bdir ≠ bdesc then
    match Threaded.search h.next (fun d => h.next d == bdesc) MAX_DESC 0 (h.chain bdir) with
    | none => .error .endless
    | some (_, prev) => .ok prev
  else
    .ok prev

def unlink (h : Heap) (bdir prev d : Nat) : Except Error Heap :=
  if prev ≠ 0 then
    .ok (h.setDesc prev { h.desc prev with next := h.next d })
  else if h.chain bdir ≠ d then
    .error .chainsCorrupted
  else
    .ok { h with chain := Function.update h.chain bdir (h.next d) }

-- The part of `free_s` that gives the page of a bucket back.
def release (h : Heap) (bdir prev d : Nat) : Except Error Heap := do
  let prev ← h.findPrev bdir prev d
  let h ← h.unlink bdir prev d
  match h.memory.freePage ((h.desc d).page / 4096) with
  | .error e => .error (.freePage e)
  | .ok memory =>
    return { h.setDesc d { h.desc d with next := h.freeBucketDesc } with memory, freeBucketDesc := d }

def freeS (h : Heap) (obj size : Nat) : Except Error Heap := do
  let page := obj - obj % 4096
  let (bdir, prev, d) ← h.findBucket page size bucketDir
  let bdesc := h.desc d
  let h : Heap := { h with memory := h.memory.store obj bdesc.freeptr }
  let h := h.setDesc d { bdesc with freeptr := obj, refcnt := (bdesc.refcnt + 0xffff) % 0x10000 }
  if (h.desc d).refcnt = 0 then
    h.release bdir prev d
  else
    return h

end Heap

structure Obj where
  address : Nat
  len : Nat
  deriving DecidableEq

inductive Act where
  | malloc (len : Nat)
  | free (obj : Obj) (size : Nat)
  -- The rest of the kernel writes to its objects and uses other pages.
  | others (memory : Memory)

structure State where
  heap : Heap
  live : List Obj

namespace State

def init (b : Boot) : State :=
  {
    heap := {
      memory := b.memory
      desc := fun _ => { page := 0, next := 0, freeptr := 0, refcnt := 0, bucketSize := 0 }
      chain := fun _ => 0
      freeBucketDesc := 0
      descPages := []
    }
    live := []
  }

def Held (s : State) (f : Nat) : Prop :=
  f ∈ s.heap.descPages ∨ ∃ o ∈ s.live, o.address / 4096 = f

structure Keeps (s : State) (m : Memory) : Prop where
  highMemory_eq : m.highMemory = s.heap.memory.highMemory
  free : ∀ nr, nr < PAGING_PAGES → m.memMap nr = 0 → lowFrame + nr < m.highMemory
  memMap_eq : ∀ f, s.Held f → m.memMap (f - lowFrame) = s.heap.memory.memMap (f - lowFrame)
  load_eq : ∀ address, address % 4 = 0 → s.Held (address / 4096)
    → (∀ o ∈ s.live, ¬(o.address ≤ address ∧ address < o.address + o.len)) → m.load address = s.heap.memory.load address

def Allowed (s : State) : Act → Prop
  | .malloc len => len ≤ 4096
  | .free obj size => obj ∈ s.live ∧ (size = 0 ∨ size = obj.len)
  | .others memory => s.Keeps memory

def step (s : State) : Act → Except Error State
  | .malloc len => do
    let (address, heap) ← s.heap.malloc len
    return { heap, live := { address, len } :: s.live }
  | .free obj size => do
    let heap ← s.heap.freeS obj.address size
    return { heap, live := s.live.erase obj }
  | .others memory => .ok { s with heap := { s.heap with memory } }

end State

end Malloc
end OS
