import ByDoing.Lib.Run
import ByDoing.Lib.WriteBack

/-!
This module contains `block_write` and `block_read` of `block_dev.c` over the buffer cache and the requests to the disk.
One task makes the calls, one after the other. While it waits nobody else takes a buffer, but the disk may end
requests whenever the kernel looks at a buffer, in any order and without errors. `NR_BUFFERS` is `n`.
-/

namespace OS
namespace BlockDev

abbrev Byte := BitVec 8

def BLOCK_SIZE : Nat := 1024
def NR_REQUEST : Nat := 32

abbrev Block := Fin BLOCK_SIZE → Byte

abbrev Key := Nat × Nat

inductive Rw where
  | READ
  | WRITE
  deriving DecidableEq

structure Buffer where
  dev : Nat
  blocknr : Nat
  uptodate : Bool
  dirt : Bool
  lock : Bool
  count : Nat
  data : Block

abbrev ReqNr := Fin NR_REQUEST

-- The buffers, the free list from `free_list` on, the table of requests, in which an entry with `dev < 0` is `none`,
-- and the blocks on the disks. `irq` says which requests end, each time that the kernel looks.
structure Cache (n : Nat) where
  buf : Fin n → Buffer
  free : List (Fin n)
  request : ReqNr → Option (Rw × Fin n)
  disk : Key → Block
  irq : List (List ReqNr)

namespace Cache

variable {n : Nat}

def setBuf (s : Cache n) (b : Fin n) (h : Buffer) : Cache n :=
  { s with buf := Function.update s.buf b h }

def key (s : Cache n) (b : Fin n) : Key :=
  ((s.buf b).dev, (s.buf b).blocknr)

-- The disk has moved the block, and `end_request` is called with `uptodate` 1.
def endRequest (s : Cache n) (i : ReqNr) : Cache n :=
  match s.request i with
  | none => s
  | some (.READ, b) =>
    { s with
      buf := Function.update s.buf b { s.buf b with data := s.disk (s.key b), uptodate := true, lock := false }
      request := Function.update s.request i none }
  | some (.WRITE, b) =>
    { s with
      buf := Function.update s.buf b { s.buf b with uptodate := true, lock := false }
      disk := Function.update s.disk (s.key b) (s.buf b).data
      request := Function.update s.request i none }

def interrupts (s : Cache n) : Cache n :=
  match s.irq with
  | [] => s
  | is :: irq => is.foldl endRequest { s with irq := irq }

def requestOf (s : Cache n) (b : Fin n) : Option ReqNr :=
  (List.finRange NR_REQUEST).find? fun i => (s.request i).any fun r => r.snd == b

def waitOnBuffer (s : Cache n) (b : Fin n) : Cache n :=
  let s := s.interrupts
  if (s.buf b).lock then
    match s.requestOf b with
    | some i => s.endRequest i
    | none => s
  else
    s

def setLock (s : Cache n) (b : Fin n) (lock : Bool) : Cache n :=
  s.setBuf b { s.buf b with lock := lock }

def freeRequest (s : Cache n) (rw : Rw) : Option ReqNr :=
  let limit := if rw = .READ then NR_REQUEST else NR_REQUEST * 2 / 3
  (List.finRange NR_REQUEST).reverse.find? fun i => i.val < limit && (s.request i).isNone

def addRequest (s : Cache n) (i : ReqNr) (rw : Rw) (b : Fin n) : Cache n :=
  { s.setBuf b { s.buf b with dirt := false } with request := Function.update s.request i (some (rw, b)) }

namespace makeRequest

-- The task sleeps on `wait_for_request` until there is a free entry for it.
def waitForRequest (s : Cache n) (rw : Rw) : Cache n :=
  let s := s.interrupts
  if (s.freeRequest rw).isSome then s else s.endRequest ⟨0, by decide⟩

-- From `repeat` on.
def enqueue (s : Cache n) (rw : Rw) (ahead : Bool) (b : Fin n) : Cache n :=
  match s.freeRequest rw with
  | some i => s.addRequest i rw b
  | none =>
    if ahead then
      s.setLock b false
    else
      let s := waitForRequest s rw
      match s.freeRequest rw with
      | some i => s.addRequest i rw b
      | none => s

end makeRequest

def makeRequest (s : Cache n) (rw : Rw) (ahead : Bool) (b : Fin n) : Cache n :=
  if ahead = true ∧ (s.buf b).lock = true then
    s
  else
    let s := (s.waitOnBuffer b).setLock b true
    if rw = .WRITE ∧ (s.buf b).dirt = false ∨ rw = .READ ∧ (s.buf b).uptodate = true then
      s.setLock b false
    else
      makeRequest.enqueue s rw ahead b

-- One turn of a loop of `sync_dev`.
def syncBuffer (s : Cache n) (dev : Nat) (b : Fin n) : Cache n :=
  if (s.buf b).dev ≠ dev then
    s
  else
    let s := s.waitOnBuffer b
    if (s.buf b).dev = dev ∧ (s.buf b).dirt = true then s.makeRequest .WRITE false b else s

def syncBuffers (s : Cache n) (dev : Nat) : Cache n :=
  (List.finRange n).foldl (fun s b => s.syncBuffer dev b) s

-- No inode in memory is dirty, so `sync_inodes` between the two loops does nothing.
def syncDev (s : Cache n) (dev : Nat) : Cache n :=
  (s.syncBuffers dev).syncBuffers dev

def findBuffer (s : Cache n) (dev block : Nat) : Option (Fin n) :=
  (List.finRange n).find? fun b => (s.buf b).dev == dev && (s.buf b).blocknr == block

-- `BADNESS`.
def badness (h : Buffer) : Nat :=
  h.dirt.toNat * 2 + h.lock.toNat

def pick (s : Cache n) : List (Fin n) → Option (Fin n) → Option (Fin n)
  | [], bh => bh
  | tmp :: list, bh =>
    if (s.buf tmp).count ≠ 0 then
      pick s list bh
    else if bh.all fun b => badness (s.buf tmp) < badness (s.buf b) then
      if badness (s.buf tmp) = 0 then some tmp else pick s list (some tmp)
    else
      pick s list bh

-- The loop over `b_dirt` in `getblk`: `none` is a loop that goes on.
def clean (s : Cache n) (b : Fin n) : Option (Cache n) :=
  let s := s.waitOnBuffer b
  if (s.buf b).dirt then
    let s := (s.syncDev (s.buf b).dev).waitOnBuffer b
    if (s.buf b).dirt then none else some s
  else
    some s

-- The end of `getblk`, which puts the buffer at the end of the free list.
def take (s : Cache n) (b : Fin n) (dev block : Nat) : Cache n :=
  { s.setBuf b { s.buf b with count := 1, dirt := false, uptodate := false, dev := dev, blocknr := block } with
    free := s.free.erase b ++ [b] }

-- `none` is a task that sleeps for a buffer.
def getblk (s : Cache n) (dev block : Nat) : Option (Fin n × Cache n) :=
  let s := s.interrupts
  match s.findBuffer dev block with
  | some b => some (b, (s.setBuf b { s.buf b with count := (s.buf b).count + 1 }).waitOnBuffer b)
  | none =>
    match s.pick s.free none with
    | none => none
    | some b => (s.clean b).map fun s => (b, s.take b dev block)

def brelse (s : Cache n) (b : Fin n) : Option (Cache n) :=
  let s := s.waitOnBuffer b
  if (s.buf b).count = 0 then none else some (s.setBuf b { s.buf b with count := (s.buf b).count - 1 })

namespace breada

-- The blocks that are marked for reading. The code gives `bh` to `ll_rw_block` and not `tmp`.
def ahead (s : Cache n) (bh : Fin n) (dev : Nat) : List Nat → Option (Cache n)
  | [] => some s
  | first :: rest =>
    match s.getblk dev first with
    | none => none
    | some (tmp, s) =>
      let s := if (s.buf tmp).uptodate then s else s.makeRequest .READ true bh
      ahead (s.setBuf tmp { s.buf tmp with count := (s.buf tmp).count - 1 }) bh dev rest

end breada

-- The buffer, or `none` for NULL.
def breada (s : Cache n) (dev first : Nat) (rest : List Nat) : Option (Option (Fin n) × Cache n) :=
  match s.getblk dev first with
  | none => none
  | some (bh, s) =>
    let s := if (s.buf bh).uptodate then s else s.makeRequest .READ false bh
    match breada.ahead s bh dev rest with
    | none => none
    | some s =>
      let s := s.waitOnBuffer bh
      if (s.buf bh).uptodate then some (some bh, s) else (s.brelse bh).map fun s => (none, s)

end Cache

def EIO : Int := 5

-- `bytes` over what is there from `offset` on.
def copyIn (data : Block) (offset : Nat) (bytes : List Byte) : Block :=
  fun i => if offset ≤ i.val then bytes[i.val - offset]?.getD (data i) else data i

def copyOut (data : Block) (offset chars : Nat) : List Byte :=
  ((List.ofFn data).drop offset).take chars

-- Where a call is: the bytes that `block_write` has to write with the number of those it has written, and the number of
-- the bytes that `block_read` has to read with those it has read. `count` is the argument.
inductive Call where
  | idle
  | write (dev block offset count : Nat) (buf : List Byte) (written : Nat)
  | wrote (count : Nat) (result : Int)
  | read (dev pos count block offset rest : Nat) (buf : List Byte)
  | returned (dev pos count : Nat) (buf : List Byte) (result : Int)

def Call.running : Call → Bool
  | .write .. => true
  | .read .. => true
  | _ => false

-- `written` gives for every position of a device the byte most recently written there, or the one it had at first.
structure State (n : Nat) where
  cache : Cache n
  call : Call
  written : Nat → Nat → Byte

inductive Op where
  | blockWrite (dev pos : Nat) (buf : List Byte)
  | blockRead (dev pos count : Nat)
  | syncDev (dev : Nat)
  -- Somebody gets a block and releases it.
  | getblk (dev block : Nat)
  -- The loop of the call goes on.
  | loop
  deriving DecidableEq

structure Act where
  irq : List (List ReqNr)
  op : Op

namespace State

variable {n : Nat}

-- `buffer_init`, with all buffers in the free list.
def init (n : Nat) (disk : Key → Block) : State n :=
  {
    cache :=
      {
        buf := fun _ =>
          { dev := 0, blocknr := 0, uptodate := false, dirt := false, lock := false, count := 0, data := fun _ => 0 }
        free := List.finRange n
        request := fun _ => none
        disk := disk
        irq := []
      }
    call := .idle
    written := fun dev pos => disk (dev, pos / BLOCK_SIZE) ⟨pos % BLOCK_SIZE, Nat.mod_lt _ (by decide)⟩
  }

def store (m : Nat → Nat → Byte) (dev pos : Nat) (bytes : List Byte) : Nat → Nat → Byte :=
  Function.update m dev fun p => if pos ≤ p then bytes[p - pos]?.getD (m dev p) else m dev p

namespace blockWrite

def chars (offset count : Nat) : Nat :=
  min (BLOCK_SIZE - offset) count

def buffer (s : Cache n) (dev block chars : Nat) : Option (Option (Fin n) × Cache n) :=
  if chars = BLOCK_SIZE then
    (s.getblk dev block).map fun r => (some r.fst, r.snd)
  else
    s.breada dev block [block + 1, block + 2]

def loop (s : State n) (dev block offset count : Nat) (buf : List Byte) (written : Nat) : Option (State n) :=
  if buf = [] then
    some { s with call := .wrote count written }
  else
    let chars := chars offset buf.length
    match buffer s.cache dev block chars with
    | none => none
    | some (none, c) => some { s with cache := c, call := .wrote count (if written ≠ 0 then written else - EIO) }
    | some (some bh, c) =>
      let c := c.setBuf bh { c.buf bh with data := copyIn (c.buf bh).data offset (buf.take chars), dirt := true }
      (c.brelse bh).map fun c =>
        {
          cache := c
          call := .write dev (block + 1) 0 count (buf.drop chars) (written + chars)
          written := store s.written dev (BLOCK_SIZE * block + offset) (buf.take chars)
        }

end blockWrite

namespace blockRead

def loop (s : State n) (dev pos count block offset rest : Nat) (buf : List Byte) : Option (State n) :=
  if rest = 0 then
    some { s with call := .returned dev pos count buf buf.length }
  else
    let chars := blockWrite.chars offset rest
    match s.cache.breada dev block [block + 1, block + 2] with
    | none => none
    | some (none, c) =>
      let result : Int := if buf.length ≠ 0 then buf.length else - EIO
      some { s with cache := c, call := .returned dev pos count buf result }
    | some (some bh, c) =>
      (c.brelse bh).map fun c' =>
        { s with
          cache := c'
          call := .read dev pos count (block + 1) 0 (rest - chars) (buf ++ copyOut (c.buf bh).data offset chars) }

end blockRead

def loop (s : State n) : Option (State n) :=
  match s.call with
  | .write dev block offset count buf written => blockWrite.loop s dev block offset count buf written
  | .read dev pos count block offset rest buf => blockRead.loop s dev pos count block offset rest buf
  | _ => none

def begins (s : State n) : Op → Option (State n)
  | .blockWrite dev pos buf =>
    if dev = 0 then
      none
    else
      some { s with call := .write dev (pos / BLOCK_SIZE) (pos % BLOCK_SIZE) buf.length buf 0 }
  | .blockRead dev pos count =>
    if dev = 0 then
      none
    else
      some { s with call := .read dev pos count (pos / BLOCK_SIZE) (pos % BLOCK_SIZE) count [] }
  | .syncDev dev => some { s with cache := s.cache.syncDev dev }
  | .getblk dev block =>
    if dev = 0 then
      none
    else
      ((s.cache.getblk dev block).bind fun r => r.snd.brelse r.fst).map fun c => { s with cache := c }
  | .loop => none

def step (s : State n) (a : Act) : Option (State n) :=
  let s := { s with cache := { s.cache with irq := a.irq } }
  if s.call.running then
    if a.op = .loop then s.loop else none
  else
    s.begins a.op

end State
end BlockDev
end OS
