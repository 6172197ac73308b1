import ByDoing.Lib.Ring
import ByDoing.Lib.Run

namespace OS
namespace Pipe

abbrev Byte := BitVec 8

def PAGE_SIZE : Nat := 4096

-- The inode of a pipe, with its page in `i_size`, its indices in `i_zone`, and the number of its open ends.
structure Inode where
  page : Nat → Byte
  head : Nat
  tail : Nat
  iCount : Nat

namespace Inode

-- `PIPE_SIZE`.
def size (inode : Inode) : Nat :=
  (inode.head + PAGE_SIZE - inode.tail) % PAGE_SIZE

def region (inode : Inode) : List Byte :=
  Ring.window PAGE_SIZE inode.page inode.tail inode.size

end Inode

inductive Who where
  | reader
  | writer
  deriving DecidableEq

-- Where a task is: in user mode, at the head of the loop, in `sleep_on`, or in the loop that copies, with the index in
-- the page and the number of the bytes that are left.
inductive Pc where
  | user
  | loop
  | asleep
  | copy (size chars : Nat)
  deriving DecidableEq

structure Reader where
  pc : Pc
  closed : Bool
  count : Nat
  read : Nat
  result : Int

structure Writer where
  pc : Pc
  closed : Bool
  buf : List Byte
  count : Nat
  written : Nat
  sigpipe : Bool
  result : Int

structure State where
  inode : Inode
  reader : Reader
  writer : Writer
  current : Option Who
  stored : List Byte
  delivered : List Byte

inductive Act where
  | schedule (who : Who)
  -- The timer takes the processor from a task in user mode.
  | preempt
  | read (count : Nat)
  | write (buf : List Byte)
  | close
  -- The task that has the processor goes on in the kernel.
  | run
  -- The task sleeps for the page that the next byte is to be copied from or to.
  | fault
  deriving DecidableEq

def Pc.wakeUp : Pc → Pc
  | .asleep => .loop
  | pc => pc

namespace State

-- `get_pipe_inode`, whose page `get_free_page` has cleared.
def init : State :=
  {
    inode := { page := fun _ => 0, head := 0, tail := 0, iCount := 2 }
    reader := { pc := .user, closed := false, count := 0, read := 0, result := 0 }
    writer := { pc := .user, closed := false, buf := [], count := 0, written := 0, sigpipe := false, result := 0 }
    current := none
    stored := []
    delivered := []
  }

def wakeUp (s : State) : State :=
  { s with
    reader := { s.reader with pc := s.reader.pc.wakeUp }
    writer := { s.writer with pc := s.writer.pc.wakeUp } }

def pc (s : State) : Who → Pc
  | .reader => s.reader.pc
  | .writer => s.writer.pc

-- `read_pipe` up to the next byte, or to where it sleeps or returns.
def readPipe (s : State) : State :=
  match s.reader.pc with
  | .copy size (chars + 1) =>
    { s with
      reader := { s.reader with pc := .copy (size + 1) chars }
      delivered := s.delivered ++ [s.inode.page size] }
  | .copy _ 0 => { s with reader := { s.reader with pc := .loop } }
  | _ =>
    if s.reader.count = 0 then
      let s := s.wakeUp
      { s with reader := { s.reader with pc := .user, result := s.reader.read } }
    else if s.inode.size = 0 then
      let s := s.wakeUp
      if s.inode.iCount ≠ 2 then
        { s with reader := { s.reader with pc := .user, result := s.reader.read } }
      else
        { s with reader := { s.reader with pc := .asleep }, current := none }
    else
      let chars := min (min (PAGE_SIZE - s.inode.tail) s.reader.count) s.inode.size
      { s with
        reader := { s.reader with
          pc := .copy s.inode.tail chars
          count := s.reader.count - chars
          read := s.reader.read + chars }
        inode := { s.inode with tail := (s.inode.tail + chars) % PAGE_SIZE } }

-- `write_pipe` up to the next byte, or to where it sleeps or returns.
def writePipe (s : State) : State :=
  match s.writer.pc with
  | .copy size (chars + 1) =>
    match s.writer.buf with
    | [] => s
    | byte :: buf =>
      { s with
        writer := { s.writer with pc := .copy (size + 1) chars, buf }
        inode := { s.inode with page := Function.update s.inode.page size byte }
        stored := s.stored ++ [byte] }
  | .copy _ 0 => { s with writer := { s.writer with pc := .loop } }
  | _ =>
    let size := PAGE_SIZE - 1 - s.inode.size
    if s.writer.count = 0 then
      let s := s.wakeUp
      { s with writer := { s.writer with pc := .user, result := s.writer.written } }
    else if size = 0 then
      let s := s.wakeUp
      if s.inode.iCount ≠ 2 then
        { s with
          writer := { s.writer with
            pc := .user
            sigpipe := true
            result := if s.writer.written ≠ 0 then s.writer.written else -1 } }
      else
        { s with writer := { s.writer with pc := .asleep }, current := none }
    else
      let chars := min (min (PAGE_SIZE - s.inode.head) s.writer.count) size
      { s with
        writer := { s.writer with
          pc := .copy s.inode.head chars
          count := s.writer.count - chars
          written := s.writer.written + chars }
        inode := { s.inode with head := (s.inode.head + chars) % PAGE_SIZE } }

-- The part of `iput` for a pipe.
def close (s : State) : Who → Option State
  | .reader =>
    if s.reader.closed then
      none
    else
      let s := s.wakeUp
      some { s with
        reader := { s.reader with closed := true }
        inode := { s.inode with iCount := s.inode.iCount - 1 } }
  | .writer =>
    if s.writer.closed then
      none
    else
      let s := s.wakeUp
      some { s with
        writer := { s.writer with closed := true }
        inode := { s.inode with iCount := s.inode.iCount - 1 } }

def act (s : State) (who : Who) : Act → Option State
  | .preempt => if s.pc who = .user then some { s with current := none } else none
  | .read count =>
    if who = .reader ∧ s.reader.pc = .user ∧ s.reader.closed = false then
      some { s with reader := { s.reader with pc := .loop, count, read := 0 } }
    else
      none
  | .write buf =>
    if who = .writer ∧ s.writer.pc = .user ∧ s.writer.closed = false then
      some { s with writer := { s.writer with pc := .loop, buf, count := buf.length, written := 0 } }
    else
      none
  | .close => if s.pc who = .user then s.close who else none
  | .run =>
    if s.pc who = .user ∨ s.pc who = .asleep then
      none
    else
      match who with
      | .reader => some s.readPipe
      | .writer => some s.writePipe
  | .fault =>
    match s.pc who with
    | .copy _ (_ + 1) => some { s with current := none }
    | _ => none
  | .schedule _ => none

def step (s : State) (a : Act) : Option State :=
  match s.current, a with
  | none, .schedule who => if s.pc who = .asleep then none else some { s with current := some who }
  | none, _ => none
  | some who, a => s.act who a

def claimed (s : State) (p : Nat) : Prop :=
  match s.reader.pc with
  | .copy size chars => size ≤ p ∧ p < size + chars
  | _ => False

def announced (s : State) (p : Nat) : Prop :=
  match s.writer.pc with
  | .copy size chars => size ≤ p ∧ p < size + chars
  | _ => False

structure Sound (s : State) : Prop where
  region_eq : s.current = none → s.stored = s.delivered ++ s.inode.region
  store : ∀ size chars, s.current = some .writer → s.writer.pc = .copy size (chars + 1) → ¬s.claimed size
  copy : ∀ size chars, s.current = some .reader → s.reader.pc = .copy size (chars + 1) → ¬s.announced size

end State

end Pipe
end OS
