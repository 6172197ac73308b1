import ByDoing.Lib.Run
import ByDoing.OS.Tty.Terminal

/-!
This module contains the queues of a terminal over any sequence of input, of `copy_to_cooked` and `tty_write`, and of what
is taken from the write queue. An interrupt may come in between any two accesses, and `copy_to_cooked` may be called
while it is running already. It echoes into the write queue without a look at the room there.
-/

namespace OS
namespace Tty

-- Where a call of `copy_to_cooked` is: at the head of its loop, behind the test there, at the head of the loop that kills
-- a line, or at what is left of the echo and at what is done behind it.
inductive Cooking where
  | loop
  | getting
  | killing
  | doing (killing : Bool) (todo : Todo) (echo : List Byte)

namespace Cooking

def echoes : Cooking → Nat
  | .doing _ _ echo => echo.length
  | _ => 0

def stores : Cooking → Nat
  | .getting => 1
  | .doing _ (.store _) _ => 1
  | _ => 0

def erases : Cooking → Nat
  | .doing _ (.erase _) _ => 1
  | _ => 0

end Cooking

-- A terminal, the `cr_flag` of `tty_write`, how many calls of it are between their test of `FULL` and `PUTCH`, the calls
-- of `copy_to_cooked`, the innermost first, and all that has been put into the write queue and taken from it.
structure Line where
  tty : TtyStruct
  crFlag : Bool
  pending : Nat
  calls : List Cooking
  put : List Byte
  taken : List Byte

inductive LineAct where
  -- The interrupt of the device stores a character, if there is room for it.
  | input (c : Byte)
  -- `copy_to_cooked` is called, by an interrupt or by a report of the console.
  | cook
  -- The innermost call of it goes on.
  | go
  -- `tty_write` finds room in the write queue.
  | test
  -- It has got a character of its data, which may have taken a page fault, and puts it there.
  | put (c : Byte)
  -- `tty->write` or the transmitter takes a character.
  | drain
  -- `tty_read` takes a character.
  | read
  | settings (termios : Termios)

namespace Line

variable (ctype : CType)

def echoes (s : Line) : Nat :=
  (s.calls.map Cooking.echoes).sum

def stores (s : Line) : Nat :=
  (s.calls.map Cooking.stores).sum

def erases (s : Line) : Nat :=
  (s.calls.map Cooking.erases).sum

-- The call of `copy_to_cooked` turns to `todo`.
def turn (s : Line) (killing : Bool) (todo : Todo) : Line :=
  { s with calls := .doing killing todo (if todo.echoes s.tty.termios then todo.echo s.tty.termios else []) :: s.calls }

-- The innermost call goes on, and the others are `calls`.
def go (s : Line) (calls : List Cooking) : Cooking → Line
  | .loop => { s with calls := if s.tty.ready then .getting :: calls else calls }
  | .getting =>
    let (tty, todo) := s.tty.next ctype
    turn { s with tty, calls } (todo == .kill) todo
  | .killing =>
    match s.tty.erasable with
    | none => { s with calls := .loop :: calls }
    | some c => turn { s with calls } true (.erase c)
  | .doing killing todo (c :: echo) =>
    { s with tty := s.tty.putWrite c, calls := .doing killing todo echo :: calls, put := s.put ++ [c] }
  | .doing killing todo [] =>
    { s with tty := s.tty.finish todo, calls := (if killing then .killing else .loop) :: calls }

-- A task goes on when no call of `copy_to_cooked` is left, as that never sleeps.
def step (s : Line) : LineAct → Option Line
  | .input c =>
    if s.tty.readQ.FULL then some s else some { s with tty := { s.tty with readQ := s.tty.readQ.PUTCH c } }
  | .cook => some { s with calls := .loop :: s.calls }
  | .go =>
    match s.calls with
    | [] => none
    | call :: calls => some (s.go ctype calls call)
  | .test =>
    if s.calls = [] ∧ s.tty.writeQ.FULL = false then some { s with pending := s.pending + 1 } else none
  | .put c =>
    if s.calls = [] ∧ s.pending ≠ 0 then
      let out := nextOut ctype s.tty.termios s.crFlag c
      some
        { s with
          tty := s.tty.putWrite out.fst, crFlag := out.snd, pending := s.pending - 1, put := s.put ++ [out.fst] }
    else
      none
  | .drain =>
    some
      { s with
        tty := { s.tty with writeQ := s.tty.writeQ.GETCH.snd }
        taken := s.taken ++ [s.tty.writeQ.GETCH.fst] }
  | .read =>
    if s.calls = [] ∧ s.tty.secondary.EMPTY = false then
      let c := s.tty.secondary.GETCH.fst
      let q := s.tty.secondary.GETCH.snd
      let q := if c == 10 || s.tty.termios.isChar VEOF c then { q with data := q.data - 1 } else q
      some { s with tty := { s.tty with secondary := q } }
    else
      none
  | .settings termios =>
    if s.calls = [] then some { s with tty := { s.tty with termios } } else none

-- `tty_table` has empty queues.
def init (termios : Termios) (buf : Nat → Byte) : Line :=
  let q : TtyQueue := { data := 0, head := 0, tail := 0, buf }
  {
    tty := { termios, stopped := false, readQ := q, writeQ := q, secondary := q, intr := [], overrun := false }
    crFlag := false
    pending := 0
    calls := []
    put := []
    taken := []
  }

structure Kept (s : Line) : Prop where
  overrun : s.tty.overrun = false
  writeQ : s.put = s.taken ++ s.tty.writeQ.contents

-- There is room for the echo of `todo` next to the characters that have found room before, and a character to erase.
structure Fits (s : Line) (todo : Todo) : Prop where
  echo : todo.echoes s.tty.termios = true →
    (todo.echo s.tty.termios).length + (s.echoes + s.pending) ≤ s.tty.writeQ.LEFT
  erase : ∀ c, todo = .erase c → s.erases < s.tty.secondary.CHARS

def Roomy (s : Line) : LineAct → Prop
  | .go =>
    match s.calls with
    | .loop :: calls => s.tty.ready = true → stores { s with calls } < s.tty.secondary.LEFT
    | .getting :: calls => Fits { s with tty := (s.tty.next ctype).fst, calls } (s.tty.next ctype).snd
    | .killing :: calls => ∀ c, s.tty.erasable = some c → Fits { s with calls } (.erase c)
    | _ => True
  | .test => s.pending < s.tty.writeQ.LEFT
  | .drain => s.tty.writeQ.EMPTY = false
  | _ => True

end Line
end Tty
end OS
