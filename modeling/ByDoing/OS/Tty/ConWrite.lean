import ByDoing.OS.Console
import ByDoing.OS.Tty.CookedRun

/-!
This module contains `con_write` as it takes the characters of the write queue, with the answer to `ESC Z`, which goes
into the read queue and is cooked at once: if it is echoed, `copy_to_cooked` calls `con_write` again, in the middle of
its loop.
-/

namespace OS
namespace Tty

structure ConsoleTty where
  console : Console
  tty : TtyStruct
  put : List Byte
  taken : List Byte

-- A character is taken from an empty queue, or the calls and loops do not come to an end within the `fuel` for them.
inductive ConStop where
  | empty
  | fuel
  deriving DecidableEq

-- What `tty->write` may be.
abbrev WriteRoutine := ConsoleTty → Except ConStop ConsoleTty

namespace TtyStruct

-- What `respond` puts into the read queue.
def answer (tty : TtyStruct) : TtyStruct :=
  { tty with readQ := Console.RESPONSE.foldl (fun q c => q.PUTCH c) tty.readQ }

end TtyStruct

namespace ConsoleTty

section Cook

variable (ctype : CType) (write : WriteRoutine)

-- The echo of a character, `tty->write`, and what is done behind it.
def perform (s : ConsoleTty) (todo : Todo) : Except ConStop ConsoleTty :=
  let t := s.tty.termios
  if todo.echoes t then do
    let s ← write { s with tty := s.tty.putEcho todo, put := s.put ++ todo.echo t }
    return { s with tty := s.tty.finish todo }
  else
    return { s with tty := s.tty.finish todo }

def killLine : Nat → ConsoleTty → Except ConStop ConsoleTty
  | 0, _ => .error .fuel
  | fuel + 1, s =>
    match s.tty.erasable with
    | none => .ok s
    | some c => do
      let s ← s.perform write (.erase c)
      killLine fuel s

-- What `copy_to_cooked` does for a character that has been taken from the read queue.
def act (fuel : Nat) (s : ConsoleTty) (todo : Todo) : Except ConStop ConsoleTty :=
  if todo = Todo.kill then killLine write fuel s else s.perform write todo

-- The loop of `copy_to_cooked`.
def cook : Nat → ConsoleTty → Except ConStop ConsoleTty
  | 0, _ => .error .fuel
  | fuel + 1, s =>
    if s.tty.ready then do
      let s ← act write fuel { s with tty := (s.tty.next ctype).fst } (s.tty.next ctype).snd
      cook fuel s
    else
      .ok s

def respond (fuel : Nat) (s : ConsoleTty) : Except ConStop ConsoleTty :=
  cook ctype write fuel { s with tty := s.tty.answer }

end Cook

-- Whether the next character is the end of an `ESC Z`.
def asks (s : ConsoleTty) : Bool :=
  s.console.state == .escape && s.tty.writeQ.GETCH.fst == 0x5a

-- What is done with the next character, but for the answer.
def takeChar (v : Console.Video) (s : ConsoleTty) : ConsoleTty :=
  let c := s.tty.writeQ.GETCH.fst
  { s with
    tty := { s.tty with writeQ := s.tty.writeQ.GETCH.snd }
    console := s.console.conWrite v (s.tty.termios.cCc VERASE) c
    taken := s.taken ++ [c] }

section Write

variable (v : Console.Video) (ctype : CType)

-- A round of the loop of `con_write`.
def takeRound (write : WriteRoutine) (fuel : Nat) (s : ConsoleTty) : Except ConStop ConsoleTty :=
  if s.asks then respond ctype write fuel (s.takeChar v) else .ok (s.takeChar v)

-- The loop of `con_write`, for `nr` characters.
def takeChars (write : WriteRoutine) (fuel : Nat) : Nat → ConsoleTty → Except ConStop ConsoleTty
  | 0, s => .ok s
  | nr + 1, s =>
    if s.tty.writeQ.EMPTY then
      .error .empty
    else do
      let s ← s.takeRound v ctype write fuel
      takeChars write fuel nr s

def conWrite : Nat → WriteRoutine
  | 0, _ => .error .fuel
  | fuel + 1, s => takeChars v ctype (conWrite fuel) fuel s.tty.writeQ.CHARS s

def init (console : Console) (tty : TtyStruct) : ConsoleTty :=
  {
    console
    tty
    put := tty.writeQ.contents
    taken := []
  }

/--
`con_write` returns, and it has taken all characters that have been put into the queue, each of them once and in order.
-/
def TakesAll (s : ConsoleTty) : Prop :=
  ∃ fuel s', conWrite v ctype fuel s = .ok s' ∧ s'.tty.writeQ.EMPTY = true ∧ s'.taken = s'.put

def forbidden : WriteRoutine :=
  fun _ => .error .empty

-- Every `ESC Z` that is not at the end of the characters is answered without a call of `tty->write`.
def Quiet : List Byte → ConsoleTty → Prop
  | [], _ => True
  | _ :: rest, s =>
    if s.asks then
      rest = [] ∨ ∃ fuel s', respond ctype forbidden fuel (s.takeChar v) = .ok s' ∧ Quiet rest s'
    else
      Quiet rest (s.takeChar v)

end Write

end ConsoleTty
end Tty
end OS
