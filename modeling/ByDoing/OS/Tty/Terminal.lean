import ByDoing.OS.Tty.TtyQueue

namespace OS
namespace Tty

-- The macros of `ctype.h`. They use a signed `char` as an index, and what lies in front of the table is left open.
structure CType where
  isupper : Byte → Bool
  islower : Byte → Bool
  isupper_eq : ∀ c : Byte, 0 ≤ c.toInt → isupper c = decide (65 ≤ c.toNat ∧ c.toNat ≤ 90)
  islower_eq : ∀ c : Byte, 0 ≤ c.toInt → islower c = decide (97 ≤ c.toNat ∧ c.toNat ≤ 122)

namespace CType

def tolower (ctype : CType) (c : Byte) : Byte :=
  if ctype.isupper c then c + 32 else c

def toupper (ctype : CType) (c : Byte) : Byte :=
  if ctype.islower c then c - 32 else c

def plain : CType :=
  {
    isupper := fun c => decide (65 ≤ c.toNat ∧ c.toNat ≤ 90)
    islower := fun c => decide (97 ≤ c.toNat ∧ c.toNat ≤ 122)
    isupper_eq := fun _ _ => rfl
    islower_eq := fun _ _ => rfl
  }

end CType

def INTMASK : BitVec 32 := 1 <<< 1
def QUITMASK : BitVec 32 := 1 <<< 2

-- `struct tty_struct`, with the masks that `tty_intr` has been called with; `overrun` is set when a character is put
-- into a write queue or a secondary queue that is full.
structure TtyStruct where
  termios : Termios
  stopped : Bool
  readQ : TtyQueue
  writeQ : TtyQueue
  secondary : TtyQueue
  intr : List (BitVec 32)
  overrun : Bool

-- What is left to be done for a character: nothing, to kill the line, to erase the last character `c` of the line, or
-- to append the character `c` to it.
inductive Todo where
  | nothing
  | kill
  | erase (c : Byte)
  | store (c : Byte)
  deriving DecidableEq

namespace Todo

def echo (t : Termios) : Todo → List Byte
  | .nothing => []
  | .kill => []
  | .erase c => if c.toInt < 32 then [127, 127] else [127]
  | .store c =>
    if c = 10 then
      [10, 13]
    else if c.toInt < 32 then
      if t.L_ECHOCTL then [94, c + 64] else []
    else
      [c]

-- Whether `tty->write` is called, after the echo.
def echoes (t : Termios) : Todo → Bool
  | .nothing => false
  | .kill => false
  | .erase _ => t.L_ECHO
  | .store _ => t.L_ECHO

end Todo

namespace TtyStruct

def putWrite (tty : TtyStruct) (c : Byte) : TtyStruct :=
  { tty with
    writeQ := tty.writeQ.PUTCH c
    overrun := tty.overrun || tty.writeQ.FULL }

def putSecondary (tty : TtyStruct) (c : Byte) : TtyStruct :=
  { tty with
    secondary := tty.secondary.PUTCH c
    overrun := tty.overrun || tty.secondary.FULL }

-- The changes that `c_iflag` asks for. There is nothing left of a CR that is ignored.
def translate (ctype : CType) (t : Termios) (c : Byte) : Option Byte :=
  let c :=
    if c = 13 then
      if t.I_CRNL then some 10 else if t.I_NOCR then none else some 13
    else if c = 10 ∧ t.I_NLCR then
      some 13
    else
      some c
  c.map fun c => if t.I_UCLC then ctype.tolower c else c

def erasable (tty : TtyStruct) : Option Byte :=
  let c := tty.secondary.LAST
  if tty.secondary.EMPTY || c == 10 || tty.termios.isChar VEOF c then none else some c

def todo (tty : TtyStruct) (c : Byte) : TtyStruct × Todo :=
  let t := tty.termios
  if t.L_CANON && t.isChar VKILL c then
    (tty, .kill)
  else if t.L_CANON && t.isChar VERASE c then
    match tty.erasable with
    | none => (tty, .nothing)
    | some c => (tty, .erase c)
  else if t.L_CANON && t.isChar VSTOP c then
    ({ tty with stopped := true }, .nothing)
  else if t.L_CANON && t.isChar VSTART c then
    ({ tty with stopped := false }, .nothing)
  else if t.L_ISIG && t.isChar VINTR c then
    ({ tty with intr := INTMASK :: tty.intr }, .nothing)
  else if t.L_ISIG && t.isChar VQUIT c then
    ({ tty with intr := QUITMASK :: tty.intr }, .nothing)
  else if c == 10 || t.isChar VEOF c then
    ({ tty with secondary := { tty.secondary with data := tty.secondary.data + 1 } }, .store c)
  else
    (tty, .store c)

-- The condition of the loop of `copy_to_cooked`.
def ready (tty : TtyStruct) : Bool :=
  !tty.readQ.EMPTY && !tty.secondary.FULL

def next (ctype : CType) (tty : TtyStruct) : TtyStruct × Todo :=
  let c := tty.readQ.GETCH.fst
  let tty := { tty with readQ := tty.readQ.GETCH.snd }
  match translate ctype tty.termios c with
  | none => (tty, .nothing)
  | some c => tty.todo c

def putEcho (tty : TtyStruct) (todo : Todo) : TtyStruct :=
  (todo.echo tty.termios).foldl putWrite tty

def finish (tty : TtyStruct) : Todo → TtyStruct
  | .nothing => tty
  | .kill => tty
  | .erase _ => { tty with secondary := { tty.secondary with head := DEC tty.secondary.head } }
  | .store c => tty.putSecondary c

end TtyStruct

-- A round of the inner loop of `tty_write` for the character `c`: what is put into the write queue, and `cr_flag`. The
-- character is used up if the flag is not set.
def nextOut (ctype : CType) (t : Termios) (crFlag : Bool) (c : Byte) : Byte × Bool :=
  if t.O_POST then
    let c := if c = 13 ∧ t.O_CRNL then 10 else if c = 10 ∧ t.O_NLRET then 13 else c
    if c = 10 ∧ !crFlag ∧ t.O_NLCR then
      (13, true)
    else
      (if t.O_LCUC then ctype.toupper c else c, false)
  else
    (c, false)

end Tty
end OS
