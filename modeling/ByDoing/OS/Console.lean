import Mathlib.Logic.Function.Basic
import Mathlib.Logic.Function.Iterate

/-!
This module contains the console driver: `con_write` takes the bytes of the write queue of a terminal and moves the
cursor, scrolls and changes the video memory. All variables are 32 bits wide, and the addresses of all the bytes that
have been stored to are noted.
-/

namespace OS

namespace Console

def wrap (n : Nat) : Nat :=
  n % 0x100000000

def sub (a b : Nat) : Nat :=
  (a + 0x100000000 - b) % 0x100000000

end Console

structure VideoMemory where
  byte : Nat → BitVec 8
  stores : List Nat

namespace VideoMemory

def poke (m : VideoMemory) (address : Nat) (value : BitVec 8) : VideoMemory :=
  {
    byte := Function.update m.byte address value
    stores := address :: m.stores
  }

def word (m : VideoMemory) (address : Nat) : BitVec 16 :=
  m.byte (address + 1) ++ m.byte address

def pokeWord (m : VideoMemory) (address : Nat) (value : BitVec 16) : VideoMemory :=
  (m.poke address (value.setWidth 8)).poke (address + 1) ((value >>> 8).setWidth 8)

-- One step of `movsl`.
def copyLong (m : VideoMemory) (edi esi : Nat) : VideoMemory :=
  let low := m.word esi
  let high := m.word (esi + 2)
  (m.pokeWord edi low).pokeWord (edi + 2) high

-- `cld; rep; stosw`
def stosw (m : VideoMemory) (value : BitVec 16) (edi : Nat) : Nat → VideoMemory
  | 0 => m
  | n + 1 => (m.pokeWord edi value).stosw value (edi + 2) n

-- `cld; rep; movsl`
def movsl (m : VideoMemory) (edi esi : Nat) : Nat → VideoMemory
  | 0 => m
  | n + 1 => (m.copyLong edi esi).movsl (edi + 4) (esi + 4) n

-- `std; rep; stosw`
def stoswDown (m : VideoMemory) (value : BitVec 16) (edi : Nat) : Nat → VideoMemory
  | 0 => m
  | n + 1 => (m.pokeWord edi value).stoswDown value (Console.sub edi 2) n

-- `std; rep; movsl`
def movslDown (m : VideoMemory) (edi esi : Nat) : Nat → VideoMemory
  | 0 => m
  | n + 1 => (m.copyLong edi esi).movslDown (Console.sub edi 4) (Console.sub esi 4) n

end VideoMemory

namespace Console

inductive VideoType where
  | mda
  | cga
  | egam
  | egac
  deriving DecidableEq

def VideoType.ega : VideoType → Bool
  | .egac => true
  | .egam => true
  | _ => false

def NPAR : Nat := 16

structure Video where
  videoType : VideoType
  numColumns : Nat
  numLines : Nat
  memStart : Nat
  memEnd : Nat
  eraseChar : BitVec 16
  columns_ge : 8 ≤ numColumns
  fits : memStart + numLines * (2 * numColumns) ≤ memEnd
  start_ge : 0x1000 ≤ memStart
  end_lt : memEnd < 0x100000

namespace Video

def sizeRow (v : Video) : Nat :=
  2 * v.numColumns

end Video

inductive EscState where
  | ground
  | escape
  | bracket
  | parameters
  deriving DecidableEq

end Console

open Console

structure Console where
  screen : VideoMemory
  origin : Nat
  scrEnd : Nat
  pos : Nat
  x : Nat
  y : Nat
  top : Nat
  bottom : Nat
  state : EscState
  npar : Nat
  par : Nat → Nat
  ques : Bool
  attr : BitVec 8
  savedX : Nat
  savedY : Nat
  beepcount : Nat
  -- What is put into the read queue of the terminal.
  replies : List (BitVec 8)

namespace Console

-- `gotoxy` thinks that `x == video_num_columns` is ok.
def gotoxy (v : Video) (c : Console) (newX newY : Nat) : Console :=
  if newX > v.numColumns ∨ newY ≥ v.numLines then
    c
  else
    { c with x := newX, y := newY, pos := wrap (c.origin + newY * v.sizeRow + 2 * newX) }

def scrollUp (v : Video) (c : Console) : VideoMemory :=
  let ecx := wrap (sub (sub c.bottom c.top) 1 * v.numColumns) / 2
  let edi := wrap (c.origin + v.sizeRow * c.top)
  let esi := wrap (c.origin + v.sizeRow * (c.top + 1))
  (c.screen.movsl edi esi ecx).stosw v.eraseChar (edi + 4 * ecx) v.numColumns

def scrup (v : Video) (c : Console) : Console :=
  if v.videoType.ega ∧ c.top = 0 ∧ c.bottom = v.numLines then
    let origin := wrap (c.origin + v.sizeRow)
    let pos := wrap (c.pos + v.sizeRow)
    let scrEnd := wrap (c.scrEnd + v.sizeRow)
    if scrEnd > v.memEnd then
      let ecx := wrap (sub v.numLines 1 * v.numColumns) / 2
      let screen := c.screen.movsl v.memStart origin ecx
      { c with
        screen := screen.stosw v.eraseChar (v.memStart + 4 * ecx) v.numColumns
        scrEnd := sub scrEnd (sub origin v.memStart)
        pos := sub pos (sub origin v.memStart)
        origin := v.memStart }
    else
      { c with
        screen := c.screen.stosw v.eraseChar (sub scrEnd v.sizeRow) v.numColumns
        origin
        pos
        scrEnd }
  else
    { c with screen := c.scrollUp v }

def scrdown (v : Video) (c : Console) : Console :=
  let ecx := wrap (sub (sub c.bottom c.top) 1 * v.numColumns) / 2
  let edi := sub (wrap (c.origin + v.sizeRow * c.bottom)) 4
  let esi := sub (wrap (c.origin + v.sizeRow * sub c.bottom 1)) 4
  let screen := c.screen.movslDown edi esi ecx
  { c with screen := screen.stoswDown v.eraseChar (wrap (sub edi (4 * ecx) + 2)) v.numColumns }

def lf (v : Video) (c : Console) : Console :=
  if wrap (c.y + 1) < c.bottom then
    { c with y := wrap (c.y + 1), pos := wrap (c.pos + v.sizeRow) }
  else
    c.scrup v

def ri (v : Video) (c : Console) : Console :=
  if c.y > c.top then
    { c with y := sub c.y 1, pos := sub c.pos v.sizeRow }
  else
    c.scrdown v

def cr (c : Console) : Console :=
  { c with pos := sub c.pos (2 * c.x), x := 0 }

def del (v : Video) (c : Console) : Console :=
  if c.x ≠ 0 then
    let pos := sub c.pos 2
    { c with pos, x := sub c.x 1, screen := c.screen.pokeWord pos v.eraseChar }
  else
    c

def csiJ (v : Video) (c : Console) (par : Nat) : Console :=
  match par with
  | 0 => { c with screen := c.screen.stosw v.eraseChar c.pos (sub c.scrEnd c.pos / 2) }
  | 1 => { c with screen := c.screen.stosw v.eraseChar c.origin (sub c.pos c.origin / 2) }
  | 2 => { c with screen := c.screen.stosw v.eraseChar c.origin (wrap (v.numColumns * v.numLines)) }
  | _ => c

def csiK (v : Video) (c : Console) (par : Nat) : Console :=
  match par with
  | 0 =>
    if c.x ≥ v.numColumns then
      c
    else
      { c with screen := c.screen.stosw v.eraseChar c.pos (v.numColumns - c.x) }
  | 1 =>
    let count := if c.x < v.numColumns then c.x else v.numColumns
    { c with screen := c.screen.stosw v.eraseChar (sub c.pos (2 * c.x)) count }
  | 2 => { c with screen := c.screen.stosw v.eraseChar (sub c.pos (2 * c.x)) v.numColumns }
  | _ => c

def attrOf (attr : BitVec 8) : Nat → BitVec 8
  | 0 => 0x07
  | 1 => 0x0f
  | 4 => 0x0f
  | 7 => 0x70
  | 27 => 0x07
  | _ => attr

def csim (c : Console) : Console :=
  { c with attr := (List.range (c.npar + 1)).foldl (fun attr i => attrOf attr (c.par i)) c.attr }

def RESPONSE : List (BitVec 8) :=
  [0x1b, 0x5b, 0x3f, 0x31, 0x3b, 0x32, 0x63]

def respond (c : Console) : Console :=
  { c with replies := c.replies ++ RESPONSE }

-- The loop of `insert_char` over the rest of the line.
def insertLoop (m : VideoMemory) (old : BitVec 16) (p : Nat) : Nat → VideoMemory
  | 0 => m
  | n + 1 => insertLoop (m.pokeWord p old) (m.word p) (p + 2) n

def insertChar (v : Video) (c : Console) : Console :=
  { c with screen := insertLoop c.screen v.eraseChar c.pos (v.numColumns - c.x) }

def insertLine (v : Video) (c : Console) : Console :=
  let c' := { c with top := c.y, bottom := v.numLines }.scrdown v
  { c' with top := c.top, bottom := c.bottom }

def deleteLoop (m : VideoMemory) (p : Nat) : Nat → VideoMemory
  | 0 => m
  | n + 1 => deleteLoop (m.pokeWord p (m.word (p + 2))) (p + 2) n

def deleteChar (v : Video) (c : Console) : Console :=
  if c.x ≥ v.numColumns then
    c
  else
    let n := v.numColumns - (c.x + 1)
    { c with screen := (deleteLoop c.screen c.pos n).pokeWord (c.pos + 2 * n) v.eraseChar }

def deleteLine (v : Video) (c : Console) : Console :=
  let c' := { c with top := c.y, bottom := v.numLines }.scrup v
  { c' with top := c.top, bottom := c.bottom }

-- How often `csi_at`, `csi_L`, `csi_P` and `csi_M` do what they do.
def repeats (nr most : Nat) : Nat :=
  if nr > most then most else if nr = 0 then 1 else nr

def csiAt (v : Video) (c : Console) (nr : Nat) : Console :=
  (insertChar v)^[repeats nr v.numColumns] c

def csiL (v : Video) (c : Console) (nr : Nat) : Console :=
  (insertLine v)^[repeats nr v.numLines] c

def csiP (v : Video) (c : Console) (nr : Nat) : Console :=
  (deleteChar v)^[repeats nr v.numColumns] c

def csiM (v : Video) (c : Console) (nr : Nat) : Console :=
  (deleteLine v)^[repeats nr v.numLines] c

def saveCur (c : Console) : Console :=
  { c with savedX := c.x, savedY := c.y }

def restoreCur (v : Video) (c : Console) : Console :=
  c.gotoxy v c.savedX c.savedY

def sysbeep (c : Console) : Console :=
  { c with beepcount := 100 / 8 }

def setPar (c : Console) (i value : Nat) : Console :=
  { c with par := Function.update c.par i value }

-- `if (par[i]) par[i]--` and `if (!par[i]) par[i]++`
def decPar (c : Console) (i : Nat) : Console :=
  if c.par i ≠ 0 then c.setPar i (sub (c.par i) 1) else c

def incPar (c : Console) (i : Nat) : Console :=
  if c.par i = 0 then c.setPar i (wrap (c.par i + 1)) else c

-- State 0 of `con_write`, where `erase` is `ERASE_CHAR(tty)`. A byte is a `char`, which is negative from 128 on.
def writeGround (v : Video) (c : Console) (erase ch : BitVec 8) : Console :=
  if 31 < ch.toNat ∧ ch.toNat < 127 then
    let c := if c.x ≥ v.numColumns then
        { c with x := sub c.x v.numColumns, pos := sub c.pos v.sizeRow }.lf v
      else
        c
    { c with screen := c.screen.pokeWord c.pos (c.attr ++ ch), pos := wrap (c.pos + 2), x := wrap (c.x + 1) }
  else if ch = 27 then
    { c with state := .escape }
  else if ch = 10 ∨ ch = 11 ∨ ch = 12 then
    c.lf v
  else if ch = 13 then
    c.cr
  else if ch = erase ∧ ch.toNat < 128 then
    c.del v
  else if ch = 8 then
    if c.x ≠ 0 then { c with x := sub c.x 1, pos := sub c.pos 2 } else c
  else if ch = 9 then
    let n := 8 - c.x % 8
    let c := { c with x := wrap (c.x + n), pos := wrap (c.pos + 2 * n) }
    if c.x > v.numColumns then
      { c with x := sub c.x v.numColumns, pos := sub c.pos v.sizeRow }.lf v
    else
      c
  else if ch = 7 then
    c.sysbeep
  else
    c

def writeEscape (v : Video) (c : Console) (ch : BitVec 8) : Console :=
  let c := { c with state := .ground }
  match Char.ofNat ch.toNat with
  | '[' => { c with state := .bracket }
  | 'E' => c.gotoxy v 0 (wrap (c.y + 1))
  | 'M' => c.ri v
  | 'D' => c.lf v
  | 'Z' => c.respond
  | '7' => c.saveCur
  | '8' => c.restoreCur v
  | _ => c

def writeFinal (v : Video) (c : Console) (ch : BitVec 8) : Console :=
  let c := { c with state := .ground }
  match Char.ofNat ch.toNat with
  | 'G' | '\x60' =>
    let c := c.decPar 0
    c.gotoxy v (c.par 0) c.y
  | 'A' =>
    let c := c.incPar 0
    c.gotoxy v c.x (sub c.y (c.par 0))
  | 'B' | 'e' =>
    let c := c.incPar 0
    c.gotoxy v c.x (wrap (c.y + c.par 0))
  | 'C' | 'a' =>
    let c := c.incPar 0
    c.gotoxy v (wrap (c.x + c.par 0)) c.y
  | 'D' =>
    let c := c.incPar 0
    c.gotoxy v (sub c.x (c.par 0)) c.y
  | 'E' =>
    let c := c.incPar 0
    c.gotoxy v 0 (wrap (c.y + c.par 0))
  | 'F' =>
    let c := c.incPar 0
    c.gotoxy v 0 (sub c.y (c.par 0))
  | 'd' =>
    let c := c.decPar 0
    c.gotoxy v c.x (c.par 0)
  | 'H' | 'f' =>
    let c := (c.decPar 0).decPar 1
    c.gotoxy v (c.par 1) (c.par 0)
  | 'J' => c.csiJ v (c.par 0)
  | 'K' => c.csiK v (c.par 0)
  | 'L' => c.csiL v (c.par 0)
  | 'M' => c.csiM v (c.par 0)
  | 'P' => c.csiP v (c.par 0)
  | '@' => c.csiAt v (c.par 0)
  | 'm' => c.csim
  | 'r' =>
    let c := c.decPar 0
    let c := if c.par 1 = 0 then c.setPar 1 v.numLines else c
    if c.par 0 < c.par 1 ∧ c.par 1 ≤ v.numLines then
      { c with top := c.par 0, bottom := c.par 1 }
    else
      c
  | 's' => c.saveCur
  | 'u' => c.restoreCur v
  | _ => c

-- State 3, the parameters.
def writeParameters (v : Video) (c : Console) (ch : BitVec 8) : Console :=
  if ch = 0x3b ∧ c.npar < NPAR - 1 then
    { c with npar := c.npar + 1 }
  else if 0x30 ≤ ch.toNat ∧ ch.toNat ≤ 0x39 then
    c.setPar c.npar (wrap (10 * c.par c.npar + (ch.toNat - 0x30)))
  else
    c.writeFinal v ch

-- State 2, after `[`.
def writeBracket (v : Video) (c : Console) (ch : BitVec 8) : Console :=
  let c := { c with par := fun _ => 0, npar := 0, state := .parameters, ques := ch == 0x3f }
  if c.ques then c else c.writeParameters v ch

-- The loop of `con_write` for one byte.
def conWrite (v : Video) (c : Console) (erase ch : BitVec 8) : Console :=
  match c.state with
  | .ground => c.writeGround v erase ch
  | .escape => c.writeEscape v ch
  | .bracket => c.writeBracket v ch
  | .parameters => c.writeParameters v ch

-- What `setup.s` has got from the BIOS. A text mode has at least 40 columns, and its screen fits into the smallest
-- memory there is. The cursor is on the screen.
structure Setup where
  mode : BitVec 8
  columns : Nat
  egaBx : BitVec 16
  x : Nat
  y : Nat
  columns_ge : 8 ≤ columns
  columns_le : columns ≤ 163
  x_le : x ≤ columns
  y_lt : y < 25

namespace Setup

def videoType (s : Setup) : VideoType :=
  if s.mode = 7 then
    if s.egaBx &&& 0xff ≠ 0x10 then .egam else .mda
  else
    if s.egaBx &&& 0xff ≠ 0x10 then .egac else .cga

def memStart : VideoType → Nat
  | .egam => 0xb0000
  | .mda => 0xb0000
  | .egac => 0xb8000
  | .cga => 0xb8000

def memEnd : VideoType → Nat
  | .egam => 0xb8000
  | .mda => 0xb2000
  | .egac => 0xbc000
  | .cga => 0xba000

def displayDesc : VideoType → List (BitVec 8)
  | .egam => [0x45, 0x47, 0x41, 0x6d]
  | .mda => [0x2a, 0x4d, 0x44, 0x41]
  | .egac => [0x45, 0x47, 0x41, 0x63]
  | .cga => [0x2a, 0x43, 0x47, 0x41]

def video (s : Setup) : Video :=
  {
    videoType := s.videoType
    numColumns := s.columns
    numLines := 25
    memStart := memStart s.videoType
    memEnd := memEnd s.videoType
    eraseChar := 0x0720
    columns_ge := s.columns_ge
    fits := by
      have hle := s.columns_le
      cases s.videoType <;> simp only [memStart, memEnd] <;> omega
    start_ge := by
      cases s.videoType <;> decide
    end_lt := by
      cases s.videoType <;> decide
  }

end Setup

def pokeDesc (m : VideoMemory) (p : Nat) : List (BitVec 8) → VideoMemory
  | [] => m
  | b :: bs => pokeDesc (m.poke p b) (p + 2) bs

def conInit (s : Setup) (byte : Nat → BitVec 8) : Console :=
  let v := s.video
  let c : Console :=
    {
      screen := pokeDesc { byte, stores := [] } (v.memStart + v.sizeRow - 8) (Setup.displayDesc v.videoType)
      origin := v.memStart
      scrEnd := v.memStart + v.numLines * v.sizeRow
      pos := 0
      x := 0
      y := 0
      top := 0
      bottom := v.numLines
      state := .ground
      npar := 0
      par := fun _ => 0
      ques := false
      attr := 0x07
      savedX := 0
      savedY := 0
      beepcount := 0
      replies := []
    }
  c.gotoxy v s.x s.y

end Console
end OS
