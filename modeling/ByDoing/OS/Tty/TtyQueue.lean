import ByDoing.Lib.Ring
import Mathlib.Data.Fin.Basic

namespace OS
namespace Tty

def TTY_BUF_SIZE : Nat := 1024

instance : NeZero TTY_BUF_SIZE :=
  ⟨by decide⟩

abbrev Place := Fin TTY_BUF_SIZE

-- A `char` is signed.
abbrev Byte := BitVec 8

-- `data` counts lines, or is the port of a serial line.
structure TtyQueue where
  data : BitVec 32
  head : Place
  tail : Place
  buf : Nat → Byte

def INC (a : Place) : Place :=
  a + 1

def DEC (a : Place) : Place :=
  a - 1

namespace TtyQueue

def EMPTY (q : TtyQueue) : Bool :=
  q.head == q.tail

def LEFT (q : TtyQueue) : Nat :=
  (q.tail - q.head - 1).val

def LAST (q : TtyQueue) : Byte :=
  q.buf (q.head - 1).val

def FULL (q : TtyQueue) : Bool :=
  q.LEFT == 0

def CHARS (q : TtyQueue) : Nat :=
  (q.head - q.tail).val

def GETCH (q : TtyQueue) : Byte × TtyQueue :=
  (q.buf q.tail.val, { q with tail := INC q.tail })

def PUTCH (c : Byte) (q : TtyQueue) : TtyQueue :=
  { q with
    buf := Function.update q.buf q.head.val c
    head := INC q.head }

def contents (q : TtyQueue) : List Byte :=
  Ring.window TTY_BUF_SIZE q.buf q.tail.val q.CHARS

variable {q : TtyQueue}

theorem val_one : (1 : Place).val = 1 :=
  rfl

theorem empty_iff : q.EMPTY = true ↔ q.CHARS = 0 := by
  have hhead := q.head.isLt
  have htail := q.tail.isLt
  unfold EMPTY CHARS
  rw [beq_iff_eq, Fin.ext_iff, Fin.val_sub]
  unfold TTY_BUF_SIZE at *
  omega

theorem chars_lt (q : TtyQueue) : q.CHARS < TTY_BUF_SIZE :=
  (q.head - q.tail).isLt

theorem left_eq (q : TtyQueue) : q.LEFT = TTY_BUF_SIZE - 1 - q.CHARS := by
  have hhead := q.head.isLt
  have htail := q.tail.isLt
  unfold LEFT CHARS
  simp only [Fin.val_sub, val_one]
  unfold TTY_BUF_SIZE at *
  omega

theorem full_iff : q.FULL = true ↔ q.CHARS = TTY_BUF_SIZE - 1 := by
  have hlt := q.chars_lt
  unfold FULL
  rw [beq_iff_eq, left_eq]
  unfold TTY_BUF_SIZE at *
  omega

theorem head_eq (q : TtyQueue) : q.head.val = (q.tail.val + q.CHARS) % TTY_BUF_SIZE := by
  have hhead := q.head.isLt
  have htail := q.tail.isLt
  unfold CHARS
  simp only [Fin.val_sub]
  unfold TTY_BUF_SIZE at *
  omega

theorem chars_PUTCH (c : Byte) (q : TtyQueue) : (q.PUTCH c).CHARS = (q.CHARS + 1) % TTY_BUF_SIZE := by
  have hhead := q.head.isLt
  have htail := q.tail.isLt
  unfold PUTCH CHARS INC
  simp only [Fin.val_sub, Fin.val_add, val_one]
  unfold TTY_BUF_SIZE at *
  omega

theorem chars_GETCH (q : TtyQueue) : q.GETCH.snd.CHARS = (q.CHARS + TTY_BUF_SIZE - 1) % TTY_BUF_SIZE := by
  have hhead := q.head.isLt
  have htail := q.tail.isLt
  unfold GETCH CHARS INC
  simp only [Fin.val_sub, Fin.val_add, val_one]
  unfold TTY_BUF_SIZE at *
  omega

theorem contents_PUTCH (c : Byte) (h : q.FULL = false) : (q.PUTCH c).contents = q.contents ++ [c] := by
  have hlt := q.chars_lt
  have hroom : q.CHARS + 1 < TTY_BUF_SIZE := by
    have hfull : q.CHARS ≠ TTY_BUF_SIZE - 1 := by
      intro heq
      rw [full_iff.mpr heq] at h
      cases h
    unfold TTY_BUF_SIZE at *
    omega
  unfold contents
  rw [chars_PUTCH, Nat.mod_eq_of_lt hroom]
  unfold PUTCH
  dsimp only
  rw [q.head_eq, Ring.window_store hlt]

theorem contents_PUTCH_full (c : Byte) (h : q.FULL = true) : (q.PUTCH c).contents = [] := by
  have hzero : (q.PUTCH c).CHARS = 0 := by
    rw [chars_PUTCH, full_iff.mp h]
    rfl
  unfold contents
  rw [hzero]
  rfl

theorem contents_GETCH (h : q.EMPTY = false) : q.contents = q.GETCH.fst :: q.GETCH.snd.contents := by
  have hlt := q.chars_lt
  have hpos : q.CHARS ≠ 0 := by
    intro hzero
    rw [empty_iff.mpr hzero] at h
    cases h
  obtain ⟨n, hn⟩ := Nat.exists_eq_succ_of_ne_zero hpos
  have hrest : q.GETCH.snd.CHARS = n := by
    rw [chars_GETCH, hn]
    unfold TTY_BUF_SIZE at *
    omega
  unfold contents
  rw [hrest, hn, Ring.window, Nat.mod_eq_of_lt q.tail.isLt]
  unfold GETCH INC
  dsimp only
  congr 1
  rw [Fin.val_add, val_one, Ring.window_mod]

theorem contents_eq_nil : q.contents = [] ↔ q.EMPTY = true := by
  rw [empty_iff, ← List.length_eq_zero_iff, contents, Ring.length_window]

end TtyQueue

def NCCS : Nat := 17

structure Termios where
  cIflag : BitVec 32
  cOflag : BitVec 32
  cLflag : BitVec 32
  cCc : Fin NCCS → Byte

def VINTR : Fin NCCS := ⟨0, by decide⟩
def VQUIT : Fin NCCS := ⟨1, by decide⟩
def VERASE : Fin NCCS := ⟨2, by decide⟩
def VKILL : Fin NCCS := ⟨3, by decide⟩
def VEOF : Fin NCCS := ⟨4, by decide⟩
def VTIME : Fin NCCS := ⟨5, by decide⟩
def VMIN : Fin NCCS := ⟨6, by decide⟩
def VSTART : Fin NCCS := ⟨8, by decide⟩
def VSTOP : Fin NCCS := ⟨9, by decide⟩

namespace Termios

def flag (flags : BitVec 32) (f : Nat) : Bool :=
  flags &&& BitVec.ofNat 32 f != 0

def I_NLCR (t : Termios) : Bool := flag t.cIflag 0o100
def I_NOCR (t : Termios) : Bool := flag t.cIflag 0o200
def I_CRNL (t : Termios) : Bool := flag t.cIflag 0o400
def I_UCLC (t : Termios) : Bool := flag t.cIflag 0o1000

def O_POST (t : Termios) : Bool := flag t.cOflag 0o1
def O_LCUC (t : Termios) : Bool := flag t.cOflag 0o2
def O_NLCR (t : Termios) : Bool := flag t.cOflag 0o4
def O_CRNL (t : Termios) : Bool := flag t.cOflag 0o10
def O_NLRET (t : Termios) : Bool := flag t.cOflag 0o40

def L_ISIG (t : Termios) : Bool := flag t.cLflag 0o1
def L_CANON (t : Termios) : Bool := flag t.cLflag 0o2
def L_ECHO (t : Termios) : Bool := flag t.cLflag 0o10
def L_ECHOCTL (t : Termios) : Bool := flag t.cLflag 0o1000

-- Whether a `char` is a control character, which is an `unsigned char`.
def isChar (t : Termios) (i : Fin NCCS) (c : Byte) : Bool :=
  c.toInt == (t.cCc i).toNat

end Termios

end Tty
end OS
