import Mathlib.Logic.Function.Iterate
import ByDoing.OS.Tty.TtyQueue

namespace OS
namespace Tty

-- `1<<(SIGALRM-1)`
def ALRMMASK : BitVec 32 :=
  1 <<< 13

-- The variables of `tty_read`, with what it reads of the terminal and of the process; `buf` is what it has delivered.
structure Reading where
  termios : Termios
  secondary : TtyQueue
  signal : BitVec 32
  alarm : Int
  jiffies : Int
  nr : Nat
  minimum : Nat
  time : Nat
  flag : Bool
  oldalarm : Int
  buf : List Byte

-- Where a round ends: behind the loop or in a `return`, in `interruptible_sleep_on`, or before the next round.
inductive RoundEnd where
  | left
  | asleep
  | next
  deriving DecidableEq

namespace Reading

-- `flag=(!oldalarm || time+jiffies<oldalarm)`
def early (r : Reading) : Bool :=
  r.oldalarm = 0 || r.time + r.jiffies < r.oldalarm

-- What `tty_read` does before its loop.
def start (termios : Termios) (secondary : TtyQueue) (signal : BitVec 32) (alarm jiffies : Int) (nr : Nat) : Reading :=
  let time := 10 * (termios.cCc VTIME).toNat
  let minimum := (termios.cCc VMIN).toNat
  let r : Reading :=
    {
      termios, secondary, signal, alarm, jiffies, nr, minimum := min minimum nr, time, flag := false
      oldalarm := alarm, buf := []
    }
  if time ≠ 0 ∧ minimum = 0 then
    let flag := r.early
    { r with minimum := min 1 nr, flag, alarm := if flag then time + jiffies else alarm }
  else
    r

-- The inner loop, for `nr` characters at most: whether it returns, what is left of `nr`, the queue and what has been
-- delivered.
def takeChars (termios : Termios) : Nat → TtyQueue → List Byte → Bool × Nat × TtyQueue × List Byte
  | 0, q, buf => (false, 0, q, buf)
  | nr + 1, q, buf =>
    let c := q.GETCH.fst
    let q := q.GETCH.snd
    let eof := termios.isChar VEOF c
    let q := if eof || c == 10 then { q with data := q.data - 1 } else q
    if eof && termios.L_CANON then
      (true, nr + 1, q, buf)
    else if nr = 0 ∨ q.EMPTY then
      (false, nr, q, buf ++ [c])
    else
      takeChars termios nr q (buf ++ [c])

def waiting (r : Reading) : Bool :=
  r.secondary.EMPTY || (r.termios.L_CANON && r.secondary.data == 0 && r.secondary.LEFT > 20)

def finishRound (r : Reading) : RoundEnd × Reading :=
  let r :=
    if r.time ≠ 0 ∧ !r.termios.L_CANON then
      { r with flag := r.early, alarm := if r.early then r.time + r.jiffies else r.oldalarm }
    else
      r
  if r.termios.L_CANON then
    if r.buf ≠ [] then (.left, r) else (.next, r)
  else if r.minimum ≤ r.buf.length then
    (.left, r)
  else
    (.next, r)

def round (r : Reading) : RoundEnd × Reading :=
  if r.nr = 0 then
    (.left, r)
  else if r.flag && r.signal &&& ALRMMASK != 0 then
    (.left, { r with signal := r.signal &&& ~~~ALRMMASK })
  else if r.signal ≠ 0 then
    (.left, r)
  else if r.waiting then
    -- `sleep_if_empty` looks at nothing but the signals and the queue.
    if r.secondary.EMPTY then (.asleep, r) else (.next, r)
  else
    let taken := takeChars r.termios r.nr r.secondary r.buf
    let r := { r with nr := taken.snd.fst, secondary := taken.snd.snd.fst, buf := taken.snd.snd.snd }
    if taken.fst then (.left, r) else r.finishRound

def Progresses (r : Reading) : Prop :=
  r.round.fst = .left ∨ r.round.fst = .asleep ∨ r.round.snd.secondary.CHARS < r.secondary.CHARS

def Unfinished (r : Reading) : Prop :=
  r.nr ≠ 0 ∧ r.signal = 0 ∧ r.termios.L_CANON = true ∧ r.secondary.EMPTY = false ∧ r.secondary.data = 0
    ∧ 20 < r.secondary.LEFT

theorem chars_GETCH_lt {q : TtyQueue} (h : q.EMPTY = false) : q.GETCH.snd.CHARS < q.CHARS := by
  have hcontents := congrArg List.length (TtyQueue.contents_GETCH h)
  simp only [TtyQueue.contents, Ring.length_window, List.length_cons] at hcontents
  omega

theorem takeChars_lt {termios : Termios} {nr : Nat} {q : TtyQueue} {buf : List Byte} (hnr : nr ≠ 0)
    (hempty : q.EMPTY = false)
    : (takeChars termios nr q buf).snd.snd.fst.CHARS < q.CHARS := by
  induction nr generalizing q buf with
  | zero => exact absurd rfl hnr
  | succ nr ih =>
    unfold takeChars
    dsimp only
    let q' := if termios.isChar VEOF q.GETCH.fst || q.GETCH.fst == 10 then
        { q.GETCH.snd with data := q.GETCH.snd.data - 1 }
      else
        q.GETCH.snd
    have hq' : q'.CHARS = q.GETCH.snd.CHARS := by
      unfold q'
      split
      . rfl
      . rfl
    have hlt := chars_GETCH_lt hempty
    change (if termios.isChar VEOF q.GETCH.fst && termios.L_CANON then (true, nr + 1, q', buf)
      else if nr = 0 ∨ q'.EMPTY then (false, nr, q', buf ++ [q.GETCH.fst])
      else takeChars termios nr q' (buf ++ [q.GETCH.fst])).snd.snd.fst.CHARS < q.CHARS
    split
    . change q'.CHARS < q.CHARS
      omega
    . split
      . change q'.CHARS < q.CHARS
        omega
      . next hmore =>
        rw [not_or, Bool.not_eq_true] at hmore
        have hrest := @ih q' (buf ++ [q.GETCH.fst]) hmore.left hmore.right
        omega

theorem finishRound_secondary (r : Reading) : r.finishRound.snd.secondary = r.secondary := by
  unfold finishRound
  dsimp only
  repeat' split
  all_goals rfl

theorem round_of_unfinished {r : Reading} (h : r.Unfinished) : r.round = (.next, r) := by
  obtain ⟨hnr, hsignal, hcanon, hempty, hdata, hleft⟩ := h
  have hwaiting : r.waiting = true := by
    unfold waiting
    simp [hcanon, hdata, hleft]
  unfold round
  rw [if_neg hnr, if_neg (by simp [hsignal]), if_neg (by simp [hsignal]), if_pos hwaiting, if_neg (by simp [hempty])]

/--
A round of `tty_read` makes progress exactly if it does not find an unfinished line.
-/
theorem progresses_iff (r : Reading) : r.Progresses ↔ ¬ r.Unfinished := by
  constructor
  . intro hprogress hunfinished
    unfold Progresses at hprogress
    rw [round_of_unfinished hunfinished] at hprogress
    simp at hprogress
  . intro hfinished
    unfold Progresses round
    by_cases hnr : r.nr = 0
    . rw [if_pos hnr]
      exact .inl rfl
    rw [if_neg hnr]
    split
    . exact .inl rfl
    split
    . exact .inl rfl
    next hsignal =>
    rw [ne_eq, not_not] at hsignal
    split
    . next hwaiting =>
      split
      . exact .inr (.inl rfl)
      . next hempty =>
        rw [Bool.not_eq_true] at hempty
        simp only [waiting, hempty, Bool.false_or, Bool.and_eq_true, beq_iff_eq, decide_eq_true_eq] at hwaiting
        exact absurd ⟨hnr, hsignal, hwaiting.left.left, hempty, hwaiting.left.right, hwaiting.right⟩ hfinished
    . next hwaiting =>
      have hempty : r.secondary.EMPTY = false := by
        cases hempty : r.secondary.EMPTY with
        | false => rfl
        | true => simp [waiting, hempty] at hwaiting
      have hlt := @takeChars_lt r.termios r.nr r.secondary r.buf hnr hempty
      refine .inr (.inr ?_)
      dsimp only
      split
      . exact hlt
      . rw [finishRound_secondary]
        exact hlt

-- A terminal in canonical mode with the one character `a` in its queue.
def oneLetter : Reading :=
  start { cIflag := 0, cOflag := 0, cLflag := 2, cCc := fun i => if i = VEOF then 4 else if i = VMIN then 1 else 0 }
    { data := 0, head := 1, tail := 0, buf := fun _ => 97 } 0 0 0 1

theorem not_progresses_oneLetter : ¬ oneLetter.Progresses := by
  unfold Progresses
  decide

end Reading

end Tty
end OS
