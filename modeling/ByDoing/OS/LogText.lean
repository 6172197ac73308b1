import ByDoing.Lib.Decimal
import ByDoing.OS.StatTimes
import ByDoing.OS.Vsprintf

/-!
This module contains the text of a line of the process log: `vsprintf` makes it of the arguments of
`fprintk(3, "%ld\t%c\t%ld\n", ...)`, and `stat_log.py` takes it apart again. The text is ASCII, so the characters
that Python reads are the bytes of the file, and its whitespace is that of ASCII.
-/

namespace OS

def Letter.char : Letter → Char
  | .N => 'N'
  | .J => 'J'
  | .R => 'R'
  | .W => 'W'
  | .E => 'E'

-- A character constant is an `int`.
def Letter.word (letter : Letter) : BitVec 32 :=
  BitVec.ofNat 32 letter.char.toNat

namespace LogText

open StatTimes

def format : List Char :=
  ['%', 'l', 'd', '\t', '%', 'c', '\t', '%', 'l', 'd', '\n']

def isSpace (c : Char) : Bool :=
  c.toNat == 32 || (9 ≤ c.toNat && c.toNat ≤ 13) || (28 ≤ c.toNat && c.toNat ≤ 31)

def strip (field : List Char) : List Char :=
  ((field.dropWhile isSpace).reverse.dropWhile isSpace).reverse

def moreDigits (n : Nat) : List Char → Option Nat
  | [] => some n
  | '_' :: c :: cs => if c.isDigit then moreDigits (10 * n + (c.toNat - '0'.toNat)) cs else none
  | c :: cs => if c.isDigit then moreDigits (10 * n + (c.toNat - '0'.toNat)) cs else none

def digits : List Char → Option Nat
  | [] => none
  | c :: cs => if c.isDigit then moreDigits (c.toNat - '0'.toNat) cs else none

def int (field : List Char) : Option Int :=
  match strip field with
  | '-' :: cs => (digits cs).map fun n : Nat => -(n : Int)
  | '+' :: cs => (digits cs).map fun n : Nat => (n : Int)
  | cs => (digits cs).map fun n : Nat => (n : Int)

-- The three fields of a line: `pid`, `s` and `time`.
def fields (line : List Char) : Except LogError (Int × List Char × Int) :=
  match line.splitOn '\t' with
  | [pid, s, time] =>
    match int pid with
    | none => .error (.ValueError pid)
    | some pid =>
      match int time with
      | none => .error (.ValueError time)
      | some time => .ok (pid, s.map Char.toUpper, time)
  | _ => .error .BadFormat

def text (pid : Int) (letter : Char) (time : Int) : List Char :=
  Decimal.chars pid ++ ['\t', letter, '\t'] ++ Decimal.chars time ++ ['\n']

theorem checkLine_eq (c : Checker) (line : List Char)
    : checkLine int c line
        =
      if line = c.prevLine then
        .error .SameLine
      else
        match fields line with
        | .error e => .error e
        | .ok (pid, s, time) =>
          if time < c.prevTime then
            .error (.BadTime time)
          else
            applyState { c with prevTime := time, prevLine := line } pid s time := by
  unfold checkLine fields
  split
  . rfl
  . generalize line.splitOn '\t' = parts
    rcases parts with _ | ⟨pid, _ | ⟨s, _ | ⟨time, _ | ⟨_, _⟩⟩⟩⟩
    . rfl
    . rfl
    . rfl
    . cases hpid : int pid with
      | none => simp [hpid]
      | some pid => cases htime : int time <;> simp [hpid, htime]
    . rfl

theorem stateOf_char (letter : Letter) : stateOf [letter.char] = some (StatLog.stateOf letter) := by
  cases letter <;> rfl

theorem upper_char (letter : Letter) : letter.char.toUpper = letter.char := by
  cases letter <;> rfl

theorem char_word (letter : Letter) : Char.ofNat (letter.word.toNat % 256) = letter.char := by
  cases letter <;> rfl

theorem char_ne_tab (letter : Letter) : letter.char ≠ '\t' := by
  cases letter <;> decide

theorem not_isSpace_of_mem_chars {i : Int} {c : Char} (h : c ∈ Decimal.chars i) : isSpace c = false := by
  cases Decimal.mem_chars h with
  | inl hsign =>
    rw [hsign]
    rfl
  | inr hdigit =>
    have hrange : 48 ≤ c.toNat ∧ c.toNat ≤ 57 := Char.isDigit_iff_toNat.mp hdigit
    simp [isSpace]
    omega

theorem strip_append {cs ws : List Char} (hcs : ∀ c ∈ cs, isSpace c = false) (hws : ∀ c ∈ ws, isSpace c = true)
    (hne : cs ≠ [])
    : strip (cs ++ ws) = cs := by
  have hkeep : ∀ l : List Char, l ≠ [] → (∀ c ∈ l, isSpace c = false) → ∀ rest, (l ++ rest).dropWhile isSpace = l ++ rest := by
    intro l hl hall rest
    cases l with
    | nil => contradiction
    | cons c l =>
      rw [List.cons_append, List.dropWhile_cons_of_neg]
      simp [hall c (List.mem_cons_self)]
  unfold strip
  rw [hkeep cs hne hcs, List.reverse_append, List.dropWhile_append_of_pos, ← List.append_nil cs.reverse, hkeep]
  . simp
  . simpa using hne
  . simpa using hcs
  . simpa using hws

theorem moreDigits_cons {c : Char} (h : c.isDigit = true) (cs : List Char) (n : Nat)
    : moreDigits n (c :: cs) = moreDigits (10 * n + (c.toNat - '0'.toNat)) cs := by
  rw [moreDigits]
  . rw [if_pos h]
  . intro d ds heq
    rw [heq] at h
    exact absurd h (by decide)

theorem moreDigits_eq {cs : List Char} (h : ∀ c ∈ cs, c.isDigit = true) (n : Nat)
    : moreDigits n cs = some (Nat.ofDigitChars 10 cs n) := by
  induction cs generalizing n with
  | nil => simp [moreDigits]
  | cons c cs ih =>
    rw [List.forall_mem_cons] at h
    rw [moreDigits_cons h.left, Nat.ofDigitChars_cons, ih h.right]

theorem digits_toDigits (n : Nat) : digits (Nat.toDigits 10 n) = some n := by
  have hall : ∀ c ∈ Nat.toDigits 10 n, c.isDigit = true := by
    intro c hc
    apply Nat.isDigit_of_mem_toDigits _ _ hc <;> omega
  have hvalue := @Nat.ofDigitChars_ten_toDigits n
  generalize hds : Nat.toDigits 10 n = ds at hall hvalue
  cases ds with
  | nil => exact absurd hds Nat.toDigits_ne_nil
  | cons c cs =>
    rw [List.forall_mem_cons] at hall
    rw [Nat.ofDigitChars_cons, Nat.mul_zero, Nat.zero_add] at hvalue
    rw [digits, if_pos hall.left, moreDigits_eq hall.right, hvalue]

theorem int_chars (i : Int) {ws : List Char} (hws : ∀ c ∈ ws, isSpace c = true)
    : int (Decimal.chars i ++ ws) = some i := by
  unfold int
  rw [strip_append (fun c => not_isSpace_of_mem_chars) hws]
  . cases i with
    | ofNat n =>
      have hdigits := digits_toDigits n
      have hall : ∀ c ∈ Nat.toDigits 10 n, c.isDigit = true := by
        intro c hc
        apply Nat.isDigit_of_mem_toDigits _ _ hc <;> omega
      rw [Decimal.chars]
      split
      . next cs hsign =>
        rw [hsign] at hall
        exact absurd (hall '-' List.mem_cons_self) (by decide)
      . next cs hsign =>
        rw [hsign] at hall
        exact absurd (hall '+' List.mem_cons_self) (by decide)
      . rw [hdigits]
        rfl
    | negSucc n =>
      rw [Decimal.chars]
      split
      . next cs hsign =>
        cases hsign
        rw [digits_toDigits]
        rfl
      . next hsign => cases hsign
      . next hother _ => exact absurd rfl (hother _)
  . rw [Decimal.chars_eq]
    simp

theorem splitOn_text (pid : Int) (letter : Letter) (time : Int)
    : (text pid letter.char time).splitOn '\t' = [Decimal.chars pid, [letter.char], Decimal.chars time ++ ['\n']] := by
  have hchars : ∀ i : Int, '\t' ∉ Decimal.chars i := by
    intro i hmem
    have := not_isSpace_of_mem_chars hmem
    contradiction
  have htext : text pid letter.char time
      = ['\t'].intercalate [Decimal.chars pid, [letter.char], Decimal.chars time ++ ['\n']] := by
    simp [text]
  rw [htext, List.splitOn_intercalate]
  . simp [hchars, (char_ne_tab letter).symm]
  . simp

theorem fields_text (pid : Int) (letter : Letter) (time : Int)
    : fields (text pid letter.char time) = .ok (pid, [letter.char], time) := by
  have hpid := @int_chars pid [] (by simp)
  have htime := @int_chars time ['\n'] (by simp [isSpace])
  rw [List.append_nil] at hpid
  unfold fields
  rw [splitOn_text]
  dsimp only
  rw [hpid, htime, List.map_singleton, upper_char]

theorem line_format (mem : BitVec 32 → List Char) (pid : BitVec 32) (letter : Letter) (jiffies : BitVec 32)
    : Vsprintf.line mem format [pid, letter.word, jiffies] = some (text pid.toInt letter.char jiffies.toInt) := by
  have hloop : Vsprintf.vsprintf.loop mem format ⟨[], [pid, letter.word, jiffies], []⟩
      = some ⟨text pid.toInt letter.char jiffies.toInt, [], []⟩ := by
    unfold format
    rw [Vsprintf.loop_directive mem _ (Vsprintf.directive_ld mem _ _ _ _ _)]
    rw [Vsprintf.loop_literal mem _ _ _ _ (by decide)]
    rw [Vsprintf.loop_directive mem _ (Vsprintf.directive_c mem _ _ _ _ _)]
    rw [Vsprintf.loop_literal mem _ _ _ _ (by decide)]
    rw [Vsprintf.loop_directive mem _ (Vsprintf.directive_ld mem _ _ _ _ _)]
    rw [Vsprintf.loop_literal mem _ _ _ _ (by decide), Vsprintf.vsprintf.loop, char_word]
    simp [text]
  unfold Vsprintf.line Vsprintf.vsprintf
  rw [hloop]
  simp

theorem text_eq_line (pid : Int) (letter : Letter) (time : Int)
    : ∃ body, text pid letter.char time = body ++ ['\n'] ∧ '\n' ∉ body ∧ '\r' ∉ body := by
  have hchars : ∀ {i : Int} {c : Char}, isSpace c = true → c ∉ Decimal.chars i := by
    intro i c hspace hmem
    rw [not_isSpace_of_mem_chars hmem] at hspace
    contradiction
  refine ⟨Decimal.chars pid ++ ['\t', letter.char, '\t'] ++ Decimal.chars time, rfl, ?_, ?_⟩
  . simp [hchars (show isSpace '\n' = true by decide)]
    cases letter <;> decide
  . simp [hchars (show isSpace '\r' = true by decide)]
    cases letter <;> decide

/--
The line that `fprintk` writes for a state has the decimal numerals of the process and of the time around the letter,
and `stat_log.py` takes the same process, letter and time out of it.
-/
theorem checkLine_line (mem : BitVec 32 → List Char) (pid : BitVec 32) (letter : Letter) (jiffies : BitVec 32)
    : ∃ line,
        Vsprintf.line mem format [pid, letter.word, jiffies] = some line
          ∧
        line = Decimal.chars pid.toInt ++ ['\t', letter.char, '\t'] ++ Decimal.chars jiffies.toInt ++ ['\n']
          ∧
        line.splitOn '\t' = [Decimal.chars pid.toInt, [letter.char], Decimal.chars jiffies.toInt ++ ['\n']]
          ∧
        fields line = .ok (pid.toInt, [letter.char], jiffies.toInt)
          ∧
        stateOf [letter.char] = some (StatLog.stateOf letter)
          ∧
        ∀ c : Checker,
          checkLine int c line
            =
          if line = c.prevLine then
            .error .SameLine
          else if jiffies.toInt < c.prevTime then
            .error (.BadTime jiffies.toInt)
          else
            applyState { c with prevTime := jiffies.toInt, prevLine := line } pid.toInt [letter.char] jiffies.toInt := by
  refine ⟨_, line_format mem pid letter jiffies, rfl, splitOn_text _ _ _, fields_text _ _ _, stateOf_char letter, ?_⟩
  intro c
  rw [checkLine_eq, fields_text]

-- The smallest word is the one whose negation overflows.
example : text (BitVec.intMin 32).toInt 'J' 7 = "-2147483648\tJ\t7\n".toList := by decide

end LogText
end OS
