import Mathlib.Logic.Function.Basic

namespace BitWords

variable {w : Nat}

def bit (words : Nat → BitVec w) (n : Nat) : Bool :=
  (words (n / w)).getLsbD (n % w)

def set (words : Nat → BitVec w) (n : Nat) : Nat → BitVec w :=
  Function.update words (n / w) (words (n / w) ||| .twoPow w (n % w))

def clear (words : Nat → BitVec w) (n : Nat) : Nat → BitVec w :=
  Function.update words (n / w) (words (n / w) &&& ~~~ .twoPow w (n % w))

theorem decide_eq_word_bit {m n : Nat} (hdiv : m / w = n / w) : decide (m = n) = decide (m % w = n % w) := by
  rw [decide_eq_decide]
  constructor
  . rintro rfl
    rfl
  . intro hmod
    rw [← Nat.div_add_mod m w, ← Nat.div_add_mod n w, hdiv, hmod]

@[simp]
theorem bit_set (hw : 0 < w) (words : Nat → BitVec w) (m n : Nat)
    : bit (set words n) m = (decide (m = n) || bit words m) := by
  unfold bit set
  by_cases hdiv : m / w = n / w
  . have hlt := Nat.mod_lt n hw
    rw [decide_eq_word_bit hdiv, hdiv, Function.update_self, BitVec.getLsbD_or, BitVec.getLsbD_twoPow,
      Bool.or_comm]
    simp [hlt, eq_comm]
  . have hne : m ≠ n := fun heq => hdiv (congrArg (· / w) heq)
    rw [Function.update_of_ne hdiv]
    simp [hne]

@[simp]
theorem bit_clear (hw : 0 < w) (words : Nat → BitVec w) (m n : Nat)
    : bit (clear words n) m = (!decide (m = n) && bit words m) := by
  unfold bit clear
  by_cases hdiv : m / w = n / w
  . have hm := Nat.mod_lt m hw
    have hn := Nat.mod_lt n hw
    rw [decide_eq_word_bit hdiv, hdiv, Function.update_self, BitVec.getLsbD_and, BitVec.getLsbD_not,
      BitVec.getLsbD_twoPow, Bool.and_comm]
    simp [hm, hn, eq_comm]
  . have hne : m ≠ n := fun heq => hdiv (congrArg (· / w) heq)
    rw [Function.update_of_ne hdiv]
    simp [hne]

/--
The first clear bit of the words from `k` on, `w` times the index behind the last word if there is none.
-/
def scan (words : Nat → BitVec w) : Nat → Nat → Nat
  | 0, k => w * k
  | count + 1, k =>
    if ~~~ words k = 0#w then
      scan words count (k + 1)
    else
      w * k + (~~~ words k).ctz.toNat

theorem bit_word (words : Nat → BitVec w) {k i : Nat} (hi : i < w)
    : bit words (w * k + i) = (words k).getLsbD i := by
  have hw : 0 < w := Nat.zero_lt_of_lt hi
  rw [bit, Nat.mul_add_div hw, Nat.mul_add_mod, Nat.mod_eq_of_lt hi, Nat.div_eq_of_lt hi, Nat.add_zero]

theorem getLsbD_of_not_eq_zero {x : BitVec w} (h : ~~~ x = 0#w) {i : Nat} (hi : i < w) : x.getLsbD i = true := by
  have hbit := congrArg (fun y => y.getLsbD i) h
  simpa [hi] using hbit

theorem ctz_not_lt {x : BitVec w} (h : ~~~ x ≠ 0#w) : (~~~ x).ctz.toNat < w := by
  have hlt := BitVec.ctz_lt_iff_ne_zero.mpr h
  rw [BitVec.lt_def] at hlt
  exact Nat.lt_of_lt_of_le hlt (Nat.mod_le w _)

theorem bit_scan {words : Nat → BitVec w} {count k : Nat} (h : scan words count k < w * (k + count))
    : bit words (scan words count k) = false := by
  induction count generalizing k with
  | zero => exact absurd h (Nat.lt_irrefl _)
  | succ count ih =>
    unfold scan at h ⊢
    split
    . next hzero =>
      rw [if_pos hzero, show k + (count + 1) = k + 1 + count by omega] at h
      exact ih h
    . next hne =>
      rw [bit_word words (ctz_not_lt hne)]
      have hbit := BitVec.getLsbD_true_ctz_of_ne_zero hne
      rw [BitVec.getLsbD_not] at hbit
      simpa using And.right (by simpa using hbit)

theorem bit_of_lt_scan {words : Nat → BitVec w} {count k n : Nat} (hle : w * k ≤ n) (h : n < scan words count k)
    : bit words n = true := by
  induction count generalizing k with
  | zero => exact absurd h (Nat.not_lt.mpr hle)
  | succ count ih =>
    unfold scan at h
    split at h
    . next hzero =>
      by_cases hn : w * (k + 1) ≤ n
      . exact ih hn h
      . rw [Nat.mul_add, Nat.mul_one] at hn
        have hword := bit_word words (k := k) (show n - w * k < w by omega)
        rw [Nat.add_sub_cancel' hle] at hword
        rw [hword]
        exact getLsbD_of_not_eq_zero hzero (by omega)
    . next hne =>
      have hlt := ctz_not_lt hne
      have hi : n - w * k < w := by omega
      have hword := bit_word words (k := k) hi
      have hbelow := BitVec.getLsbD_false_of_lt_ctz (show n - w * k < (~~~ words k).ctz.toNat by omega)
      rw [Nat.add_sub_cancel' hle] at hword
      rw [BitVec.getLsbD_not] at hbelow
      simpa [hword, hi] using hbelow

end BitWords
