import Mathlib.Data.Nat.ModEq
import Mathlib.Logic.Function.Basic

namespace Ring

universe u

variable {α : Type u} {size : Nat} {cells : Nat → α}

def window (size : Nat) (cells : Nat → α) (start : Nat) : Nat → List α
  | 0 => []
  | n + 1 => cells (start % size) :: window size cells (start + 1) n

@[simp]
theorem length_window (start n : Nat) : (window size cells start n).length = n := by
  induction n generalizing start with
  | zero => rfl
  | succ n ih => rw [window, List.length_cons, ih]

theorem window_mod (start n : Nat) : window size cells (start % size) n = window size cells start n := by
  induction n generalizing start with
  | zero => rfl
  | succ n ih =>
    rw [window, window, Nat.mod_mod, ← ih (start % size + 1), ← ih (start + 1), Nat.mod_add_mod]

theorem window_snoc (start n : Nat)
    : window size cells start (n + 1) = window size cells start n ++ [cells ((start + n) % size)] := by
  induction n generalizing start with
  | zero => rfl
  | succ n ih =>
    rw [window, ih, window, List.cons_append, show start + 1 + n = start + (n + 1) by omega]

theorem window_update_of_ne {start n p : Nat} (h : ∀ i < n, (start + i) % size ≠ p) (v : α)
    : window size (Function.update cells p v) start n = window size cells start n := by
  induction n generalizing start with
  | zero => rfl
  | succ n ih =>
    have hhead := h 0 (by omega)
    rw [Nat.add_zero] at hhead
    rw [window, window, Function.update_of_ne hhead, ih]
    intro i hi
    rw [show start + 1 + i = start + (i + 1) by omega]
    exact h (i + 1) (by omega)

theorem window_store {start n : Nat} (h : n < size) (v : α)
    : window size (Function.update cells ((start + n) % size) v) start (n + 1)
        = window size cells start n ++ [v] := by
  rw [window_snoc, Function.update_self, window_update_of_ne]
  intro i hi heq
  have hmod : i % size = n % size := Nat.ModEq.add_left_cancel' start heq
  rw [Nat.mod_eq_of_lt (by omega), Nat.mod_eq_of_lt h] at hmod
  omega

end Ring
