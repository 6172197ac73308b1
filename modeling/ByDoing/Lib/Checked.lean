import Mathlib.Init

namespace Checked

universe u

def InInt (x : Int) : Prop :=
  -2147483648 ≤ x ∧ x < 2147483648

instance (x : Int) : Decidable (InInt x) :=
  inferInstanceAs (Decidable (_ ∧ _))

def checked {ε : Type u} (e : ε) (x : Int) : Except ε Int :=
  if InInt x then .ok x else .error e

variable {ε : Type u} {e : ε} {x y : Int}

theorem checked_of_inInt (h : InInt x) : checked e x = .ok x := by
  unfold checked
  rw [if_pos h]

end Checked
