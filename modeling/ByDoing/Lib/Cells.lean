import Mathlib.Data.List.Basic

namespace Cells

universe u

variable {α : Type u}

def write (l : List α) (i : Nat) (x : α) : Option (List α) :=
  if i < l.length then some (l.set i x) else none

def swap (l : List α) (i j : Nat) : Option (List α) :=
  match l[i]?, l[j]? with
  | some x, some y => some ((l.set i y).set j x)
  | _, _ => none

section Here

variable {pre : List α} {i : Nat}

theorem read_here (h : i = pre.length) (x : α) (post : List α) : (pre ++ x :: post)[i]? = some x := by
  rw [h, List.getElem?_append_right (Nat.le_refl _), Nat.sub_self, List.getElem?_cons_zero]

theorem set_here (h : i = pre.length) (x y : α) (post : List α)
    : (pre ++ x :: post).set i y = pre ++ y :: post := by
  rw [h, List.set_append_right _ _ (Nat.le_refl _), Nat.sub_self, List.set_cons_zero]

theorem write_here (h : i = pre.length) (x y : α) (post : List α)
    : write (pre ++ x :: post) i y = some (pre ++ y :: post) := by
  unfold write
  rw [if_pos (by simp [h]), set_here h]

theorem swap_same (h : i = pre.length) (x : α) (post : List α)
    : swap (pre ++ x :: post) i i = some (pre ++ x :: post) := by
  unfold swap
  rw [read_here h]
  dsimp only
  rw [set_here h, set_here h]

theorem swap_here {mid : List α} {j : Nat} (h : i = pre.length) (h' : j = pre.length + 1 + mid.length) (x y : α)
    (post : List α)
    : swap (pre ++ x :: (mid ++ y :: post)) i j = some (pre ++ y :: (mid ++ x :: post)) := by
  have hassoc : ∀ x y : α, pre ++ x :: (mid ++ y :: post) = (pre ++ x :: mid) ++ y :: post := by
    intro x y
    simp
  have hj : ∀ x : α, j = (pre ++ x :: mid).length := by
    intro x
    simp [h']
    omega
  have hread := @read_here _ _ _ (hj x) y post
  unfold swap
  rw [read_here h, hassoc, hread]
  dsimp only
  rw [← hassoc, set_here h, hassoc, set_here (hj y), hassoc]

end Here

end Cells
