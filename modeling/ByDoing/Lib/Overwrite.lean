import Mathlib.Data.List.GetD

namespace Overwrite

universe u

variable {α : Type u}

def slice (xs : List α) (pos n : Nat) : List α :=
  (xs.drop pos).take n

def overwrite (fill : α) (xs : List α) (pos : Nat) : List α → List α
  | [] => xs
  | y :: ys =>
    xs.take pos ++ List.replicate (pos - xs.length) fill ++ y :: ys ++ xs.drop (pos + (y :: ys).length)

@[simp]
theorem overwrite_nil (fill : α) (xs : List α) (pos : Nat) : overwrite fill xs pos [] = xs :=
  rfl

theorem length_overwrite {fill : α} {xs : List α} {pos : Nat} {ys : List α} (h : ys ≠ [])
    : (overwrite fill xs pos ys).length = max xs.length (pos + ys.length) := by
  cases ys with
  | nil => exact absurd rfl h
  | cons y ys =>
    simp only [overwrite, List.length_append, List.length_take, List.length_replicate, List.length_drop,
      List.length_cons]
    omega

theorem getD_overwrite (fill : α) (xs : List α) (pos : Nat) (ys : List α) (i : Nat)
    : (overwrite fill xs pos ys).getD i fill
        = if pos ≤ i ∧ i < pos + ys.length then ys.getD (i - pos) fill else xs.getD i fill := by
  cases ys with
  | nil =>
    rw [overwrite_nil, if_neg]
    rintro ⟨hge, hlt⟩
    exact absurd hlt (by simpa using hge)
  | cons y ys =>
    have hhead : (xs.take pos ++ List.replicate (pos - xs.length) fill).length = pos := by
      simp only [List.length_append, List.length_take, List.length_replicate]
      omega
    have hmid : (xs.take pos ++ List.replicate (pos - xs.length) fill ++ y :: ys).length
        = pos + (y :: ys).length := by
      rw [List.length_append, hhead]
    rw [overwrite, List.getD_eq_getElem?_getD]
    split
    . next hin =>
      rw [List.getElem?_append_left (by omega), List.getElem?_append_right (by omega), hhead,
        List.getD_eq_getElem?_getD]
    . next hout =>
      by_cases hlt : i < pos
      . rw [List.getElem?_append_left (by omega), List.getElem?_append_left (by omega), List.getD_eq_getElem?_getD]
        by_cases hi : i < xs.length
        . rw [List.getElem?_append_left (by simp; omega), List.getElem?_take_of_lt hlt]
        . rw [List.getElem?_append_right (by simp; omega), List.getElem?_eq_none (Nat.le_of_not_lt hi),
            List.getElem?_replicate]
          split
          . rfl
          . rfl
      . rw [List.getElem?_append_right (by omega), hmid, List.getElem?_drop, List.getD_eq_getElem?_getD]
        congr 2
        omega

theorem ext (fill : α) {xs ys : List α} (hlength : xs.length = ys.length)
    (h : ∀ i < xs.length, xs.getD i fill = ys.getD i fill)
    : xs = ys := by
  apply List.ext_getElem hlength
  intro i hi hi'
  have := h i hi
  rwa [List.getD_eq_getElem _ _ hi, List.getD_eq_getElem _ _ hi'] at this

theorem overwrite_append (fill : α) (xs : List α) (pos : Nat) (ys zs : List α)
    : overwrite fill (overwrite fill xs pos ys) (pos + ys.length) zs = overwrite fill xs pos (ys ++ zs) := by
  by_cases hy : ys = []
  . subst hy
    simp
  by_cases hz : zs = []
  . subst hz
    simp
  have hyz : ys ++ zs ≠ [] := by simp [hy]
  apply ext fill
  . rw [length_overwrite hz, length_overwrite hy, length_overwrite hyz, List.length_append]
    omega
  . intro i _
    rw [getD_overwrite, getD_overwrite, getD_overwrite, List.length_append]
    by_cases hsecond : pos + ys.length ≤ i ∧ i < pos + ys.length + zs.length
    . rw [if_pos hsecond, if_pos (by omega), List.getD_append_right _ _ _ _ (by omega)]
      congr 1
      omega
    . rw [if_neg hsecond]
      by_cases hfirst : pos ≤ i ∧ i < pos + ys.length
      . rw [if_pos hfirst, if_pos (by omega), List.getD_append _ _ _ _ (by omega)]
      . rw [if_neg hfirst, if_neg (by omega)]

theorem slice_append (xs : List α) (pos m n : Nat) : slice xs pos (m + n) = slice xs pos m ++ slice xs (pos + m) n := by
  unfold slice
  rw [List.take_add, List.drop_drop]

theorem length_slice {xs : List α} {pos n : Nat} (h : pos + n ≤ xs.length) : (slice xs pos n).length = n := by
  unfold slice
  rw [List.length_take, List.length_drop]
  omega

theorem slice_of_length_le {xs : List α} {pos n : Nat} (h : xs.length ≤ pos) : slice xs pos n = [] := by
  rw [slice, List.drop_eq_nil_of_le h, List.take_nil]

theorem slice_of_le {xs : List α} {pos m n : Nat} (hm : m ≤ n) (h : xs.length ≤ pos + m)
    : slice xs pos n = slice xs pos m := by
  unfold slice
  rw [List.take_of_length_le, List.take_of_length_le]
  all_goals
    rw [List.length_drop]
    omega

theorem getD_slice {fill : α} {xs : List α} {pos n i : Nat} (hi : i < n)
    : (slice xs pos n).getD i fill = xs.getD (pos + i) fill := by
  unfold slice
  rw [List.getD_eq_getElem?_getD, List.getD_eq_getElem?_getD, List.getElem?_take_of_lt hi, List.getElem?_drop]

end Overwrite
