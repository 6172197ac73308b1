import Mathlib
import ByDoing.AlgApp.BubbleSort
import ByDoing.AlgApp.Conversion
import ByDoing.Lib.Cells
import ByDoing.Lib.StableSort

namespace AlgApp
namespace SelectSort

open Conversion

universe u

variable {T : Type u} [Preorder T] [DecidableLT T]

-- The inner loop with `n` more values of `j`.
def selectSort.inner (arr : List T) (minIdx j : Nat) : (n : Nat) → Option Nat
  | 0 => some minIdx
  | n + 1 =>
    match arr[j]?, arr[minIdx]? with
    | some x, some m => inner arr (if x < m then j else minIdx) (j + 1) n
    | _, _ => none

-- The outer loop with `n` more values of `i`.
def selectSort.outer (arr : List T) (i : Nat) : (n : Nat) → Option (List T)
  | 0 => some arr
  | n + 1 =>
    match selectSort.inner arr i (i + 1) n with
    | none => none
    | some minIdx =>
      match if minIdx ≠ i then Cells.swap arr i minIdx else some arr with
      | none => none
      | some arr => outer arr (i + 1) n

def selectSort (arr : List T) : Option (List T) :=
  if arr.isEmpty then some arr else selectSort.outer arr 0 (sizeInt arr).val.toNat

variable [DecidableLE T] [Std.Total fun a b : T => a ≤ b]

omit [DecidableLE T] in
theorem inner_eq {arr : List T} {minIdx : Nat} (j n : Nat) (hmin : minIdx < arr.length) (hn : j + n ≤ arr.length)
    : ∃ (k : Nat) (m : T),
        selectSort.inner arr minIdx j n = some k ∧ arr[k]? = some m ∧ (k = minIdx ∨ j ≤ k ∧ k < j + n)
          ∧ m ≤ arr[minIdx] ∧ ∀ t x, j ≤ t → t < j + n → arr[t]? = some x → m ≤ x := by
  induction n generalizing minIdx j with
  | zero =>
    refine ⟨minIdx, arr[minIdx], rfl, List.getElem?_eq_getElem hmin, .inl rfl, le_refl _, ?_⟩
    intro t x
    omega
  | succ n ih =>
    have hj : j < arr.length := by omega
    obtain ⟨next, hnext, hlt, hplace, hlej, hlem⟩ : ∃ (next : Nat) (_ : (if arr[j] < arr[minIdx] then j else minIdx) = next)
        (_ : next < arr.length), (next = minIdx ∨ next = j) ∧ arr[next] ≤ arr[j] ∧ arr[next] ≤ arr[minIdx] := by
      by_cases hless : arr[j] < arr[minIdx]
      . exact ⟨j, if_pos hless, hj, .inr rfl, le_refl _, le_of_lt hless⟩
      . exact ⟨minIdx, if_neg hless, hmin, .inl rfl, StableSort.not_lt_iff_le.mp hless, le_refl _⟩
    obtain ⟨k, m, hrun, hk, hplace', hle, hall⟩ := ih (j + 1) hlt (by omega)
    rw [selectSort.inner, List.getElem?_eq_getElem hj, List.getElem?_eq_getElem hmin]
    dsimp only
    rw [hnext]
    refine ⟨k, m, hrun, hk, by omega, le_trans hle hlem, ?_⟩
    intro t x hjt htn hx
    cases Nat.eq_or_lt_of_le hjt with
    | inl heq =>
      subst heq
      rw [List.getElem?_eq_getElem hj, Option.some.injEq] at hx
      exact hx ▸ le_trans hle hlej
    | inr hlt => apply hall t x hlt (by omega) hx

omit [DecidableLE T] in
theorem select_eq (done todo post : List T) (x : T)
    : ∃ (minIdx : Nat) (m : T) (todo' : List T),
        selectSort.inner (done ++ x :: (todo ++ post)) done.length (done.length + 1) todo.length = some minIdx
          ∧ (if minIdx ≠ done.length then Cells.swap (done ++ x :: (todo ++ post)) done.length minIdx
              else some (done ++ x :: (todo ++ post)))
            = some (done ++ m :: (todo' ++ post))
          ∧ (m :: todo').Perm (x :: todo) ∧ ∀ y ∈ todo', m ≤ y := by
  have hlength : done.length + 1 + (todo.length + post.length) = (done ++ x :: (todo ++ post)).length := by
    simp
    omega
  have hfirst := @Cells.read_here _ done done.length rfl x (todo ++ post)
  have hrest : ∀ t < todo.length, (done ++ x :: (todo ++ post))[done.length + 1 + t]? = todo[t]? := by
    intro t ht
    rw [List.getElem?_append_right (by omega), show done.length + 1 + t - done.length = t + 1 by omega,
      List.getElem?_cons_succ, List.getElem?_append_left ht]
  obtain ⟨k, m, hrun, hk, hplace, hle, hall⟩ :=
    @inner_eq _ _ _ _ (done ++ x :: (todo ++ post)) done.length (done.length + 1) todo.length (by omega) (by omega)
  rw [List.getElem?_eq_getElem (by omega), Option.some.injEq] at hfirst
  rw [hfirst] at hle
  have hmin : ∀ y ∈ todo, m ≤ y := by
    intro y hy
    obtain ⟨t, ht, hget⟩ := List.getElem_of_mem hy
    apply hall (done.length + 1 + t) y (by omega) (by omega)
    rw [hrest t ht, List.getElem?_eq_getElem ht, hget]
  refine ⟨k, m, ?_⟩
  by_cases hsame : k = done.length
  . subst hsame
    rw [List.getElem?_eq_getElem (by omega), hfirst, Option.some.injEq] at hk
    subst hk
    exact ⟨todo, hrun, by simp, .refl _, hmin⟩
  . obtain ⟨t, rfl⟩ := Nat.exists_eq_add_of_le (show done.length + 1 ≤ k by omega)
    have ht : t < todo.length := by omega
    rw [hrest t ht, List.getElem?_eq_getElem ht, Option.some.injEq] at hk
    have hsplit : todo = todo.take t ++ m :: todo.drop (t + 1) := by
      rw [← hk, ← List.drop_eq_getElem_cons ht, List.take_append_drop]
    have htake : (todo.take t).length = t := List.length_take_of_le (by omega)
    have hswap := @Cells.swap_here _ done done.length (todo.take t) (done.length + 1 + t) rfl (by omega) x m
      (todo.drop (t + 1) ++ post)
    have harr : todo ++ post = todo.take t ++ m :: (todo.drop (t + 1) ++ post) := by
      rw [← List.cons_append, ← List.append_assoc, ← hsplit]
    refine ⟨todo.take t ++ x :: todo.drop (t + 1), hrun, ?_, ?_, ?_⟩
    . rw [if_pos hsame, harr, hswap, List.append_assoc, List.cons_append]
    . conv => rhs; rw [hsplit]
      apply (List.perm_middle.cons m).trans
      apply (List.Perm.swap x m _).trans
      apply List.perm_middle.symm.cons x
    . intro y hy
      rw [List.mem_append, List.mem_cons] at hy
      rcases hy with hy | rfl | hy
      . apply hmin y (List.mem_of_mem_take hy)
      . apply hle
      . apply hmin y (List.mem_of_mem_drop hy)

omit [DecidableLE T] in
theorem outer_sorts (done todo post : List T)
    : ∃ out : List T, selectSort.outer (done ++ (todo ++ post)) done.length todo.length = some (done ++ (out ++ post))
        ∧ out.Perm todo ∧ out.Pairwise (· ≤ ·) := by
  induction hn : todo.length generalizing done todo with
  | zero =>
    rw [List.length_eq_zero_iff] at hn
    subst hn
    exact ⟨[], by simp [selectSort.outer], .refl [], .nil⟩
  | succ n ih =>
    cases todo with
    | nil => cases hn
    | cons x todo =>
      rw [List.length_cons, Nat.add_right_cancel_iff] at hn
      subst hn
      obtain ⟨minIdx, m, todo', hinner, hswap, hperm, hmin⟩ := select_eq done todo post x
      have hlength : todo'.length = todo.length := by simpa using hperm.length_eq
      obtain ⟨out, hrun, hperm', hsorted⟩ := ih (done ++ [m]) todo' hlength
      rw [List.append_assoc, List.singleton_append, List.length_append, List.length_singleton] at hrun
      rw [selectSort.outer, List.cons_append, hinner]
      dsimp only
      rw [hswap]
      dsimp only
      refine ⟨m :: out, by rw [hrun]; simp, (hperm'.cons m).trans hperm, ?_⟩
      rw [List.pairwise_cons]
      exact ⟨fun y hy => hmin y (hperm'.mem_iff.mp hy), hsorted⟩

omit [DecidableLE T] in
theorem selectSort_eq (arr : List T)
    : ∃ out : List T,
        selectSort arr = some (out ++ arr.drop (reached arr))
          ∧ out.Perm (arr.take (reached arr)) ∧ out.Pairwise (· ≤ ·) := by
  unfold selectSort
  split
  . next hempty =>
    rw [List.isEmpty_iff.mp hempty, List.take_nil, List.drop_nil]
    exact ⟨[], rfl, .refl [], .nil⟩
  . have hlength : (arr.take (reached arr)).length = reached arr := List.length_take_of_le (reached_le arr)
    obtain ⟨out, hrun, hsorts⟩ := outer_sorts [] (arr.take (reached arr)) (arr.drop (reached arr))
    rw [List.nil_append, List.nil_append, List.take_append_drop, hlength, List.length_nil] at hrun
    rw [← reached]
    exact ⟨out, hrun, hsorts⟩

omit [DecidableLE T] in
theorem selectSort_sorted_iff (arr : List T)
    : (∃ out : List T, selectSort arr = some out ∧ out.Perm arr ∧ out.Pairwise (· ≤ ·))
        ↔
      StableSort.InPlace arr (reached arr) := by
  obtain ⟨out, hrun, hperm, hsorted⟩ := selectSort_eq arr
  constructor
  . intro ⟨out', hrun', _, hout⟩
    rw [hrun] at hrun'
    cases hrun'
    exact ((StableSort.sorted_append_drop hperm).mp hout).right
  . intro hrest
    have hall := hperm.append_right (arr.drop (reached arr))
    rw [List.take_append_drop] at hall
    exact ⟨_, hrun, hall, (StableSort.sorted_append_drop hperm).mpr ⟨hsorted, hrest⟩⟩

/--
`bubble_sort` is a stable sort and `select_sort` is a sort, so that both give the same vector if no elements are tied,
exactly for the vectors whose size in an `int` has a predecessor and whose elements behind it are in their place.
-/
theorem bubbleSort_selectSort (arr : List T)
    : (∃ bubble select : List T,
        BubbleSort.bubbleSort arr = some bubble ∧ StableSort.Sorts arr bubble
          ∧ selectSort arr = some select ∧ select.Perm arr ∧ select.Pairwise (· ≤ ·)
          ∧ (StableSort.NoTies arr → bubble = select))
        ↔
      (sizeInt arr).val ≠ -2147483648 ∧ StableSort.InPlace arr (reached arr) := by
  rw [← BubbleSort.bubbleSort_sorts_iff]
  constructor
  . intro ⟨bubble, select, hbubble, hsorts, _⟩
    exact ⟨bubble, hbubble, hsorts⟩
  . intro ⟨bubble, hbubble, hsorts⟩
    have hrest := ((BubbleSort.bubbleSort_sorts_iff arr).mp ⟨bubble, hbubble, hsorts⟩).right
    obtain ⟨select, hselect, hperm, hsorted⟩ := (selectSort_sorted_iff arr).mpr hrest
    refine ⟨bubble, select, hbubble, hsorts, hselect, hperm, hsorted, ?_⟩
    intro hties
    apply StableSort.eq_of_noTies hties hsorts.perm hperm hsorts.sorted hsorted

theorem bubbleSort_selectSort_ints
    : ∃ bubble select : List Int,
        BubbleSort.bubbleSort [61, 17, 29] = some bubble ∧ StableSort.Sorts [61, 17, 29] bubble
          ∧ selectSort [61, 17, 29] = some select ∧ select.Perm [61, 17, 29] ∧ select.Pairwise (· ≤ ·)
          ∧ (StableSort.NoTies ([61, 17, 29] : List Int) → bubble = select) :=
  (bubbleSort_selectSort ([61, 17, 29] : List Int)).mpr
    ⟨by decide, StableSort.inPlace_of_le (reached_of_lt (by decide)).ge⟩

-- Both leave the vector as it is.
theorem not_sorted_wrapping
    : (¬∃ out : List Int, BubbleSort.bubbleSort wrapping = some out ∧ StableSort.Sorts wrapping out)
        ∧ ¬∃ out : List Int, selectSort wrapping = some out ∧ out.Perm wrapping ∧ out.Pairwise (· ≤ ·) := by
  rw [BubbleSort.bubbleSort_sorts_iff, selectSort_sorted_iff]
  exact ⟨fun h => not_inPlace_wrapping h.right, not_inPlace_wrapping⟩

end SelectSort
end AlgApp
