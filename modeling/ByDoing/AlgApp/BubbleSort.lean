import ByDoing.AlgApp.Conversion
import ByDoing.Lib.Cells
import ByDoing.Lib.Checked
import ByDoing.Lib.StableSort

namespace AlgApp
namespace BubbleSort

open Checked Conversion

universe u

variable {T : Type u} [Preorder T] [DecidableLT T]

-- The inner loop with `n` more values of `j`.
def bubbleSort.inner (arr : List T) (flag : Bool) (j : Nat) : (n : Nat) → Option (List T × Bool)
  | 0 => some (arr, flag)
  | n + 1 =>
    match arr[j]?, arr[j + 1]? with
    | some x, some y =>
      if y < x then
        match Cells.swap arr j (j + 1) with
        | none => none
        | some arr => inner arr true (j + 1) n
      else
        inner arr flag (j + 1) n
    | _, _ => none

-- The outer loop with `n` more values of `i`.
def bubbleSort.outer (arr : List T) (len i : Nat) : (n : Nat) → Option (List T)
  | 0 => some arr
  | n + 1 =>
    match bubbleSort.inner arr false 0 (len - 1 - i) with
    | none => none
    | some (arr, flag) => if flag then outer arr len (i + 1) n else some arr

-- `len - 1` has to be in the range of `int`.
def bubbleSort (arr : List T) : Option (List T) :=
  let len := (sizeInt arr).val
  if InInt (len - 1) then bubbleSort.outer arr len.toNat 0 (len - 1).toNat else none

variable [DecidableLE T] [Std.Total fun a b : T => a ≤ b]

structure Passed (l out : List T) (m : T) (flag flag' : Bool) : Prop where
  rearranges : StableSort.Rearranges l (out ++ [m])
  le_last : ∀ y ∈ out, y ≤ m
  of_false : flag' = false → flag = false ∧ out ++ [m] = l ∧ l.Pairwise (· ≤ ·)

omit [DecidableLT T] [Std.Total fun a b : T => a ≤ b] in
theorem Passed.le {l out : List T} {m x : T} {flag flag' : Bool} (h : Passed l out m flag flag') (hx : x ∈ l) : x ≤ m := by
  have hmem := h.rearranges.perm.mem_iff.mpr hx
  rw [List.mem_append, List.mem_singleton] at hmem
  cases hmem with
  | inl hmem => exact h.le_last x hmem
  | inr heq => exact le_of_eq heq

theorem inner_eq (l : List T) (pre post : List T) (x : T) (flag : Bool) {j : Nat} (hj : j = pre.length)
    : ∃ (out : List T) (m : T) (flag' : Bool),
        bubbleSort.inner (pre ++ x :: (l ++ post)) flag j l.length = some (pre ++ out ++ m :: post, flag')
          ∧ Passed (x :: l) out m flag flag' := by
  induction l generalizing pre x flag j with
  | nil =>
    refine ⟨[], x, flag, ?_, ?_⟩
    . simp [bubbleSort.inner]
    . constructor
      . apply StableSort.Rearranges.refl
      . simp
      . simp
  | cons y l ih =>
    have hread := @Cells.read_here _ pre j hj x (y :: (l ++ post))
    have hread' : (pre ++ x :: y :: (l ++ post))[j + 1]? = some y := by
      simpa using @Cells.read_here _ (pre ++ [x]) (j + 1) (by simp [hj]) y (l ++ post)
    rw [List.length_cons, bubbleSort.inner, List.cons_append, hread, hread']
    dsimp only
    by_cases hlt : y < x
    . obtain ⟨out, m, flag', hrun, hpassed⟩ := @ih (pre ++ [y]) x true (j + 1) (by simp [hj])
      have hswap := @Cells.swap_here _ pre j [] (j + 1) hj (by simp [hj]) x y (l ++ post)
      rw [List.nil_append, List.nil_append] at hswap
      rw [List.append_assoc, List.singleton_append] at hrun
      rw [if_pos hlt, hswap]
      dsimp only
      refine ⟨y :: out, m, flag', by rw [hrun]; simp, ?_⟩
      constructor
      . apply (StableSort.Rearranges.swap hlt l).trans
        apply StableSort.Rearranges.append (.refl [y]) hpassed.rearranges
      . rw [List.forall_mem_cons]
        refine ⟨?_, hpassed.le_last⟩
        apply le_trans (le_of_lt hlt) (hpassed.le List.mem_cons_self)
      . intro hfalse
        have := (hpassed.of_false hfalse).left
        contradiction
    . obtain ⟨out, m, flag', hrun, hpassed⟩ := @ih (pre ++ [x]) y flag (j + 1) (by simp [hj])
      have hle : x ≤ y := StableSort.not_lt_iff_le.mp hlt
      have hlast := le_trans hle (hpassed.le List.mem_cons_self)
      rw [List.append_assoc, List.singleton_append] at hrun
      rw [if_neg hlt]
      refine ⟨x :: out, m, flag', by rw [hrun]; simp, ?_⟩
      constructor
      . apply StableSort.Rearranges.append (.refl [x]) hpassed.rearranges
      . rw [List.forall_mem_cons]
        exact ⟨hlast, hpassed.le_last⟩
      . intro hfalse
        obtain ⟨hflag, heq, hsorted⟩ := hpassed.of_false hfalse
        refine ⟨hflag, by rw [List.cons_append, heq], ?_⟩
        rw [List.pairwise_cons, List.forall_mem_cons]
        refine ⟨⟨hle, ?_⟩, hsorted⟩
        intro z hz
        apply le_trans hle (List.rel_of_pairwise_cons hsorted hz)

/--
What the outer loop keeps: the elements behind `front` are sorted and not less than those of it.
-/
structure Settled (l front settled : List T) : Prop where
  rearranges : StableSort.Rearranges l (front ++ settled)
  sorted : settled.Pairwise (· ≤ ·)
  le_settled : ∀ x ∈ front, ∀ y ∈ settled, x ≤ y

omit [DecidableLT T] [Std.Total fun a b : T => a ≤ b] in
theorem Settled.sorts {l front settled : List T} (h : Settled l front settled) (hfront : front.Pairwise (· ≤ ·))
    : StableSort.Sorts l (front ++ settled) :=
  ⟨h.rearranges, List.pairwise_append.mpr ⟨hfront, h.sorted, h.le_settled⟩⟩

omit [DecidableLT T] [Std.Total fun a b : T => a ≤ b] in
theorem Settled.pass {l front settled out : List T} {m : T} {flag flag' : Bool} (h : Settled l front settled)
    (hpassed : Passed front out m flag flag')
    : Settled l out (m :: settled) := by
  have hmem : ∀ x, x ∈ out ++ [m] ↔ x ∈ front := fun x => hpassed.rearranges.perm.mem_iff
  constructor
  . rw [List.append_cons]
    apply h.rearranges.trans
    apply StableSort.Rearranges.append hpassed.rearranges (.refl settled)
  . rw [List.pairwise_cons]
    exact ⟨h.le_settled m ((hmem m).mp (by simp)), h.sorted⟩
  . intro x hx
    rw [List.forall_mem_cons]
    exact ⟨hpassed.le_last x hx, h.le_settled x ((hmem x).mp (List.mem_append_left _ hx))⟩

theorem outer_sorts {l front settled : List T} (rest : List T) (n : Nat) (hfront : front.length = n + 1)
    (h : Settled l front settled)
    : ∃ out : List T,
        bubbleSort.outer (front ++ (settled ++ rest)) (front.length + settled.length) settled.length n
            = some (out ++ rest)
          ∧ StableSort.Sorts l out := by
  induction n generalizing front settled with
  | zero =>
    refine ⟨front ++ settled, by rw [List.append_assoc]; rfl, h.sorts ?_⟩
    obtain ⟨x, rfl⟩ := List.length_eq_one_iff.mp hfront
    apply List.pairwise_singleton
  | succ n ih =>
    cases front with
    | nil => cases hfront
    | cons x front =>
      obtain ⟨out, m, flag, hrun, hpassed⟩ := @inner_eq _ _ _ _ _ front [] (settled ++ rest) x false 0 rfl
      have hlength : (out ++ [m]).length = (x :: front).length := hpassed.rearranges.perm.length_eq
      rw [List.nil_append, List.nil_append] at hrun
      rw [List.length_append, List.length_singleton] at hlength
      rw [bubbleSort.outer, show (x :: front).length + settled.length - 1 - settled.length = front.length by simp,
        List.cons_append, hrun]
      dsimp only
      cases flag with
      | true =>
        have hrest := ih (by omega) (h.pass hpassed)
        rw [List.length_cons, show out.length + (settled.length + 1) = (x :: front).length + settled.length by omega]
          at hrest
        rw [if_pos rfl]
        exact hrest
      | false =>
        obtain ⟨_, heq, hsorted⟩ := hpassed.of_false rfl
        refine ⟨out ++ m :: settled, by simp, ?_⟩
        rw [List.append_cons, heq]
        apply h.sorts hsorted

theorem bubbleSort_eq {arr : List T} (hsize : (sizeInt arr).val ≠ -2147483648)
    : ∃ out : List T,
        bubbleSort arr = some (out ++ arr.drop (reached arr)) ∧ StableSort.Sorts (arr.take (reached arr)) out := by
  have hrange := (sizeInt arr).property
  have hcount : ((sizeInt arr).val - 1).toNat = reached arr - 1 := by
    unfold reached
    omega
  have hlength : (arr.take (reached arr)).length = reached arr := List.length_take_of_le (reached_le arr)
  unfold bubbleSort
  dsimp only
  rw [if_pos (by unfold InInt; omega), hcount, ← reached]
  by_cases hzero : reached arr = 0
  . rw [hzero, List.take_zero, List.drop_zero]
    exact ⟨[], rfl, .refl [], .nil⟩
  . have hinit : Settled (arr.take (reached arr)) (arr.take (reached arr)) [] := by
      constructor
      . rw [List.append_nil]
        apply StableSort.Rearranges.refl
      . apply List.Pairwise.nil
      . simp
    obtain ⟨out, hrun, hsorts⟩ := outer_sorts (arr.drop (reached arr)) (reached arr - 1) (by omega) hinit
    rw [List.nil_append, List.take_append_drop, hlength, List.length_nil, Nat.add_zero] at hrun
    exact ⟨out, hrun, hsorts⟩

omit [DecidableLE T] [Std.Total fun a b : T => a ≤ b] in
theorem bubbleSort_of_least {arr : List T} (hsize : (sizeInt arr).val = -2147483648) : bubbleSort arr = none := by
  unfold bubbleSort
  rw [hsize, if_neg (by decide)]

theorem bubbleSort_sorts_iff (arr : List T)
    : (∃ out : List T, bubbleSort arr = some out ∧ StableSort.Sorts arr out)
        ↔
      (sizeInt arr).val ≠ -2147483648 ∧ StableSort.InPlace arr (reached arr) := by
  by_cases hsize : (sizeInt arr).val = -2147483648
  . rw [bubbleSort_of_least hsize]
    apply iff_of_false
    . intro ⟨_, hrun, _⟩
      cases hrun
    . exact fun h => h.left hsize
  . obtain ⟨out, hrun, hsorts⟩ := bubbleSort_eq hsize
    constructor
    . intro ⟨out', hrun', hout⟩
      rw [hrun] at hrun'
      cases hrun'
      exact ⟨hsize, (StableSort.sorts_append_drop hsorts).mp hout⟩
    . intro ⟨_, hrest⟩
      exact ⟨_, hrun, (StableSort.sorts_append_drop hsorts).mpr hrest⟩

end BubbleSort
end AlgApp
