import Mathlib
import ByDoing.AlgApp.Conversion
import ByDoing.Lib.Cells
import ByDoing.Lib.StableSort

namespace AlgApp
namespace InsertSort

open Conversion

universe u

variable {T : Type u} [Preorder T] [DecidableLT T] [Conversion T]

-- The inner loop and the store behind it, where the argument is `j + 1`.
def insertSort.insert (value : int) (arr : List T) : Nat → Option (List T)
  | 0 => Cells.write arr 0 (ofInt value)
  | j + 1 =>
    match arr[j]? with
    | none => none
    | some x =>
      if ofInt value < x then
        match Cells.write arr (j + 1) x with
        | none => none
        | some arr => insert value arr j
      else
        Cells.write arr (j + 1) (ofInt value)

-- The outer loop with `n` more values of `i`.
def insertSort.loop (arr : List T) (i : Nat) : (n : Nat) → Option (List T)
  | 0 => some arr
  | n + 1 =>
    match arr[i]? with
    | none => none
    | some x =>
      match insertSort.insert (toInt x) arr i with
      | none => none
      | some arr => loop arr (i + 1) n

def insertSort (arr : List T) : Option (List T) :=
  if arr.isEmpty then some arr else insertSort.loop arr 1 ((sizeInt arr).val - 1).toNat

theorem insert_eq (value : int) (done post : List T) (x : T)
    : ∃ front back : List T,
        done = front ++ back
          ∧ insertSort.insert value (done ++ x :: post) done.length = some (front ++ ofInt value :: back ++ post)
          ∧ (∀ y ∈ back, ofInt value < y) ∧ ∀ y ∈ front.getLast?, ¬ofInt value < y := by
  induction done using List.reverseRecOn generalizing x post with
  | nil =>
    refine ⟨[], [], rfl, ?_, by simp, by simp⟩
    simp [insertSort.insert, Cells.write]
  | append_singleton done y ih =>
    have hread := @Cells.read_here _ done done.length rfl y (x :: post)
    have hwrite : ∀ z, Cells.write (done ++ y :: x :: post) (done.length + 1) z = some (done ++ y :: z :: post) := by
      intro z
      simpa using @Cells.write_here _ (done ++ [y]) (done.length + 1) (by simp) x z post
    rw [List.length_append, List.length_singleton, insertSort.insert, List.append_assoc, List.singleton_append, hread]
    dsimp only
    by_cases hlt : ofInt value < y
    . obtain ⟨front, back, hdone, hrun, hback, hfront⟩ := ih (y :: post) y
      rw [if_pos hlt, hwrite]
      dsimp only
      rw [hrun]
      refine ⟨front, back ++ [y], by rw [hdone, List.append_assoc], by simp, ?_, hfront⟩
      rw [List.forall_mem_append, List.forall_mem_singleton]
      exact ⟨hback, hlt⟩
    . rw [if_neg hlt, hwrite]
      exact ⟨done ++ [y], [], by simp, by simp, by simp, by simpa using hlt⟩

section Total

variable [DecidableLE T] [Std.Total fun a b : T => a ≤ b]

omit [Conversion T] [DecidableLT T] in
theorem sorts_insert {l front back : List T} {v : T} (h : StableSort.Sorts l (front ++ back))
    (hback : ∀ y ∈ back, v < y) (hfront : ∀ y ∈ front.getLast?, ¬v < y)
    : StableSort.Sorts (l ++ [v]) (front ++ v :: back) := by
  obtain ⟨hrearranges, hsorted⟩ := h
  rw [List.pairwise_append] at hsorted
  obtain ⟨hleft, hright, hcross⟩ := hsorted
  have hle : ∀ y ∈ front, y ≤ v := by
    intro y hy
    obtain ⟨init, z, rfl⟩ : ∃ init z, front = init ++ [z] :=
      ⟨front.dropLast, _, (List.dropLast_append_getLast (List.ne_nil_of_mem hy)).symm⟩
    have hz : z ≤ v := StableSort.not_lt_iff_le.mp (hfront z (by simp))
    rw [List.mem_append, List.mem_singleton] at hy
    cases hy with
    | inl hy => exact le_trans ((List.pairwise_append.mp hleft).right.right y hy z (by simp)) hz
    | inr hy => exact hy ▸ hz
  constructor
  . apply (hrearranges.append (.refl [v])).trans
    rw [List.append_assoc]
    apply StableSort.Rearranges.append (.refl front) (.move hback)
  . rw [List.pairwise_append, List.pairwise_cons]
    refine ⟨hleft, ⟨fun y hy => le_of_lt (hback y hy), hright⟩, ?_⟩
    intro y hy
    rw [List.forall_mem_cons]
    exact ⟨hle y hy, hcross y hy⟩

theorem loop_sorts {l done : List T} (todo rest : List T) (h : StableSort.Sorts l done)
    : ∃ out : List T, insertSort.loop (done ++ (todo ++ rest)) done.length todo.length = some (out ++ rest)
        ∧ StableSort.Sorts (l ++ todo.map held) out := by
  induction todo generalizing l done with
  | nil =>
    refine ⟨done, by simp [insertSort.loop], ?_⟩
    simpa using h
  | cons x todo ih =>
    obtain ⟨front, back, rfl, hrun, hback, hfront⟩ := insert_eq (toInt x) done (todo ++ rest) x
    have hlength : (front ++ back).length + 1 = (front ++ ofInt (toInt x) :: back).length := by
      simp
      omega
    have hsorts := sorts_insert h hback hfront
    rw [List.length_cons, insertSort.loop, List.cons_append, Cells.read_here rfl]
    dsimp only
    rw [hrun, hlength, List.map_cons, List.append_cons l]
    apply ih hsorts

theorem insertSort_eq (arr : List T)
    : ∃ out : List T, insertSort arr = some (out ++ arr.drop (reached arr))
        ∧ StableSort.Sorts ((arr.take (reached arr)).take 1 ++ (arr.take (reached arr)).tail.map held) out := by
  have hcount : ((sizeInt arr).val - 1).toNat = reached arr - 1 := by
    unfold reached
    omega
  have hle := reached_le arr
  unfold insertSort
  rw [hcount]
  cases arr with
  | nil =>
    rw [List.take_nil, List.drop_nil]
    exact ⟨[], rfl, .refl [], .nil⟩
  | cons x arr =>
    rw [List.isEmpty_cons, if_neg Bool.false_ne_true]
    generalize reached (x :: arr) = n at hle ⊢
    cases n with
    | zero => exact ⟨[], rfl, .refl [], .nil⟩
    | succ n =>
      have hlength : (arr.take n).length = n := List.length_take_of_le (Nat.le_of_succ_le_succ hle)
      obtain ⟨out, hrun, hsorts⟩ := loop_sorts (arr.take n) (arr.drop n)
        (show StableSort.Sorts [x] [x] from ⟨.refl [x], List.pairwise_singleton _ x⟩)
      rw [List.take_append_drop, hlength] at hrun
      exact ⟨out, hrun, hsorts⟩

/--
`insert_sort` sorts what the elements behind the first one become in an `int`, as far as the `int` that holds the size
reaches. That is a stable sort of the vector exactly if they stay the same and the rest is in its place.
-/
theorem sorts_iff_held (arr : List T)
    : ∃ out : List T,
        insertSort arr = some out
          ∧ (StableSort.Sorts arr out
              ↔ (∀ x ∈ (arr.take (reached arr)).tail, held x = x) ∧ StableSort.InPlace arr (reached arr)) := by
  obtain ⟨out, hrun, hfront⟩ := insertSort_eq arr
  have htail : (arr.take (reached arr)).take 1 ++ (arr.take (reached arr)).tail = arr.take (reached arr) := by
    rw [← List.drop_one, List.take_append_drop]
  refine ⟨_, hrun, ?_⟩
  constructor
  . intro hsorts
    have hperm : out.Perm (arr.take (reached arr)) := by
      apply (List.perm_append_right_iff (arr.drop (reached arr))).mp
      rw [List.take_append_drop]
      exact hsorts.perm
    have hheld : ((arr.take (reached arr)).tail.map held).Perm (arr.take (reached arr)).tail := by
      apply (List.perm_append_left_iff ((arr.take (reached arr)).take 1)).mp
      rw [htail]
      exact hfront.perm.symm.trans hperm
    refine ⟨?_, ((StableSort.sorted_append_drop hperm).mp hsorts.sorted).right⟩
    intro y hy
    obtain ⟨z, _, hz⟩ := List.mem_map.mp (hheld.mem_iff.mpr hy)
    rw [← hz, held_held]
  . intro ⟨hheld, hrest⟩
    have hmap : (arr.take (reached arr)).tail.map held = (arr.take (reached arr)).tail := by
      rw [List.map_congr_left hheld, List.map_id']
    rw [hmap, htail] at hfront
    exact (StableSort.sorts_append_drop hfront).mpr hrest

theorem sorts_iff_held_ints
    : ∃ out : List int, insertSort [⟨2, by omega⟩, ⟨1, by omega⟩] = some out
        ∧ StableSort.Sorts [⟨2, by omega⟩, ⟨1, by omega⟩] out := by
  obtain ⟨out, hrun, hiff⟩ := sorts_iff_held ([⟨2, by omega⟩, ⟨1, by omega⟩] : List int)
  exact ⟨out, hrun, hiff.mpr ⟨fun _ _ => rfl, StableSort.inPlace_of_le (reached_of_lt (by decide)).ge⟩⟩

-- 19.1 becomes 19.
theorem not_sorts_arrf : ∃ out : List Rat, insertSort arrf = some out ∧ 19.1 ∉ out ∧ ¬StableSort.Sorts arrf out := by
  have hrun : insertSort arrf = some [0, 1, 1, 3, 4, 5, 10, 12, 17.5, 19, 19, 23, 25, 28] := by
    decide +kernel
  have hlost : (19.1 : Rat) ∉ ([0, 1, 1, 3, 4, 5, 10, 12, 17.5, 19, 19, 23, 25, 28] : List Rat) := by
    decide +kernel
  refine ⟨_, hrun, hlost, ?_⟩
  intro hsorts
  apply hlost
  apply hsorts.perm.mem_iff.mpr
  simp [arrf]

end Total

end InsertSort
end AlgApp
