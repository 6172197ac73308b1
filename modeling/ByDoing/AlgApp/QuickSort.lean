import Mathlib
import ByDoing.AlgApp.Conversion
import ByDoing.Lib.Cells
import ByDoing.Lib.Checked
import ByDoing.Lib.StableSort

namespace AlgApp
namespace QuickSort

open Checked Conversion

universe u

variable {T : Type u} [Preorder T] [DecidableLT T] [Conversion T]

-- The loop of `partition` with `n` more values of `j`.
def partition.loop (midVal : int) (arr : List T) (i j : Nat) : (n : Nat) → Option (List T × Nat)
  | 0 => some (arr, i)
  | n + 1 =>
    match arr[j]? with
    | none => none
    | some x =>
      if x < ofInt midVal then
        match Cells.swap arr i j with
        | none => none
        | some arr => loop midVal arr (i + 1) (j + 1) n
      else
        loop midVal arr i (j + 1) n

def partition (arr : List T) (left right : Nat) : Option (List T × Nat) :=
  match arr[right - 1]? with
  | none => none
  | some x =>
    match partition.loop (toInt x) arr left left (right - 1 - left) with
    | none => none
    | some (arr, i) => (Cells.swap arr i (right - 1)).map fun arr => (arr, i)

theorem partition.loop_bounds {midVal : int} {arr arr' : List T} {i i' j n : Nat}
    (h : loop midVal arr i j n = some (arr', i'))
    : i ≤ i' ∧ i' ≤ i + n := by
  induction n generalizing arr i j with
  | zero =>
    cases h
    omega
  | succ n ih =>
    rw [loop] at h
    split at h
    . cases h
    . split at h
      . split at h
        . cases h
        . have := ih h
          omega
      . have := ih h
        omega

theorem partition_bounds {arr arr' : List T} {left right mid : Nat} (hrange : left < right)
    (h : partition arr left right = some (arr', mid))
    : left ≤ mid ∧ mid < right := by
  unfold partition at h
  split at h
  . cases h
  . split at h
    . cases h
    . next hloop =>
      rw [Option.map_eq_some_iff] at h
      obtain ⟨_, _, heq⟩ := h
      cases heq
      have := partition.loop_bounds hloop
      omega

-- `right - 1` has to be in the range of `int`.
def quickHelper (arr : List T) (left : Nat) (right : Int) : Option (List T) :=
  if ¬InInt (right - 1) then
    none
  else if _hshort : right - 1 ≤ left then
    some arr
  else
    match _hmid : partition arr left right.toNat with
    | none => none
    | some (arr, mid) =>
      match quickHelper arr left mid with
      | none => none
      | some arr => quickHelper arr (mid + 1) right
termination_by (right - left).toNat
decreasing_by
  . have := partition_bounds (by omega) _hmid
    omega
  . have := partition_bounds (by omega) _hmid
    omega

def quickSort (arr : List T) : Option (List T) :=
  if arr.isEmpty then some arr else quickHelper arr 0 (sizeInt arr).val

/-
The elements of a range that are not less than the pivot, as `partition` leaves them: each one that is less changes
places with the first of them.
-/
def notLess (pivot : T) (large : List T) : List T → List T
  | [] => large
  | x :: l => if x < pivot then notLess pivot (large.rotate 1) l else notLess pivot (large ++ [x]) l

omit [Conversion T] in
theorem notLess_perm (pivot : T) (large l : List T)
    : (notLess pivot large l).Perm (large ++ l.filter fun x => ¬x < pivot) := by
  induction l generalizing large with
  | nil => simp [notLess]
  | cons x l ih =>
    rw [notLess]
    split
    . next hlt =>
      apply (ih (large.rotate 1)).trans
      simpa [hlt] using (List.rotate_perm large 1).append_right _
    . next hlt =>
      apply (ih (large ++ [x])).trans
      simp [hlt]

omit [Preorder T] [DecidableLT T] [Conversion T] in
theorem swap_rotate (pre large post : List T) (x : T) {i j : Nat} (hi : i = pre.length) (hj : j = i + large.length)
    : Cells.swap (pre ++ large ++ x :: post) i j = some (pre ++ x :: large.rotate 1 ++ post) := by
  cases large with
  | nil =>
    rw [show j = i from hj, List.append_nil, Cells.swap_same hi]
    simp
  | cons y large =>
    rw [List.length_cons] at hj
    have hswap := @Cells.swap_here _ pre i large j hi (by omega) y x post
    rw [List.append_assoc, List.cons_append, hswap]
    simp

theorem loop_eq (midVal : int) (pre small large l post : List T) {i j : Nat} (hi : i = pre.length + small.length)
    (hj : j = i + large.length)
    : partition.loop midVal (pre ++ small ++ large ++ (l ++ post)) i j l.length
        =
      some
        (pre ++ (small ++ l.filter fun x => x < ofInt midVal) ++ notLess (ofInt midVal) large l ++ post,
          i + (l.filter fun x => x < ofInt midVal).length) := by
  induction l generalizing small large i j with
  | nil => simp [partition.loop, notLess]
  | cons x l ih =>
    have hread := @Cells.read_here _ (pre ++ small ++ large) j (by simp; omega) x (l ++ post)
    rw [List.length_cons, partition.loop, List.cons_append, hread]
    dsimp only
    split
    . next hlt =>
      rw [swap_rotate (pre ++ small) large (l ++ post) x (by simp [hi]) hj]
      dsimp only
      have hrest := @ih (small ++ [x]) (large.rotate 1) (i + 1) (j + 1) (by simp; omega) (by simp; omega)
      rw [Nat.add_assoc i 1, Nat.add_comm 1] at hrest
      simp [hlt, notLess] at hrest ⊢
      exact hrest
    . next hlt =>
      have hrest := @ih small (large ++ [x]) i (j + 1) hi (by simp; omega)
      simp [hlt, notLess] at hrest ⊢
      exact hrest

theorem partition_eq (pre rest post : List T) (p : T)
    : partition (pre ++ (rest ++ [p]) ++ post) pre.length (pre.length + (rest.length + 1))
        =
      some
        (pre ++ ((rest.filter fun x => x < held p) ++ p :: (notLess (held p) [] rest).rotate 1) ++ post,
          pre.length + (rest.filter fun x => x < held p).length) := by
  have hperm := (notLess_perm (held p) [] rest).length_eq
  have hcount := (List.filter_append_perm (fun x => x < held p) rest).length_eq
  have hread := @Cells.read_here _ (pre ++ rest) (pre.length + rest.length) (by simp) p post
  have hloop := @loop_eq _ _ _ _ (toInt p) pre [] [] rest (p :: post) pre.length pre.length (by simp) (by simp)
  have hswap := @swap_rotate _ (pre ++ rest.filter fun x => x < held p) (notLess (held p) [] rest) post p
    (pre.length + (rest.filter fun x => x < held p).length) (pre.length + rest.length) (by simp)
    (by
      simp at hperm hcount
      omega)
  unfold partition
  rw [show pre ++ (rest ++ [p]) ++ post = pre ++ rest ++ p :: post by simp,
    show pre.length + (rest.length + 1) - 1 = pre.length + rest.length by omega, hread, Nat.add_sub_cancel_left]
  dsimp only
  simp only [List.append_nil, List.nil_append] at hloop
  rw [List.append_assoc pre, hloop]
  dsimp only
  rw [← held, hswap]
  simp

-- An element between the pivot and the one that its `int` stands for would be on the wrong side of the pivot.
def Apart (x pivot : T) : Prop :=
  (x < held pivot → x ≤ pivot) ∧ (¬x < held pivot → pivot ≤ x)

/--
In every range that is divided, no element lies between the pivot and the `int` that holds it.
-/
def Separated (l : List T) : Prop :=
  if h : 1 < l.length then
    let pivot := l.getLast (List.ne_nil_of_length_pos (by omega))
    (∀ x ∈ l.dropLast, Apart x pivot) ∧ Separated (l.dropLast.filter fun x => x < held pivot)
      ∧ Separated ((notLess (held pivot) [] l.dropLast).rotate 1)
  else
    True
termination_by l.length
decreasing_by
  . apply Nat.lt_of_le_of_lt (List.length_filter_le _ _)
    rw [List.length_dropLast]
    omega
  . rw [List.length_rotate, (notLess_perm _ _ _).length_eq, List.nil_append]
    apply Nat.lt_of_le_of_lt (List.length_filter_le _ _)
    rw [List.length_dropLast]
    omega

theorem separated_short {l : List T} (h : l.length ≤ 1) : Separated l := by
  rw [Separated, dif_neg (by omega)]
  trivial

theorem separated_concat (rest : List T) (p : T)
    : Separated (rest ++ [p])
        ↔
      (∀ x ∈ rest, Apart x p) ∧ Separated (rest.filter fun x => x < held p)
        ∧ Separated ((notLess (held p) [] rest).rotate 1) := by
  cases rest with
  | nil =>
    apply iff_of_true
    . apply separated_short
      simp
    . refine ⟨by simp, ?_, ?_⟩
      . apply separated_short
        simp
      . apply separated_short
        simp [notLess]
  | cons x rest =>
    rw [Separated, dif_pos (by simp)]
    simp only [List.getLast_concat, List.dropLast_concat]

omit [DecidableLT T] [Conversion T] in
theorem sorted_parts {small large small' large' : List T} {p : T} (hsmall : small'.Perm small)
    (hlarge : large'.Perm large)
    : (small' ++ p :: large').Pairwise (· ≤ ·)
        ↔
      ((∀ x ∈ small, x ≤ p) ∧ ∀ x ∈ large, p ≤ x) ∧ small'.Pairwise (· ≤ ·) ∧ large'.Pairwise (· ≤ ·) := by
  rw [List.pairwise_append, List.pairwise_cons]
  simp only [List.forall_mem_cons]
  constructor
  . intro ⟨hleft, ⟨hle, hright⟩, hcross⟩
    refine ⟨⟨?_, ?_⟩, hleft, hright⟩
    . intro x hx
      apply (hcross x (hsmall.mem_iff.mpr hx)).left
    . intro x hx
      apply hle x (hlarge.mem_iff.mpr hx)
  . intro ⟨⟨hsmall', hlarge'⟩, hleft, hright⟩
    have hle : ∀ x ∈ large', p ≤ x := fun x hx => hlarge' x (hlarge.mem_iff.mp hx)
    refine ⟨hleft, ⟨hle, hright⟩, ?_⟩
    intro x hx
    have hx := hsmall' x (hsmall.mem_iff.mp hx)
    refine ⟨hx, ?_⟩
    intro y hy
    apply le_trans hx (hle y hy)

omit [DecidableLT T] [Conversion T] in
theorem sorted_short {l : List T} (h : l.length ≤ 1) : l.Pairwise (· ≤ ·) := by
  cases l with
  | nil => apply List.Pairwise.nil
  | cons x l =>
    have hnil : l = [] := by
      rw [List.length_cons] at h
      apply List.length_eq_zero_iff.mp
      omega
    rw [hnil]
    apply List.pairwise_singleton

omit [Conversion T] in
theorem large_perm (pivot : T) (rest : List T)
    : ((notLess pivot [] rest).rotate 1).Perm (rest.filter fun x => ¬x < pivot) :=
  (List.rotate_perm _ 1).trans (notLess_perm pivot [] rest)

omit [Conversion T] in
theorem parts_perm (pivot : T) (rest : List T)
    : ((rest.filter fun x => x < pivot) ++ (notLess pivot [] rest).rotate 1).Perm rest := by
  apply (List.Perm.append_left _ (large_perm pivot rest)).trans
  simpa using List.filter_append_perm (fun x => decide (x < pivot)) rest

theorem sides_iff (p : T) (rest : List T)
    : ((∀ x ∈ rest.filter fun x => x < held p, x ≤ p) ∧ ∀ x ∈ (notLess (held p) [] rest).rotate 1, p ≤ x)
        ↔
      ∀ x ∈ rest, Apart x p := by
  simp only [(large_perm (held p) rest).mem_iff, List.mem_filter, decide_eq_true_eq, Apart]
  constructor
  . intro ⟨hleft, hright⟩ x hx
    exact ⟨fun hlt => hleft x ⟨hx, hlt⟩, fun hnot => hright x ⟨hx, hnot⟩⟩
  . intro hall
    constructor
    . intro x ⟨hx, hlt⟩
      apply (hall x hx).left hlt
    . intro x ⟨hx, hnot⟩
      apply (hall x hx).right hnot

theorem quickHelper_eq (seg pre post : List T) (hfits : pre.length + seg.length < 2147483648)
    : ∃ out : List T,
        quickHelper (pre ++ seg ++ post) pre.length ((pre.length + seg.length : Nat) : Int)
            = some (pre ++ out ++ post)
          ∧ out.Perm seg ∧ (out.Pairwise (· ≤ ·) ↔ Separated seg) := by
  induction hn : seg.length using Nat.strongRecOn generalizing seg pre post with
  | ind n ih =>
    subst hn
    have hright : InInt (((pre.length + seg.length : Nat) : Int) - 1) := by
      unfold InInt
      omega
    by_cases hshort : seg.length ≤ 1
    . rw [quickHelper, if_neg (not_not.mpr hright), dif_pos (by omega)]
      exact ⟨seg, rfl, .refl seg, iff_of_true (sorted_short hshort) (separated_short hshort)⟩
    . obtain ⟨rest, p, rfl⟩ : ∃ rest p, seg = rest ++ [p] :=
        ⟨seg.dropLast, _, (List.dropLast_append_getLast (List.ne_nil_of_length_pos (by omega))).symm⟩
      have hpartition := partition_eq pre rest post p
      have hparts := parts_perm (held p) rest
      have hsides := sides_iff p rest
      have hseparated := separated_concat rest p
      generalize (rest.filter fun x => x < held p) = small at *
      generalize (notLess (held p) [] rest).rotate 1 = large at *
      have hcount := hparts.length_eq
      have hlength : (rest ++ [p]).length = rest.length + 1 := by simp
      rw [List.length_append] at hcount
      obtain ⟨out, hout, hperm, hiff⟩ := ih small.length (by omega) small pre (p :: large ++ post) (by omega) rfl
      obtain ⟨out', hout', hperm', hiff'⟩ := ih large.length (by omega) large (pre ++ out ++ [p]) post
        (by
          simp [hperm.length_eq]
          omega)
        rfl
      have hfirst : pre ++ (small ++ p :: large) ++ post = pre ++ small ++ (p :: large ++ post) := by simp
      have hsecond : pre ++ out ++ (p :: large ++ post) = pre ++ out ++ [p] ++ large ++ post := by simp
      have hleft : (pre ++ out ++ [p]).length = pre.length + small.length + 1 := by
        simp [hperm.length_eq]
        omega
      have hend : pre.length + small.length + 1 + large.length = pre.length + (rest.length + 1) := by omega
      refine ⟨out ++ p :: out', ?_, ?_, ?_⟩
      . rw [quickHelper, if_neg (not_not.mpr hright), dif_neg (by omega), Int.toNat_natCast]
        split
        . next hnone =>
          rw [hlength, hpartition] at hnone
          cases hnone
        . next hsome =>
          rw [hlength, hpartition] at hsome
          cases hsome
          rw [hfirst, hout]
          dsimp only
          rw [hleft, hend] at hout'
          rw [hsecond, hlength, hout']
          simp
      . apply (List.perm_middle.trans ((hperm.append hperm').cons p)).trans
        apply (hparts.cons p).trans
        apply (List.perm_append_singleton p rest).symm
      . rw [sorted_parts hperm hperm', hsides, hseparated, hiff, hiff']

theorem quickSort_eq {arr : List T} (hsize : (sizeInt arr).val ≠ -2147483648)
    : ∃ out : List T,
        quickSort arr = some (out ++ arr.drop (reached arr))
          ∧ out.Perm (arr.take (reached arr))
          ∧ (out.Pairwise (· ≤ ·) ↔ Separated (arr.take (reached arr))) := by
  have hrange := (sizeInt arr).property
  unfold quickSort
  split
  . next hempty =>
    rw [List.isEmpty_iff.mp hempty, List.take_nil, List.drop_nil]
    exact ⟨[], rfl, .refl [], iff_of_true .nil (separated_short (Nat.zero_le 1))⟩
  . by_cases hneg : (sizeInt arr).val < 0
    . have hreached : reached arr = 0 := by
        unfold reached
        omega
      rw [quickHelper, if_neg (by unfold InInt; omega), dif_pos (by omega), hreached, List.take_zero, List.drop_zero]
      exact ⟨[], rfl, .refl [], iff_of_true .nil (separated_short (Nat.zero_le 1))⟩
    . have hlength : (arr.take (reached arr)).length = reached arr := List.length_take_of_le (reached_le arr)
      have hval : (sizeInt arr).val = reached arr := by
        unfold reached
        omega
      obtain ⟨out, hrun, hperm, hiff⟩ := quickHelper_eq (arr.take (reached arr)) [] (arr.drop (reached arr)) (by
        rw [List.length_nil, hlength]
        omega)
      rw [List.length_nil, Nat.zero_add, List.nil_append, List.nil_append, List.take_append_drop, hlength, ← hval] at hrun
      exact ⟨out, hrun, hperm, hiff⟩

/--
`quick_sort` ends with a sorted permutation of the vector exactly if no pivot loses its place in an `int`, and what the
size in an `int` does not reach is in its place.
-/
theorem sorted_iff_separated (arr : List T)
    : (∃ out : List T, quickSort arr = some out ∧ out.Perm arr ∧ out.Pairwise (· ≤ ·))
        ↔
      (sizeInt arr).val ≠ -2147483648 ∧ Separated (arr.take (reached arr)) ∧ StableSort.InPlace arr (reached arr) := by
  by_cases hsize : (sizeInt arr).val = -2147483648
  . have hnone : quickSort arr = none := by
      unfold quickSort
      split
      . next hempty =>
        have hzero := @sizeInt_of_lt T [] (by simp)
        rw [List.isEmpty_iff.mp hempty, hzero, List.length_nil] at hsize
        omega
      . rw [quickHelper, hsize, if_pos (by decide)]
    rw [hnone]
    apply iff_of_false
    . intro ⟨_, hrun, _⟩
      cases hrun
    . exact fun h => h.left hsize
  . obtain ⟨out, hrun, hperm, hiff⟩ := quickSort_eq hsize
    have hsorted := StableSort.sorted_append_drop hperm
    rw [hiff] at hsorted
    constructor
    . intro ⟨out', hrun', _, hout⟩
      rw [hrun] at hrun'
      cases hrun'
      exact ⟨hsize, hsorted.mp hout⟩
    . intro ⟨_, hparts⟩
      have hall := hperm.append_right (arr.drop (reached arr))
      rw [List.take_append_drop] at hall
      exact ⟨_, hrun, hall, hsorted.mpr hparts⟩

theorem separated_of_held [Std.Total fun a b : T => a ≤ b] {l : List T} (h : ∀ x ∈ l, held x = x) : Separated l := by
  induction hn : l.length using Nat.strongRecOn generalizing l with
  | ind n ih =>
    subst hn
    by_cases hshort : l.length ≤ 1
    . apply separated_short hshort
    . obtain ⟨rest, p, rfl⟩ : ∃ rest p, l = rest ++ [p] :=
        ⟨l.dropLast, _, (List.dropLast_append_getLast (List.ne_nil_of_length_pos (by omega))).symm⟩
      rw [List.forall_mem_append, List.forall_mem_singleton] at h
      have hparts := parts_perm (held p) rest
      have hcount := hparts.length_eq
      rw [List.length_append] at hcount
      have hmem : ∀ x, x ∈ (rest.filter fun x => x < held p) ++ (notLess (held p) [] rest).rotate 1 → held x = x :=
        fun x hx => h.left x (hparts.mem_iff.mp hx)
      rw [separated_concat]
      refine ⟨?_, ?_, ?_⟩
      . intro x _
        rw [Apart, h.right]
        exact ⟨le_of_lt, StableSort.not_lt_iff_le.mp⟩
      . apply ih _ _ (fun x hx => hmem x (List.mem_append_left _ hx)) rfl
        rw [List.length_append, List.length_singleton]
        omega
      . apply ih _ _ (fun x hx => hmem x (List.mem_append_right _ hx)) rfl
        rw [List.length_append, List.length_singleton]
        omega

theorem separated_ints (l : List int) : Separated l :=
  separated_of_held fun _ _ => rfl

-- The pivot 19.7 is held as 19, and 19.1 stays behind it.
theorem not_sorted_arrf : ∃ out : List Rat, quickSort arrf = some out ∧ ¬out.Pairwise (· ≤ ·) := by
  have hrun : quickSort arrf
      = some [0.6, 1.5, 1.9, 3.8, 4.4, 5.4, 10.5, 12.4, 17.5, 19.7, 19.1, 23.8, 25.4, 28.6] := by
    decide +kernel
  refine ⟨_, hrun, ?_⟩
  intro hsorted
  have hle : (19.7 : Rat) ≤ 19.1 := by
    apply List.pairwise_iff_getElem.mp hsorted 9 10 <;> simp
  exact absurd hle (by decide +kernel)

end QuickSort
end AlgApp
