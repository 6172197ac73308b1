import Mathlib
import ByDoing.AlgApp.Conversion
import ByDoing.Lib.Block
import ByDoing.Lib.Cells
import ByDoing.Lib.Checked
import ByDoing.Lib.StableSort

/-!
This module contains `merge_sort.cc`. An index is a natural number, and an access to the vector outside of its
elements is `none`. A store beyond the end of `tmp` has no effect; every call of `merge` records which elements it
accesses.
-/

namespace AlgApp
namespace MergeSort

open Checked Conversion

universe u

variable {T : Type u} [Preorder T] [DecidableLE T]

structure Merge (T : Type u) where
  tmp : List T
  i : Nat
  j : Nat
  k : Nat
  -- The indices of the stores into `tmp` and of the reads of `arr`.
  stores : List Nat
  reads : List Nat
  deriving Repr, DecidableEq

structure Call where
  left : Nat
  mid : Nat
  right : Nat
  stores : List Nat
  reads : List Nat
  deriving Repr, DecidableEq

-- `tmp[k++] = x`, where `x` has been read from the indices `reads`.
def Merge.push (s : Merge T) (x : T) (reads : List Nat) : Merge T :=
  { s with tmp := s.tmp.set s.k x, k := s.k + 1, stores := s.stores ++ [s.k], reads := s.reads ++ reads }

def merge.loop (arr : List T) (mid right : Nat) (s : Merge T) : Option (Merge T) :=
  if s.i < mid ∧ s.j < right then
    match arr[s.i]?, arr[s.j]? with
    | some x, some y =>
      if x ≤ y then
        loop arr mid right { s.push x [s.i, s.j, s.i] with i := s.i + 1 }
      else
        loop arr mid right { s.push y [s.i, s.j, s.j] with j := s.j + 1 }
    | _, _ => none
  else
    some s
termination_by (mid - s.i) + (right - s.j)
decreasing_by all_goals (simp only [Merge.push]; omega)

-- The bound is `right`, also for what is left of the first half.
def merge.copy (arr : List T) (right start : Nat) (s : Merge T) : Option (Merge T) :=
  if start < right then
    match arr[start]? with
    | some x => copy arr right (start + 1) (s.push x [start])
    | none => none
  else
    some s
termination_by right - start

-- The copy of `tmp` to `arr` with `n` more values of `i`.
def merge.back (tmp : List T) (left i : Nat) (arr : List T) : (n : Nat) → Option (List T)
  | 0 => some arr
  | n + 1 =>
    match tmp[i]? with
    | some x =>
      match Cells.write arr (left + i) x with
      | some arr => back tmp left (i + 1) arr n
      | none => none
    | none => none

section Default

-- What `vector<T> tmp(n)` is filled with.
variable [Inhabited T]

def merge (arr : List T) (left mid right : Nat) : Option (List T × Call) := do
  let tmp := List.replicate (right - left) default
  let s ← merge.loop arr mid right { tmp, i := left, j := mid, k := 0, stores := [], reads := [] }
  let s ← merge.copy arr right (if s.j < right then s.j else s.i) s
  let arr ← merge.back s.tmp left 0 arr (right - left)
  some (arr, { left, mid, right, stores := s.stores, reads := s.reads })

-- `right - 1` and `right - left + 1` have to be in the range of `int`.
def mergeHelper (arr : List T) (left : Nat) (right : Int) : Option (List T × List Call) :=
  if ¬InInt (right - 1) then
    none
  else if right - 1 ≤ left then
    some (arr, [])
  else if ¬InInt (right - left + 1) then
    none
  else do
    let mid := left + ((right - left + 1) / 2).toNat
    let (arr, first) ← mergeHelper arr left mid
    let (arr, second) ← mergeHelper arr mid right
    let (arr, call) ← merge arr left mid right.toNat
    some (arr, first ++ second ++ [call])
termination_by (right - left).toNat

def mergeSort (arr : List T) : Option (List T × List Call) :=
  mergeHelper arr 0 (sizeInt arr).val

end Default

def Leftover (xs ys : List T) : Prop :=
  ∃ x ∈ xs, ∀ y ∈ ys, y < x

omit [DecidableLE T] in
theorem leftover_cons_left {x y : T} (h : x ≤ y) (xs ys : List T)
    : Leftover (x :: xs) (y :: ys) ↔ Leftover xs (y :: ys) := by
  unfold Leftover
  rw [List.exists_mem_cons_iff]
  apply or_iff_right
  intro hall
  apply not_le_of_gt (hall y List.mem_cons_self) h

omit [DecidableLE T] in
theorem leftover_cons_right {x y : T} (h : y < x) (xs : List T) {ys : List T}
    (hsorted : (y :: ys).Pairwise (· ≤ ·))
    : Leftover (x :: xs) (y :: ys) ↔ Leftover (x :: xs) ys := by
  unfold Leftover
  constructor
  . intro ⟨z, hz, hall⟩
    refine ⟨z, hz, ?_⟩
    intro w hw
    apply hall w (List.mem_cons_of_mem y hw)
  . intro ⟨z, hz, hall⟩
    cases ys with
    | nil =>
      refine ⟨x, List.mem_cons_self, ?_⟩
      intro w hw
      rw [List.mem_singleton.mp hw]
      apply h
    | cons w ys =>
      refine ⟨z, hz, ?_⟩
      rw [List.forall_mem_cons]
      refine ⟨?_, hall⟩
      have hle : y ≤ w := List.rel_of_pairwise_cons hsorted List.mem_cons_self
      apply lt_of_le_of_lt hle (hall w List.mem_cons_self)

def NoLeftover (l : List T) : Prop :=
  if 1 < l.length then
    NoLeftover (l.take ((l.length + 1) / 2)) ∧ NoLeftover (l.drop ((l.length + 1) / 2))
      ∧ ¬Leftover (l.take ((l.length + 1) / 2)) (l.drop ((l.length + 1) / 2))
  else
    True
termination_by l.length
decreasing_by
  . rw [List.length_take]
    omega
  . rw [List.length_drop]
    omega

structure Call.InBounds (call : Call) : Prop where
  stores_lt : ∀ k ∈ call.stores, k < call.right - call.left
  reads_lt : ∀ r ∈ call.reads, r < call.right

/--
What the loop of `merge` keeps: the part of `tmp` before `k` with the merge of what is left of the halves is the merge
of the halves.
-/
structure Merging (arr : List T) (mid right : Nat) (xs ys : List T) (s : Merge T) : Prop where
  i_le : s.i ≤ mid
  j_le : s.j ≤ right
  tmp_length : s.tmp.length = xs.length + ys.length
  count_eq : s.k + (mid - s.i) + (right - s.j) = xs.length + ys.length
  merge_eq : xs.merge ys = s.tmp.take s.k ++ (Block.slice arr s.i mid).merge (Block.slice arr s.j right)
  stores_eq : s.stores = List.range s.k
  reads_lt : ∀ r ∈ s.reads, r < right
  unfinished : s.i < mid ∨ s.j < right
  sorted : (Block.slice arr s.j right).Pairwise (· ≤ ·)
  leftover_iff : Leftover xs ys ↔ Leftover (Block.slice arr s.i mid) (Block.slice arr s.j right)

omit [Preorder T] [DecidableLE T] in
theorem take_push {s : Merge T} (h : s.k < s.tmp.length) (x : T) (reads : List Nat)
    : (s.push x reads).tmp.take (s.push x reads).k = s.tmp.take s.k ++ [x] := by
  simp only [Merge.push]
  rw [List.take_add_one, List.getElem?_set_self h, List.take_set_of_le (Nat.le_refl _)]
  rfl

omit [Preorder T] [DecidableLE T] in
theorem push_stores {s : Merge T} (h : s.stores = List.range s.k) (x : T) (reads : List Nat)
    : (s.push x reads).stores = List.range (s.k + 1) := by
  simp only [Merge.push]
  rw [List.range_succ, h]

omit [Preorder T] [DecidableLE T] in
theorem push_reads_lt {s : Merge T} {right : Nat} (h : ∀ r ∈ s.reads, r < right) (x : T) {reads : List Nat}
    (hreads : ∀ r ∈ reads, r < right)
    : ∀ r ∈ (s.push x reads).reads, r < right := by
  intro r hr
  simp only [Merge.push, List.mem_append] at hr
  cases hr with
  | inl hr => apply h r hr
  | inr hr => apply hreads r hr

section Steps

variable {arr xs ys : List T} {mid right : Nat} {s : Merge T}

theorem Merging.takeLeft (h : Merging arr mid right xs ys s) (hi : s.i < mid) (hj : s.j < right)
    (hmid : mid ≤ right) (hright : right ≤ arr.length) (hle : arr[s.i] ≤ arr[s.j])
    : Merging arr mid right xs ys { s.push arr[s.i] [s.i, s.j, s.i] with i := s.i + 1 } := by
  have hcount := h.count_eq
  have hlength := h.tmp_length
  have htake := take_push (show s.k < s.tmp.length by omega) arr[s.i] [s.i, s.j, s.i]
  have hleft := Block.slice_cons hi (show mid ≤ arr.length by omega)
  have hslice := Block.slice_cons hj hright
  constructor
  . apply hi
  . apply h.j_le
  . simp only [Merge.push, List.length_set]
    apply hlength
  . simp only [Merge.push]
    omega
  . dsimp only
    rw [htake, h.merge_eq, hleft, hslice, List.cons_merge_cons_pos _ _ _ (by simpa using hle)]
    simp [Merge.push, hslice]
  . exact push_stores h.stores_eq arr[s.i] [s.i, s.j, s.i]
  . apply push_reads_lt h.reads_lt arr[s.i]
    intro r hr
    simp at hr
    omega
  . apply Or.inr hj
  . apply h.sorted
  . have hleftover := h.leftover_iff
    rw [hleft, hslice, leftover_cons_left hle, ← hslice] at hleftover
    apply hleftover

variable [Std.Total fun a b : T => a ≤ b]

theorem Merging.takeRight (h : Merging arr mid right xs ys s) (hi : s.i < mid) (hj : s.j < right)
    (hmid : mid ≤ right) (hright : right ≤ arr.length) (hle : ¬arr[s.i] ≤ arr[s.j])
    : Merging arr mid right xs ys { s.push arr[s.j] [s.i, s.j, s.j] with j := s.j + 1 } := by
  have hcount := h.count_eq
  have hlength := h.tmp_length
  have htake := take_push (show s.k < s.tmp.length by omega) arr[s.j] [s.i, s.j, s.j]
  have hleft := Block.slice_cons hi (show mid ≤ arr.length by omega)
  have hslice := Block.slice_cons hj hright
  have hsorted := h.sorted
  rw [hslice] at hsorted
  constructor
  . apply h.i_le
  . apply hj
  . simp only [Merge.push, List.length_set]
    apply hlength
  . simp only [Merge.push]
    omega
  . dsimp only
    rw [htake, h.merge_eq, hleft, hslice, List.cons_merge_cons_neg _ _ _ (by simpa using hle)]
    simp [Merge.push, hleft]
  . exact push_stores h.stores_eq arr[s.j] [s.i, s.j, s.j]
  . apply push_reads_lt h.reads_lt arr[s.j]
    intro r hr
    simp at hr
    omega
  . apply Or.inl hi
  . apply hsorted.of_cons
  . have hleftover := h.leftover_iff
    rw [hleft, hslice, leftover_cons_right (StableSort.not_le_iff_lt.mp hle) _ hsorted, ← hleft] at hleftover
    apply hleftover

omit [Std.Total fun a b : T => a ≤ b] in
theorem loop_eq (hi : s.i < mid) (hj : s.j < right) (hmid : mid ≤ right) (hright : right ≤ arr.length)
    : merge.loop arr mid right s
        =
      if arr[s.i] ≤ arr[s.j] then
        merge.loop arr mid right { s.push arr[s.i] [s.i, s.j, s.i] with i := s.i + 1 }
      else
        merge.loop arr mid right { s.push arr[s.j] [s.i, s.j, s.j] with j := s.j + 1 } := by
  rw [merge.loop, if_pos ⟨hi, hj⟩, List.getElem?_eq_getElem (show s.i < arr.length by omega),
    List.getElem?_eq_getElem (show s.j < arr.length by omega)]

theorem Merging.loop (hmid : mid ≤ right) (hright : right ≤ arr.length) (h : Merging arr mid right xs ys s)
    : ∃ s', merge.loop arr mid right s = some s' ∧ Merging arr mid right xs ys s' ∧ (s'.i = mid ∨ s'.j = right) := by
  induction s using merge.loop.induct arr mid right with
  | case1 s hlt x y hy hx hle ih =>
    obtain ⟨hi, hj⟩ := hlt
    rw [List.getElem?_eq_getElem (by omega), Option.some.injEq] at hx hy
    subst hx hy
    rw [loop_eq hi hj hmid hright, if_pos hle]
    apply ih (h.takeLeft hi hj hmid hright hle)
  | case2 s hlt x y hy hx hle ih =>
    obtain ⟨hi, hj⟩ := hlt
    rw [List.getElem?_eq_getElem (by omega), Option.some.injEq] at hx hy
    subst hx hy
    rw [loop_eq hi hj hmid hright, if_neg hle]
    apply ih (h.takeRight hi hj hmid hright hle)
  | case3 s hlt hnone =>
    obtain ⟨hi, hj⟩ := hlt
    exact absurd (List.getElem?_eq_getElem (by omega))
      (fun hx => hnone arr[s.i] arr[s.j] hx (List.getElem?_eq_getElem (by omega)))
  | case4 s hlt =>
    have := h.i_le
    have := h.j_le
    refine ⟨s, ?_, h, by omega⟩
    rw [merge.loop, if_neg hlt]

end Steps

omit [Preorder T] [DecidableLE T] in
theorem take_push_append (s : Merge T) (x : T) (reads : List Nat) (rest : List T)
    : ((s.push x reads).tmp.take (s.push x reads).k ++ rest).take s.tmp.length
        =
      (s.tmp.take s.k ++ x :: rest).take s.tmp.length := by
  cases Nat.lt_or_ge s.k s.tmp.length with
  | inl hlt =>
    rw [take_push hlt, List.append_assoc]
    rfl
  | inr hge =>
    simp only [Merge.push]
    rw [List.set_eq_of_length_le hge, List.take_of_length_le hge, List.take_of_length_le (Nat.le_succ_of_le hge),
      List.take_left, List.take_left]

omit [Preorder T] [DecidableLE T] in
theorem copy_eq {arr : List T} {right : Nat} (hright : right ≤ arr.length) (start : Nat) (hstart : start ≤ right)
    (s : Merge T) (hlength : s.tmp.length ≤ s.k + (right - start)) (hreads : ∀ r ∈ s.reads, r < right)
    (hstores : s.stores = List.range s.k)
    : ∃ s', merge.copy arr right start s = some s'
        ∧ s'.tmp = (s.tmp.take s.k ++ Block.slice arr start right).take s.tmp.length
        ∧ s'.stores = List.range (s.k + (right - start)) ∧ ∀ r ∈ s'.reads, r < right := by
  induction start, s using merge.copy.induct arr right with
  | case1 start s hlt x hx ih =>
    rw [List.getElem?_eq_getElem (by omega), Option.some.injEq] at hx
    subst hx
    have htmp : (s.push arr[start] [start]).tmp.length = s.tmp.length := by simp [Merge.push]
    have hk : (s.push arr[start] [start]).k = s.k + 1 := rfl
    have hreads' : ∀ r ∈ (s.push arr[start] [start]).reads, r < right := by
      apply push_reads_lt hreads
      intro r hr
      rw [List.mem_singleton.mp hr]
      exact hlt
    have hstores' := push_stores hstores arr[start] [start]
    obtain ⟨s', hcopy, htmp', hstores'', hreads''⟩ := ih (by omega) (by omega) hreads' hstores'
    rw [merge.copy, if_pos hlt, List.getElem?_eq_getElem (by omega)]
    refine ⟨s', hcopy, ?_, ?_, hreads''⟩
    . rw [htmp', htmp, take_push_append, ← Block.slice_cons hlt hright]
    . rw [hstores'', hk, show s.k + 1 + (right - (start + 1)) = s.k + (right - start) by omega]
  | case2 start s hlt hnone =>
    rw [List.getElem?_eq_getElem (by omega)] at hnone
    contradiction
  | case3 start s hlt =>
    have hend : start = right := by omega
    subst hend
    rw [Nat.sub_self, Nat.add_zero] at hlength ⊢
    rw [merge.copy, if_neg hlt, Block.slice_self, List.append_nil, List.take_of_length_le hlength, List.take_length]
    exact ⟨s, rfl, rfl, hstores, hreads⟩

omit [Preorder T] [DecidableLE T] in
theorem back_eq (ys : List T) (left i : Nat) (pre seg post : List T) {tmp : List T} (hi : left + i = pre.length)
    (htmp : tmp.drop i = ys) (hseg : seg.length = ys.length)
    : merge.back tmp left i (pre ++ seg ++ post) ys.length = some (pre ++ ys ++ post) := by
  induction ys generalizing i pre seg with
  | nil =>
    rw [List.length_nil, List.length_eq_zero_iff] at hseg
    rw [hseg]
    rfl
  | cons y ys ih =>
    cases seg with
    | nil => cases hseg
    | cons z seg =>
      have hread : tmp[i]? = some y := by
        rw [← List.head?_drop, htmp, List.head?_cons]
      have hrest : tmp.drop (i + 1) = ys := by
        rw [← List.tail_drop, htmp, List.tail_cons]
      rw [List.length_cons, merge.back, hread]
      dsimp only
      rw [List.append_assoc, List.cons_append, Cells.write_here hi]
      dsimp only
      have hback := ih (i + 1) (pre ++ [y]) seg (by simp; omega) hrest (by simpa using hseg)
      simpa using hback

section Default

variable [Inhabited T] [Std.Total fun a b : T => a ≤ b]

theorem merge_eq (pre xs ys post : List T) (hsorted : ys.Pairwise (· ≤ ·)) (hys : ys ≠ [])
    : ∃ call : Call,
        merge (pre ++ xs ++ ys ++ post) pre.length (pre.length + xs.length) (pre.length + xs.length + ys.length)
          = some (pre ++ xs.merge ys ++ post, call)
          ∧ call.left = pre.length ∧ call.right = pre.length + xs.length + ys.length
          ∧ (∀ r ∈ call.reads, r < call.right)
          ∧ ((∀ k ∈ call.stores, k < call.right - call.left) ↔ ¬Leftover xs ys) := by
  generalize harr : pre ++ xs ++ ys ++ post = arr
  generalize hmid : pre.length + xs.length = mid
  generalize hright : mid + ys.length = right
  have hxs : Block.slice arr pre.length mid = xs := by
    rw [← harr, ← hmid, List.append_assoc (pre ++ xs)]
    apply Block.slice_append_middle
  have hslice : Block.slice arr mid right = ys := by
    rw [← harr, ← hright, ← hmid, ← List.length_append]
    apply Block.slice_append_middle
  have hlength : right ≤ arr.length := by
    rw [← harr]
    simp
    omega
  have hpos := List.length_pos_iff.mpr hys
  have hinit : Merging arr mid right xs ys ⟨List.replicate (right - pre.length) default, pre.length, mid, 0, [], []⟩ := by
    constructor
    . dsimp only
      omega
    . dsimp only
      omega
    . rw [List.length_replicate]
      omega
    . dsimp only
      omega
    . rw [hxs, hslice]
      rfl
    . rfl
    . intro r hr
      cases hr
    . dsimp only
      omega
    . rw [hslice]
      apply hsorted
    . rw [hxs, hslice]
  obtain ⟨s, hloop, hs, hexit⟩ := hinit.loop (by omega) hlength
  obtain ⟨hi, hj, htmp, hcount, hmerge, hstores, hreads, hunfinished, _, hleftover⟩ := hs
  have htake : (s.tmp.take s.k).length = s.k := by
    rw [List.length_take]
    omega
  have hstart : (if s.j < right then s.j else s.i) ≤ right := by split <;> omega
  have hfill : s.tmp.length ≤ s.k + (right - (if s.j < right then s.j else s.i)) := by split <;> omega
  obtain ⟨s', hcopy, htmp', hstores', hreads'⟩ := copy_eq hlength _ hstart s hfill hreads hstores
  have hmerged : s'.tmp = xs.merge ys := by
    rw [htmp', hmerge]
    cases hexit with
    | inl hend =>
      rw [if_pos (by omega), hend, Block.slice_self, List.nil_merge, List.take_of_length_le]
      rw [List.length_append, htake, Block.length_slice _ _ _ hlength]
      omega
    | inr hend =>
      rw [if_neg (by omega), hend, Block.slice_self, List.merge_right,
        ← Block.slice_append_slice arr hi (show mid ≤ right by omega), ← List.append_assoc, List.take_left']
      rw [List.length_append, htake, Block.length_slice _ _ _ (by omega)]
      omega
  have hback := back_eq (xs.merge ys) pre.length 0 pre (xs ++ ys) post (Nat.add_zero _)
    (congrArg (List.drop 0) hmerged) (by simp)
  rw [← List.append_assoc, harr, List.length_merge, show xs.length + ys.length = right - pre.length by omega] at hback
  refine ⟨⟨pre.length, mid, right, s'.stores, s'.reads⟩, ?_, rfl, rfl, hreads', ?_⟩
  . unfold merge
    dsimp only
    rw [hloop, Option.bind_eq_bind, Option.bind_some, hcopy, Option.bind_eq_bind, Option.bind_some, hback]
    rfl
  . dsimp only
    rw [hstores', hleftover]
    cases hexit with
    | inl hend =>
      rw [if_pos (by omega), hend, Block.slice_self]
      apply iff_of_true
      . intro k hk
        rw [List.mem_range] at hk
        omega
      . intro ⟨x, hx, _⟩
        cases hx
    | inr hend =>
      rw [if_neg (by omega), hend, Block.slice_self]
      apply iff_of_false
      . intro hall
        have := hall (right - pre.length) (List.mem_range.mpr (by omega))
        omega
      . rw [not_not, Block.slice_cons (show s.i < mid by omega) (by omega)]
        refine ⟨_, List.mem_cons_self, ?_⟩
        intro y hy
        cases hy

omit [Inhabited T] [Std.Total fun a b : T => a ≤ b] in
theorem mergeSort_halves {l : List T} (h : 1 < l.length)
    : l.mergeSort = (l.take ((l.length + 1) / 2)).mergeSort.merge (l.drop ((l.length + 1) / 2)).mergeSort := by
  cases l with
  | nil => simp at h
  | cons a l =>
    cases l with
    | nil => simp at h
    | cons b l =>
      rw [List.mergeSort]
      simp

omit [DecidableLE T] [Inhabited T] [Std.Total fun a b : T => a ≤ b] in
theorem leftover_perm {xs xs' ys ys' : List T} (hxs : xs.Perm xs') (hys : ys.Perm ys')
    : Leftover xs ys ↔ Leftover xs' ys' := by
  unfold Leftover
  simp only [hxs.mem_iff, hys.mem_iff]

theorem mergeHelper_eq (seg pre post : List T) (hfits : pre.length + seg.length < 2147483647)
    : ∃ calls : List Call,
        mergeHelper (pre ++ seg ++ post) pre.length ((pre.length + seg.length : Nat) : Int)
          = some (pre ++ seg.mergeSort ++ post, calls)
          ∧ ((∀ call ∈ calls, call.InBounds) ↔ NoLeftover seg) := by
  induction hn : seg.length using Nat.strongRecOn generalizing seg pre post with
  | ind n ih =>
    subst hn
    rw [mergeHelper, NoLeftover, if_neg (by unfold InInt; omega)]
    by_cases hlong : 1 < seg.length
    . rw [if_neg (by omega), if_neg (by unfold InInt; omega), if_pos hlong]
      generalize hm : (seg.length + 1) / 2 = m
      have hhalf : (((pre.length + seg.length : Nat) : Int) - pre.length + 1) / 2 = m := by omega
      have htake : (seg.take m).length = m := by
        rw [List.length_take]
        omega
      have hdrop : (seg.drop m).length = seg.length - m := List.length_drop
      obtain ⟨first, hfirst, hfirstOk⟩ := ih m (by omega) (seg.take m) pre (seg.drop m ++ post) (by omega) htake
      obtain ⟨second, hsecond, hsecondOk⟩ := ih (seg.length - m) (by omega) (seg.drop m)
        (pre ++ (seg.take m).mergeSort) post
        (by
          rw [List.length_append, List.length_mergeSort]
          omega)
        hdrop
      obtain ⟨hperm, _⟩ := (StableSort.sorts_mergeSort (seg.take m)).toRearranges
      obtain ⟨⟨hperm', _⟩, hsorted⟩ := StableSort.sorts_mergeSort (seg.drop m)
      have hne : (seg.drop m).mergeSort ≠ [] := by
        rw [← List.length_pos_iff, List.length_mergeSort]
        omega
      obtain ⟨call, hcall, hleft, hright, hreads, hstores⟩ :=
        merge_eq pre (seg.take m).mergeSort (seg.drop m).mergeSort post hsorted hne
      have hseg : pre ++ seg ++ post = pre ++ seg.take m ++ seg.drop m ++ post := by
        rw [List.append_assoc pre (seg.take m), List.take_append_drop]
      have hright' : pre.length + m + (seg.length - m) = pre.length + seg.length := by omega
      rw [← List.append_assoc] at hfirst
      rw [List.length_append, List.length_mergeSort, htake, hright'] at hsecond
      rw [List.length_mergeSort, List.length_mergeSort, htake, hdrop, hright'] at hcall
      rw [hseg, hhalf, Int.toNat_natCast, Int.toNat_natCast]
      refine ⟨first ++ second ++ [call], ?_, ?_⟩
      . dsimp only
        rw [hfirst]
        dsimp only [Option.bind_eq_bind, Option.bind_some]
        rw [← List.append_assoc, hsecond]
        dsimp only [Option.bind_eq_bind, Option.bind_some]
        rw [hcall]
        dsimp only [Option.bind_eq_bind, Option.bind_some]
        rw [mergeSort_halves hlong, hm]
      . have hcallOk : call.InBounds ↔ ¬Leftover (seg.take m) (seg.drop m) := by
          rw [← leftover_perm hperm hperm', ← hstores]
          exact ⟨Call.InBounds.stores_lt, fun hlt => ⟨hlt, hreads⟩⟩
        rw [List.forall_mem_append, List.forall_mem_append, List.forall_mem_singleton, hfirstOk, hsecondOk, hcallOk,
          and_assoc]
    . rw [if_pos (by omega), if_neg hlong]
      refine ⟨[], ?_, by simp⟩
      have hsort : seg.mergeSort = seg := by
        cases seg with
        | nil => rw [List.mergeSort]
        | cons x seg =>
          cases seg with
          | nil => rw [List.mergeSort]
          | cons y seg => simp at hlong
      rw [hsort]

-- The size is not an `int` next to the ends of its range, where `right - 1` or `right - left + 1` is outside of it.
def SizeFits (arr : List T) : Prop :=
  (sizeInt arr).val ≠ -2147483648 ∧ (sizeInt arr).val ≠ 2147483647

omit [Std.Total fun a b : T => a ≤ b] in
theorem mergeSort_of_not_fits {arr : List T} (h : ¬SizeFits arr) : mergeSort arr = none := by
  unfold SizeFits at h
  unfold mergeSort
  rw [mergeHelper]
  by_cases hleast : (sizeInt arr).val = -2147483648
  . rw [if_pos (by unfold InInt; omega)]
  . have hgreatest : (sizeInt arr).val = 2147483647 := by omega
    rw [hgreatest, if_neg (by decide), if_neg (by decide), if_pos (by decide)]

theorem mergeSort_of_fits {arr : List T} (h : SizeFits arr)
    : ∃ calls : List Call,
        mergeSort arr = some ((arr.take (reached arr)).mergeSort ++ arr.drop (reached arr), calls)
          ∧ ((∀ call ∈ calls, call.InBounds) ↔ NoLeftover (arr.take (reached arr))) := by
  obtain ⟨hleast, hgreatest⟩ := h
  have hrange := (sizeInt arr).property
  unfold mergeSort
  by_cases hneg : (sizeInt arr).val < 0
  . have hreached : reached arr = 0 := by
      unfold reached
      omega
    rw [mergeHelper, if_neg (by unfold InInt; omega), if_pos (by omega), hreached, List.take_zero, List.drop_zero,
      List.mergeSort, NoLeftover]
    exact ⟨[], rfl, by simp⟩
  . have hlength : (arr.take (reached arr)).length = reached arr := List.length_take_of_le (reached_le arr)
    have hsize : (sizeInt arr).val = reached arr := by
      unfold reached
      omega
    obtain ⟨calls, hrun, hiff⟩ := mergeHelper_eq (arr.take (reached arr)) [] (arr.drop (reached arr)) (by
      rw [List.length_nil, hlength]
      omega)
    rw [List.length_nil, Nat.zero_add, List.nil_append, List.nil_append, List.take_append_drop, hlength, ← hsize] at hrun
    exact ⟨calls, hrun, hiff⟩

/--
`merge_sort` is a stable sort of the elements that the size in an `int` reaches.
-/
theorem mergeSort_sorts_iff (arr : List T)
    : (∃ (out : List T) (calls : List Call), mergeSort arr = some (out, calls) ∧ StableSort.Sorts arr out)
        ↔
      SizeFits arr ∧ StableSort.InPlace arr (reached arr) := by
  by_cases hfits : SizeFits arr
  . obtain ⟨calls, hrun, _⟩ := mergeSort_of_fits hfits
    have hsorts := StableSort.sorts_append_drop (StableSort.sorts_mergeSort (arr.take (reached arr)))
    constructor
    . intro ⟨out, calls', hrun', hout⟩
      rw [hrun] at hrun'
      cases hrun'
      exact ⟨hfits, hsorts.mp hout⟩
    . intro ⟨_, hrest⟩
      exact ⟨_, calls, hrun, hsorts.mpr hrest⟩
  . rw [mergeSort_of_not_fits hfits]
    apply iff_of_false
    . intro ⟨_, _, hrun, _⟩
      cases hrun
    . exact fun h => hfits h.left

theorem mergeSort_sorts_ints
    : ∃ (out : List Int) (calls : List Call),
        mergeSort [61, 17, 29, 17] = some (out, calls) ∧ StableSort.Sorts [61, 17, 29, 17] out :=
  (mergeSort_sorts_iff ([61, 17, 29, 17] : List Int)).mpr
    ⟨⟨by decide, by decide⟩, StableSort.inPlace_of_le (reached_of_lt (by decide)).ge⟩

-- Nothing is sorted.
theorem not_sorts_wrapping
    : ¬∃ (out : List Int) (calls : List Call), mergeSort wrapping = some (out, calls) ∧ StableSort.Sorts wrapping out := by
  have hfits : SizeFits wrapping := by
    unfold SizeFits
    rw [sizeInt_wrapping]
    exact ⟨by decide, by decide⟩
  obtain ⟨calls, hrun, _⟩ := mergeSort_of_fits hfits
  intro ⟨out, calls', hrun', hout⟩
  rw [hrun] at hrun'
  cases hrun'
  apply not_inPlace_wrapping
  exact (StableSort.sorts_append_drop (StableSort.sorts_mergeSort _)).mp hout

/--
The calls of `merge` stay inside of `tmp` and of their range exactly for the vectors in which no range has an element
in its first half that is greater than all of its second half.
-/
theorem inBounds_iff_noLeftover (arr : List T)
    : (∃ (out : List T) (calls : List Call), mergeSort arr = some (out, calls) ∧ ∀ call ∈ calls, call.InBounds)
        ↔
      SizeFits arr ∧ NoLeftover (arr.take (reached arr)) := by
  by_cases hfits : SizeFits arr
  . obtain ⟨calls, hrun, hiff⟩ := mergeSort_of_fits hfits
    rw [hrun]
    constructor
    . intro ⟨out, calls', hrun', hok⟩
      cases hrun'
      exact ⟨hfits, hiff.mp hok⟩
    . intro ⟨_, hleftover⟩
      exact ⟨_, calls, rfl, hiff.mpr hleftover⟩
  . rw [mergeSort_of_not_fits hfits]
    apply iff_of_false
    . intro ⟨_, _, hrun, _⟩
      cases hrun
    . exact fun h => hfits h.left

theorem inBounds_ascendingHalves
    : ∃ (out : List Int) (calls : List Call),
        mergeSort [1, 3, 2, 4] = some (out, calls) ∧ ∀ call ∈ calls, call.InBounds := by
  apply (inBounds_iff_noLeftover ([1, 3, 2, 4] : List Int)).mpr
  refine ⟨⟨by decide, by decide⟩, ?_⟩
  rw [reached_of_lt (by decide), List.take_length]
  simp [NoLeftover, Leftover]

-- The copy of the 2 goes on with the 1, which is stored behind the two elements of `tmp`.
theorem not_inBounds_descending
    : ∃ call : Call,
        mergeSort ([2, 1] : List Int) = some ([1, 2], [call])
          ∧ call.right - call.left = 2 ∧ 2 ∈ call.stores ∧ ¬call.InBounds := by
  have hrun : mergeSort ([2, 1] : List Int) = some ([1, 2], [⟨0, 1, 2, [0, 1, 2], [0, 1, 1, 0, 1]⟩]) := by
    decide +kernel
  refine ⟨_, hrun, rfl, by decide, ?_⟩
  intro hok
  have hlt := hok.stores_lt 2 (by decide)
  contradiction

end Default

end MergeSort
end AlgApp
