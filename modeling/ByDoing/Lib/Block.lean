import Mathlib.Data.List.Basic
import Mathlib.Data.List.TakeWhile

namespace Block

universe u

variable {α : Type u}

def store (block : List α) (off : Nat) (src : List α) : Option (List α) :=
  if off + src.length ≤ block.length then
    some (block.take off ++ src ++ block.drop (off + src.length))
  else
    none

def slice (block : List α) (lo hi : Nat) : List α :=
  (block.take hi).drop lo

def shiftDown (block : List α) (src : Nat) : Nat → List α
  | 0 => block
  | n + 1 =>
    let moved := shiftDown block src n
    match moved[src + n]? with
    | some x => moved.set n x
    | none => moved

theorem length_slice (block : List α) (lo hi : Nat) (h : hi ≤ block.length)
    : (slice block lo hi).length = hi - lo := by
  unfold slice
  rw [List.length_drop, List.length_take]
  omega

@[simp]
theorem slice_self (block : List α) (lo : Nat)
    : slice block lo lo = [] := by
  unfold slice
  apply List.drop_eq_nil_of_le
  rw [List.length_take]
  omega

@[simp]
theorem slice_zero_length (block : List α)
    : slice block 0 block.length = block := by
  simp [slice]

theorem slice_cons {block : List α} {lo hi : Nat} (hlo : lo < hi) (hhi : hi ≤ block.length)
    : slice block lo hi = block[lo] :: slice block (lo + 1) hi := by
  unfold slice
  rw [List.drop_eq_getElem_cons (by rw [List.length_take]; omega), List.getElem_take]

theorem slice_append_slice (block : List α) {lo mid hi : Nat} (hlo : lo ≤ mid) (hhi : mid ≤ hi)
    : slice block lo mid ++ slice block mid hi = slice block lo hi := by
  unfold slice
  have htake : block.take mid = (block.take hi).take mid := by
    rw [List.take_take, Nat.min_eq_left hhi]
  rw [htake, ← List.take_append_drop (mid - lo) ((block.take hi).drop lo), List.drop_take, List.drop_drop,
    show lo + (mid - lo) = mid by omega]

theorem slice_append_middle (pre xs post : List α)
    : slice (pre ++ xs ++ post) pre.length (pre.length + xs.length) = xs := by
  unfold slice
  rw [← List.length_append, List.take_left, List.drop_left]

theorem slice_append_right (block extra : List α) (lo hi : Nat) (h : hi ≤ block.length)
    : slice (block ++ extra) lo hi = slice block lo hi := by
  unfold slice
  rw [List.take_append_of_le_length h]

theorem drop_slice (block : List α) (lo hi n : Nat)
    : (slice block lo hi).drop n = slice block (lo + n) hi := by
  unfold slice
  rw [List.drop_drop]

theorem store_eq_some {block : List α} {off : Nat} {src : List α}
    (h : off + src.length ≤ block.length)
    : store block off src = some (block.take off ++ src ++ block.drop (off + src.length)) := by
  unfold store
  rw [if_pos h]

theorem length_of_store {block block' src : List α} {off : Nat} (h : store block off src = some block')
    : block'.length = block.length := by
  unfold store at h
  split at h
  . next hfit =>
    rw [← Option.some.inj h]
    simp only [List.length_append, List.length_take, List.length_drop]
    omega
  . simp at h

theorem slice_of_store {block block' src : List α} {lo off : Nat} (hlo : lo ≤ off)
    (h : store block off src = some block')
    : slice block' lo (off + src.length) = slice block lo off ++ src := by
  unfold store at h
  split at h
  . next hfit =>
    rw [← Option.some.inj h]
    have hlen : (block.take off ++ src).length = off + src.length := by
      simp only [List.length_append, List.length_take]
      omega
    have hoff : lo ≤ (block.take off).length := by
      rw [List.length_take]
      omega
    unfold slice
    rw [← hlen, List.take_left, List.drop_append_of_le_length hoff]
  . simp at h

theorem takeWhile_append_terminator {x : α} [BEq α] [LawfulBEq α] {src rest : List α} (h : x ∉ src)
    : (src ++ x :: rest).takeWhile (· != x) = src := by
  have hall : ∀ c ∈ src, (c != x) = true := by
    intro c hc
    rw [bne_iff_ne]
    intro heq
    exact h (heq ▸ hc)
  rw [List.takeWhile_append_of_pos hall]
  simp

theorem length_shiftDown (block : List α) (src n : Nat)
    : (shiftDown block src n).length = block.length := by
  induction n with
  | zero => rfl
  | succ n ih =>
    unfold shiftDown
    dsimp
    split
    . rw [List.length_set, ih]
    . exact ih

theorem shiftDown_eq (block : List α) (src n : Nat) (h : src + n ≤ block.length)
    : shiftDown block src n = slice block src (src + n) ++ block.drop n := by
  induction n with
  | zero => simp [shiftDown]
  | succ n ih =>
    have hlt : src + n < block.length := by omega
    have hslice : (slice block src (src + n)).length = n := by
      rw [length_slice _ _ _ (by omega)]
      omega
    have hread : (shiftDown block src n)[src + n]? = some block[src + n] := by
      rw [ih (by omega), List.getElem?_append_right (by omega), hslice, List.getElem?_drop]
      rw [show n + (src + n - n) = src + n by omega, List.getElem?_eq_getElem hlt]
    have hgrow : slice block src (src + (n + 1)) = slice block src (src + n) ++ [block[src + n]] := by
      unfold slice
      rw [← Nat.add_assoc, List.take_succ_eq_append_getElem hlt, List.drop_append_of_le_length]
      rw [List.length_take]
      omega
    have hdrop : block.drop n = block[n] :: block.drop (n + 1) := by
      rw [List.drop_eq_getElem_cons]
    unfold shiftDown
    dsimp
    rw [hread, ih (by omega), hgrow, hdrop]
    dsimp
    rw [List.set_append_right _ _ (by omega), hslice, Nat.sub_self, List.set_cons_zero]
    rw [List.append_assoc, List.singleton_append]

end Block
