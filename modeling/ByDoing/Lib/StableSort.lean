import Mathlib.Order.Defs.PartialOrder
import Mathlib.Order.Defs.Unbundled
import Mathlib.Order.Basic
import Mathlib.Data.List.Basic
import Mathlib.Data.List.Pairwise

namespace StableSort

universe u

variable {α : Type u} [Preorder α] [DecidableLE α]

def tied (a b : α) : Bool :=
  decide (a ≤ b ∧ b ≤ a)

def NoTies (l : List α) : Prop :=
  l.Pairwise fun a b => tied a b = false

structure Rearranges (l l' : List α) : Prop where
  perm : l'.Perm l
  tied_eq : ∀ a, l'.filter (tied a) = l.filter (tied a)

structure Sorts (l l' : List α) : Prop extends Rearranges l l' where
  sorted : l'.Pairwise (· ≤ ·)

theorem tied_iff {a b : α} : tied a b = true ↔ a ≤ b ∧ b ≤ a := by
  simp [tied]

namespace Rearranges

variable {l l' l'' m m' : List α} {x y : α}

theorem refl (l : List α) : Rearranges l l :=
  ⟨.refl l, fun _ => rfl⟩

theorem trans (h : Rearranges l l') (h' : Rearranges l' l'') : Rearranges l l'' :=
  ⟨h'.perm.trans h.perm, fun a => (h'.tied_eq a).trans (h.tied_eq a)⟩

theorem append (h : Rearranges l l') (h' : Rearranges m m') : Rearranges (l ++ m) (l' ++ m') := by
  constructor
  . apply h.perm.append h'.perm
  . intro a
    rw [List.filter_append, List.filter_append, h.tied_eq, h'.tied_eq]

theorem swap (h : x < y) (l : List α) : Rearranges (y :: x :: l) (x :: y :: l) := by
  constructor
  . apply List.Perm.swap
  . intro a
    have hone : ¬(tied a x = true ∧ tied a y = true) := by
      rw [tied_iff, tied_iff]
      intro ⟨hx, hy⟩
      apply not_le_of_gt h
      exact le_trans hy.right hx.left
    simp only [List.filter_cons]
    by_cases hx : tied a x = true
    . have hy : ¬tied a y = true := fun hy => hone ⟨hx, hy⟩
      simp [hx, hy]
    . simp [hx]

theorem move (h : ∀ y ∈ l, x < y) : Rearranges (l ++ [x]) (x :: l) := by
  induction l with
  | nil => apply refl
  | cons y l ih =>
    rw [List.forall_mem_cons] at h
    apply trans
    . apply append (refl [y]) (ih h.right)
    . apply swap h.left

end Rearranges

theorem eq_of_noTies {l l₁ l₂ : List α} (hties : NoTies l) (hperm₁ : l₁.Perm l) (hperm₂ : l₂.Perm l)
    (hsorted₁ : l₁.Pairwise (· ≤ ·)) (hsorted₂ : l₂.Pairwise (· ≤ ·))
    : l₁ = l₂ := by
  have hsymm : Std.Symm fun a b : α => tied a b = false := by
    constructor
    intro a b h
    simp only [tied, decide_eq_false_iff_not] at h ⊢
    intro h'
    apply h h'.symm
  apply List.Perm.eq_of_pairwise _ hsorted₁ hsorted₂ (hperm₁.trans hperm₂.symm)
  intro a b ha hb hab hba
  by_contra hne
  have htied := List.Pairwise.forall hties (hperm₁.subset ha) (hperm₂.subset hb) hne
  rw [tied_iff.mpr ⟨hab, hba⟩] at htied
  contradiction

-- Behind its first `n` elements a list is sorted, and none of these is greater.
structure InPlace (l : List α) (n : Nat) : Prop where
  sorted : (l.drop n).Pairwise (· ≤ ·)
  le_rest : ∀ x ∈ l.take n, ∀ y ∈ l.drop n, x ≤ y

section Prefix

variable {l out : List α} {n : Nat}

omit [DecidableLE α] in
theorem inPlace_of_le (h : l.length ≤ n) : InPlace l n := by
  constructor
  . rw [List.drop_eq_nil_of_le h]
    exact .nil
  . intro x _ y hy
    rw [List.drop_eq_nil_of_le h] at hy
    cases hy

omit [DecidableLE α] in
theorem sorted_append_drop (h : out.Perm (l.take n))
    : (out ++ l.drop n).Pairwise (· ≤ ·) ↔ out.Pairwise (· ≤ ·) ∧ InPlace l n := by
  rw [List.pairwise_append]
  constructor
  . intro ⟨hout, hrest, hcross⟩
    exact ⟨hout, hrest, fun x hx => hcross x (h.mem_iff.mpr hx)⟩
  . intro ⟨hout, hrest, hcross⟩
    exact ⟨hout, hrest, fun x hx => hcross x (h.mem_iff.mp hx)⟩

theorem sorts_append_drop (h : Sorts (l.take n) out) : Sorts l (out ++ l.drop n) ↔ InPlace l n := by
  have hrearranges := h.toRearranges.append (.refl (l.drop n))
  rw [List.take_append_drop] at hrearranges
  constructor
  . intro hsorts
    exact ((sorted_append_drop h.perm).mp hsorts.sorted).right
  . intro hrest
    exact ⟨hrearranges, (sorted_append_drop h.perm).mpr ⟨h.sorted, hrest⟩⟩

end Prefix

section Total

variable [Std.Total fun a b : α => a ≤ b]

omit [DecidableLE α] in
theorem le_of_not_le {a b : α} (h : ¬a ≤ b) : b ≤ a :=
  (Std.Total.total a b).resolve_left h

omit [DecidableLE α] in
theorem not_le_iff_lt {a b : α} : ¬a ≤ b ↔ b < a := by
  constructor
  . intro h
    apply lt_of_le_not_ge (le_of_not_le h) h
  . apply not_le_of_gt

omit [DecidableLE α] in
theorem not_lt_iff_le {a b : α} : ¬a < b ↔ b ≤ a := by
  rw [← not_le_iff_lt, not_not]

theorem sorts_mergeSort (l : List α) : Sorts l l.mergeSort := by
  have htrans : ∀ a b c : α, decide (a ≤ b) = true → decide (b ≤ c) = true → decide (a ≤ c) = true := by
    simp only [decide_eq_true_eq]
    intro a b c
    apply le_trans
  have htotal : ∀ a b : α, (decide (a ≤ b) || decide (b ≤ a)) = true := by
    intro a b
    simpa using Std.Total.total (r := fun a b : α => a ≤ b) a b
  constructor
  . constructor
    . apply List.mergeSort_perm
    . intro a
      -- The elements that are tied with `a` are a sorted part of the list.
      have hpart : (l.filter (tied a)).Pairwise fun x y => decide (x ≤ y) = true := by
        rw [List.pairwise_filter]
        apply List.pairwise_of_forall
        intro x y hx hy
        rw [tied_iff] at hx hy
        simpa using le_trans hx.right hy.left
      have hsub := (List.sublist_mergeSort htrans htotal hpart List.filter_sublist).filter (tied a)
      rw [List.filter_filter] at hsub
      simp only [Bool.and_self] at hsub
      apply (hsub.eq_of_length _).symm
      apply ((List.mergeSort_perm l _).filter (tied a)).length_eq.symm
  . simpa using List.pairwise_mergeSort htrans htotal l

end Total

end StableSort
