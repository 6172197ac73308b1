import Mathlib.Data.List.Basic

namespace Sweep

universe u

variable {α : Type u} (before : α → α → Prop) [DecidableRel before]

def falls : List α → Nat
  | a :: b :: l => (if before a b then 0 else 1) + falls (b :: l)
  | _ => 0

-- The list behind `a`, with `x` in it: in front of the first entry that it comes before and that begins a sweep or is
-- the first one in its sweep to come behind `x`.
def insertAfter (x : α) : α → List α → List α
  | _, [] => [x]
  | a, b :: l => if (before a x ∨ ¬before a b) ∧ before x b then x :: b :: l else b :: insertAfter x b l

variable {before} {a b x : α} {l : List α}

theorem falls_cons_of_before (h : before a b) (l : List α) : falls before (a :: b :: l) = falls before (b :: l) := by
  rw [falls, if_pos h, Nat.zero_add]

theorem falls_cons_of_not (h : ¬before a b) (l : List α)
    : falls before (a :: b :: l) = 1 + falls before (b :: l) := by
  rw [falls, if_neg h]

theorem falls_tail_le (a : α) (l : List α) : falls before l ≤ falls before (a :: l) := by
  cases l with
  | nil => exact Nat.le_refl _
  | cons b l => exact Nat.le_add_left _ _

theorem falls_congr {before' : α → α → Prop} [DecidableRel before']
    (h : ∀ p ∈ l, ∀ q ∈ l, (before' p q ↔ before p q))
    : falls before' l = falls before l := by
  induction l with
  | nil => rfl
  | cons a l ih =>
    cases l with
    | nil => rfl
    | cons b l =>
      have htail := ih fun p hp q hq => h p (List.mem_cons_of_mem a hp) q (List.mem_cons_of_mem a hq)
      have hhead := h a List.mem_cons_self b (List.mem_cons_of_mem a List.mem_cons_self)
      rw [falls, falls, htail]
      simp only [hhead]

theorem insertAfter_split (x a : α) (l : List α)
    : ∃ front back, l = front ++ back ∧ insertAfter before x a l = front ++ x :: back := by
  induction l generalizing a with
  | nil => exact ⟨[], [], rfl, rfl⟩
  | cons b l ih =>
    unfold insertAfter
    split
    . exact ⟨[], b :: l, rfl, rfl⟩
    . obtain ⟨front, back, hl, hinsert⟩ := ih b
      refine ⟨b :: front, back, ?_, ?_⟩
      . rw [hl, List.cons_append]
      . rw [hinsert, List.cons_append]

theorem insertAfter_congr {before' : α → α → Prop} [DecidableRel before']
    (h : ∀ p ∈ a :: l, (before' p x ↔ before p x) ∧ (before' x p ↔ before x p)
      ∧ ∀ q ∈ a :: l, (before' p q ↔ before p q))
    : insertAfter before' x a l = insertAfter before x a l := by
  induction l generalizing a with
  | nil => rfl
  | cons b l ih =>
    have ha := h a List.mem_cons_self
    have hb := h b (List.mem_cons_of_mem a List.mem_cons_self)
    have hrest := @ih b fun p hp =>
      have hp := h p (List.mem_cons_of_mem a hp)
      ⟨hp.left, hp.right.left, fun q hq => hp.right.right q (List.mem_cons_of_mem a hq)⟩
    unfold insertAfter
    simp only [ha.left, hb.right.left, ha.right.right b (List.mem_cons_of_mem a List.mem_cons_self), hrest]

section Order

variable (htrans : ∀ a b c, before a b → before b c → before a c)

theorem falls_insertAfter_of_before (hcompare : ∀ b ∈ l, before x b ∨ before b x) (hax : before a x)
    (h : falls before (a :: l) = 0)
    : falls before (a :: insertAfter before x a l) = 0 := by
  induction l generalizing a with
  | nil =>
    rw [insertAfter, falls_cons_of_before hax]
    rfl
  | cons b l ih =>
    unfold insertAfter
    have hab : before a b := by
      by_contra hab
      rw [falls_cons_of_not hab] at h
      omega
    rw [falls_cons_of_before hab] at h
    split
    . next hplace => rw [falls_cons_of_before hax, falls_cons_of_before hplace.right, h]
    . next hplace =>
      rw [not_and] at hplace
      rw [falls_cons_of_before hab]
      apply ih
      . exact fun c hc => hcompare c (List.mem_cons_of_mem b hc)
      . exact (hcompare b List.mem_cons_self).resolve_left (hplace (.inl hax))
      . exact h

include htrans in
theorem falls_insertAfter_le (hcompare : ∀ b ∈ a :: l, before x b ∨ before b x) (h : falls before (a :: l) ≤ 1)
    : falls before (a :: insertAfter before x a l) ≤ 1 := by
  induction l generalizing a with
  | nil =>
    unfold insertAfter falls
    split
    . exact Nat.zero_le 1
    . exact Nat.le_refl 1
  | cons b l ih =>
    have htail : ∀ c ∈ b :: l, before x c ∨ before c x := fun c hc => hcompare c (List.mem_cons_of_mem a hc)
    have hrest : ∀ c ∈ l, before x c ∨ before c x := fun c hc => htail c (List.mem_cons_of_mem b hc)
    by_cases hab : before a b
    . rw [falls_cons_of_before hab] at h
      unfold insertAfter
      split
      . next hplace =>
        have hax := hplace.left.resolve_right fun hnot => hnot hab
        rw [falls_cons_of_before hax, falls_cons_of_before hplace.right]
        exact h
      . rw [falls_cons_of_before hab]
        exact ih htail h
    . have hsorted : falls before (b :: l) = 0 := by
        rw [falls_cons_of_not hab] at h
        omega
      unfold insertAfter
      split
      . next hplace =>
        have hax : ¬before a x := fun hax => hab (htrans a x b hax hplace.right)
        have hfalls : falls before (a :: x :: b :: l) = 1 := by
          rw [falls_cons_of_not hax, falls_cons_of_before hplace.right, hsorted]
        exact Nat.le_of_eq hfalls
      . next hplace =>
        have hbx := (htail b List.mem_cons_self).resolve_left fun hxb => hplace ⟨.inr hab, hxb⟩
        have hfalls : falls before (a :: b :: insertAfter before x b l) = 1 := by
          rw [falls_cons_of_not hab, falls_insertAfter_of_before hrest hbx hsorted]
        exact Nat.le_of_eq hfalls

end Order

end Sweep
