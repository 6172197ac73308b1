import Mathlib.Data.List.Basic

namespace Slots

universe u

variable {α : Type u}

def modifyFirst (p : α → Bool) (f : α → α) : List α → Option (List α)
  | [] => none
  | x :: xs => if p x then some (f x :: xs) else (modifyFirst p f xs).map fun xs => x :: xs

theorem modifyFirst_eq_some {p : α → Bool} {f : α → α} {l l' : List α} (h : modifyFirst p f l = some l')
    : ∃ xs x ys, l = xs ++ x :: ys ∧ p x = true ∧ l' = xs ++ f x :: ys := by
  induction l generalizing l' with
  | nil => simp [modifyFirst] at h
  | cons x l ih =>
    unfold modifyFirst at h
    split at h
    . next hp =>
      cases h
      exact ⟨[], x, l, rfl, hp, rfl⟩
    . obtain ⟨l'', hl'', rfl⟩ := Option.map_eq_some_iff.mp h
      obtain ⟨xs, y, ys, rfl, hp, rfl⟩ := ih hl''
      exact ⟨x :: xs, y, ys, rfl, hp, rfl⟩

theorem modifyFirst_eq_none_iff {p : α → Bool} {f : α → α} {l : List α}
    : modifyFirst p f l = none ↔ ∀ x ∈ l, p x = false := by
  induction l with
  | nil => simp [modifyFirst]
  | cons x l ih =>
    unfold modifyFirst
    split
    . next hp => simp [hp]
    . next hp => simp [hp, ih]

theorem filter_modifyFirst_of_not {p q : α → Bool} {f : α → α} {l l' : List α} (h : modifyFirst p f l = some l')
    (hold : ∀ x, p x = true → q x = false) (hnew : ∀ x, p x = true → q (f x) = false)
    : l'.filter q = l.filter q := by
  obtain ⟨xs, x, ys, rfl, hp, rfl⟩ := modifyFirst_eq_some h
  rw [List.filter_append, List.filter_append, List.filter_cons_of_neg, List.filter_cons_of_neg]
  . simp [hold x hp]
  . simp [hnew x hp]

theorem filter_modifyFirst_of_new {p q : α → Bool} {f : α → α} {l l' : List α} (h : modifyFirst p f l = some l')
    (hnone : l.filter q = []) (hnew : ∀ x, p x = true → q (f x) = true)
    : ∃ x, p x = true ∧ l'.filter q = [f x] := by
  obtain ⟨xs, x, ys, rfl, hp, rfl⟩ := modifyFirst_eq_some h
  rw [List.filter_append, List.append_eq_nil_iff] at hnone
  have htail : ys.filter q = [] := by
    rw [List.filter_eq_nil_iff] at hnone ⊢
    intro y hy
    exact (List.filter_eq_nil_iff.mp hnone.right) y (List.mem_cons_of_mem x hy)
  refine ⟨x, hp, ?_⟩
  rw [List.filter_append, hnone.left, List.filter_cons_of_pos (hnew x hp), htail]
  rfl

theorem filter_modifyFirst_self {p : α → Bool} {f : α → α} {l l' : List α} {x : α}
    (h : modifyFirst p f l = some l') (hone : l.filter p = [x])
    : l'.filter p = [f x].filter p := by
  obtain ⟨xs, y, ys, rfl, hp, rfl⟩ := modifyFirst_eq_some h
  rw [List.filter_append, List.filter_cons_of_pos hp] at hone
  have hxs : xs.filter p = [] := by
    cases hfilter : xs.filter p with
    | nil => rfl
    | cons z zs =>
      rw [hfilter] at hone
      simp at hone
  rw [hxs, List.nil_append, List.cons.injEq] at hone
  obtain ⟨rfl, hys⟩ := hone
  rw [List.filter_append, hxs, List.nil_append, List.filter_cons, List.filter_cons, hys]
  rfl

end Slots
