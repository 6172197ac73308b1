import Mathlib.Data.List.Basic

namespace Search

universe u

variable {α : Type u} [DecidableEq α]

def find (pat : List α) : List α → Option Nat
  | [] => if pat.isPrefixOf [] then some 0 else none
  | x :: xs =>
    if pat.isPrefixOf (x :: xs) then
      some 0
    else
      match find pat xs with
      | some n => some (n + 1)
      | none => none

theorem find_of_starts {pat xs : List α} (h : pat <+: xs) : find pat xs = some 0 := by
  rw [← List.isPrefixOf_iff_prefix] at h
  cases xs with
  | nil => simp [find, h]
  | cons x xs => simp [find, h]

theorem find_cons_of_not_starts {pat xs : List α} {x : α} (h : ¬ pat <+: x :: xs)
    : find pat (x :: xs) = (find pat xs).map (· + 1) := by
  rw [← List.isPrefixOf_iff_prefix] at h
  rw [find, if_neg h]
  cases find pat xs <;> rfl

theorem find_nil {pat : List α} (h : pat ≠ []) : find pat [] = none := by
  cases pat with
  | nil => contradiction
  | cons x pat => rfl

theorem find_some_iff {pat xs : List α} {n : Nat}
    : find pat xs = some n
        ↔
      n ≤ xs.length ∧ pat <+: xs.drop n ∧ ∀ m < n, ¬ pat <+: xs.drop m := by
  induction xs generalizing n with
  | nil =>
    unfold find
    split
    . next h =>
      rw [List.isPrefixOf_iff_prefix] at h
      cases n with
      | zero => simp [h]
      | succ n => simp
    . next h =>
      rw [List.isPrefixOf_iff_prefix] at h
      cases n with
      | zero => simp [h]
      | succ n => simp
  | cons x xs ih =>
    by_cases h : pat <+: x :: xs
    . rw [find_of_starts h]
      cases n with
      | zero => simp [h]
      | succ n =>
        simp only [Option.some.injEq, false_iff, reduceCtorEq]
        intro hn
        exact hn.right.right 0 (by omega) h
    . rw [find_cons_of_not_starts h]
      cases n with
      | zero => simp [h]
      | succ n =>
        simp only [Option.map_eq_some_iff, Nat.add_right_cancel_iff, exists_eq_right, ih,
          List.length_cons, Nat.add_le_add_iff_right, List.drop_succ_cons]
        constructor
        . intro hn
          refine ⟨hn.left, hn.right.left, ?_⟩
          intro m hm
          cases m with
          | zero => exact h
          | succ m => exact hn.right.right m (by omega)
        . intro hn
          refine ⟨hn.left, hn.right.left, ?_⟩
          intro m hm
          exact hn.right.right (m + 1) (by omega)

theorem find_le {pat xs : List α} {n : Nat} (h : find pat xs = some n) : n ≤ xs.length :=
  (find_some_iff.mp h).left

theorem prefix_drop_of_find {pat xs : List α} {n : Nat} (h : find pat xs = some n)
    : pat <+: xs.drop n :=
  (find_some_iff.mp h).right.left

theorem find_add_length_le {pat xs : List α} {n : Nat} (h : find pat xs = some n)
    : n + pat.length ≤ xs.length := by
  have hle := find_le h
  have hpre := (prefix_drop_of_find h).length_le
  rw [List.length_drop] at hpre
  omega

theorem find_isSome_of_prefix_drop {pat xs : List α} {n : Nat} (h : pat <+: xs.drop n)
    : ∃ m ≤ n, find pat xs = some m := by
  induction xs generalizing n with
  | nil =>
    rw [List.drop_nil] at h
    exact ⟨0, Nat.zero_le n, find_of_starts h⟩
  | cons x xs ih =>
    by_cases hpre : pat <+: x :: xs
    . exact ⟨0, Nat.zero_le n, find_of_starts hpre⟩
    . cases n with
      | zero => contradiction
      | succ n =>
        rw [List.drop_succ_cons] at h
        obtain ⟨m, hm, hfind⟩ := ih h
        exact ⟨m + 1, by omega, by rw [find_cons_of_not_starts hpre, hfind, Option.map_some]⟩

theorem find_append_of_not_mem {x : α} {pat pre : List α} (xs : List α) (h : x ∉ pre)
    : find (x :: pat) (pre ++ xs) = (find (x :: pat) xs).map (· + pre.length) := by
  induction pre with
  | nil => simp
  | cons y pre ih =>
    rw [List.mem_cons, not_or] at h
    have hpre : ¬ x :: pat <+: y :: (pre ++ xs) := by
      intro hpre
      exact h.left (List.cons_prefix_cons.mp hpre).left
    rw [List.cons_append, find_cons_of_not_starts hpre, ih h.right, Option.map_map]
    cases find (x :: pat) xs with
    | none => rfl
    | some n => simp [Nat.add_assoc]

theorem find_eq_none_of_not_mem {x : α} {pat xs : List α} (h : x ∉ xs)
    : find (x :: pat) xs = none := by
  have := @find_append_of_not_mem _ _ x pat xs [] h
  rw [List.append_nil, find_nil (by simp)] at this
  exact this

theorem find_append_self_of_not_mem {x : α} {pat pre : List α} (xs : List α) (h : x ∉ pre)
    : find (x :: pat) (pre ++ (x :: pat) ++ xs) = some pre.length := by
  rw [List.append_assoc, find_append_of_not_mem _ h, find_of_starts (List.prefix_append _ _)]
  simp

theorem find_pair_append_of_not_infix {a b : α} (hab : a ≠ b) {pre : List α} (xs : List α)
    (h : ¬ [a, b] <:+: pre)
    : find [a, b] (pre ++ [a, b] ++ xs) = some pre.length := by
  induction pre with
  | nil => exact find_of_starts (List.prefix_append [a, b] xs)
  | cons y pre ih =>
    have hstarts : ¬ [a, b] <+: y :: (pre ++ [a, b] ++ xs) := by
      intro hstarts
      rw [List.cons_prefix_cons] at hstarts
      obtain ⟨hay, hrest⟩ := hstarts
      cases pre with
      | nil =>
        simp at hrest
        exact hab hrest.symm
      | cons z pre =>
        apply h
        simp at hrest
        subst hay hrest
        exact ⟨[], pre, by simp⟩
    have hpre : ¬ [a, b] <:+: pre := fun hinfix => h (List.infix_cons hinfix)
    rw [List.cons_append, List.cons_append, find_cons_of_not_starts hstarts, ih hpre, Option.map_some,
      List.length_cons]

theorem find_twice_of_starts {a b : α} {xs : List α} {n : Nat} (h : find [a, b] xs = some n)
    (hpre : [a, b] <+: xs.drop (n + 2))
    : find [a, b, a, b] xs = some n := by
  obtain ⟨hle, hocc, hmin⟩ := find_some_iff.mp h
  obtain ⟨ys, hys⟩ := hocc
  obtain ⟨zs, hzs⟩ := hpre
  rw [find_some_iff]
  refine ⟨hle, ?_, ?_⟩
  . rw [← List.drop_drop, ← hys] at hzs
    refine ⟨zs, ?_⟩
    rw [← hys, show ys = [a, b] ++ zs from hzs.symm]
    rfl
  . intro m hm htwice
    apply hmin m hm
    exact List.IsPrefix.trans (List.prefix_append [a, b] [a, b]) htwice

theorem find_twice_of_not_starts {a b : α} (hab : a ≠ b) {xs : List α} {n : Nat}
    (h : find [a, b] xs = some n) (hpre : ¬ [a, b] <+: xs.drop (n + 2))
    : find [a, b, a, b] xs = (find [a, b, a, b] (xs.drop (n + 2))).map (· + (n + 2)) := by
  obtain ⟨hle, hocc, hmin⟩ := find_some_iff.mp h
  obtain ⟨ys, hys⟩ := hocc
  have hlen := find_add_length_le h
  simp only [List.length_cons, List.length_nil] at hlen
  -- No occurrence starts before the first pair, at it, or between its two elements.
  have hskip : ∀ (m : Nat), [a, b, a, b] <+: xs.drop m → n + 2 ≤ m := by
    intro m hm
    have hpair : [a, b] <+: xs.drop m :=
      List.IsPrefix.trans (List.prefix_append [a, b] [a, b]) hm
    have hn : n ≤ m := by
      apply Nat.le_of_not_lt
      intro hlt
      exact hmin m hlt hpair
    have hne : m ≠ n := by
      intro heq
      subst heq
      apply hpre
      rw [← List.drop_drop]
      obtain ⟨zs, hzs⟩ := hm
      exact ⟨zs, by rw [← hzs]; rfl⟩
    have hne' : m ≠ n + 1 := by
      intro heq
      subst heq
      rw [← List.drop_drop, ← hys] at hpair
      obtain ⟨zs, hzs⟩ := hpair
      simp at hzs
      exact hab hzs.left
    omega
  cases hrest : find [a, b, a, b] (xs.drop (n + 2)) with
  | none =>
    cases hall : find [a, b, a, b] xs with
    | none => rfl
    | some m =>
      have hm := prefix_drop_of_find hall
      have hle' := hskip m hm
      rw [show m = n + 2 + (m - (n + 2)) by omega, ← List.drop_drop] at hm
      obtain ⟨k, _, hk⟩ := find_isSome_of_prefix_drop hm
      rw [hrest] at hk
      contradiction
  | some k =>
    obtain ⟨hkle, hkocc, hkmin⟩ := find_some_iff.mp hrest
    rw [List.length_drop] at hkle
    rw [Option.map_some, find_some_iff]
    refine ⟨by omega, ?_, ?_⟩
    . rw [Nat.add_comm, ← List.drop_drop]
      exact hkocc
    . intro m hm htwice
      have hle' := hskip m htwice
      apply hkmin (m - (n + 2)) (by omega)
      rw [List.drop_drop, show n + 2 + (m - (n + 2)) = m by omega]
      exact htwice

theorem find_twice_of_none {a b : α} {xs : List α} (h : find [a, b] xs = none)
    : find [a, b, a, b] xs = none := by
  cases htwice : find [a, b, a, b] xs with
  | none => rfl
  | some n =>
    have hpair : [a, b] <+: xs.drop n :=
      List.IsPrefix.trans (List.prefix_append [a, b] [a, b]) (prefix_drop_of_find htwice)
    obtain ⟨m, _, hm⟩ := find_isSome_of_prefix_drop hpair
    rw [h] at hm
    contradiction

end Search
