import Mathlib.Data.List.Count
import Mathlib.Logic.Equiv.Basic

universe u v

inductive Place (ι : Type u) where
  | fresh
  | held (i : ι)
  | out
  | gone
deriving DecidableEq

namespace Place

variable {ι : Type u} {ρ : Type v}

-- All that is at `p` goes to `q`.
def relocate [DecidableEq ι] (p q : Place ι) (place : ρ → Place ι) (r : ρ) : Place ι :=
  if place r = p then q else place r

def rename (f : ι → ι) : Place ι → Place ι
  | .fresh => .fresh
  | .held i => .held (f i)
  | .out => .out
  | .gone => .gone

theorem rename_eq_held_iff {f : ι ≃ ι} {p : Place ι} {i : ι} : p.rename f = .held i ↔ p = .held (f.symm i) := by
  cases p with
  | held j => simp [rename, Equiv.eq_symm_apply]
  | fresh | out | gone => simp [rename]

theorem rename_eq_iff {f : ι → ι} {p q : Place ι} (hq : ∀ i, q ≠ .held i) : p.rename f = q ↔ p = q := by
  cases p with
  | held j =>
    constructor
    all_goals
      intro heq
      exact absurd heq.symm (hq _)
  | fresh | out | gone => rfl

end Place

namespace Custody

variable {ι : Type u} {ρ : Type v} {table : ι → Option ρ} {place : ρ → Place ι}

def Agrees (table : ι → Option ρ) (place : ρ → Place ι) : Prop :=
  ∀ i r, table i = some r ↔ place r = .held i

theorem Agrees.unique (h : Agrees table place) {i j : ι} {r : ρ} (hi : table i = some r) (hj : table j = some r)
    : i = j := by
  rw [h] at hi hj
  rw [hi] at hj
  exact Place.held.inj hj

theorem Agrees.rename (h : Agrees table place) (f : ι ≃ ι)
    : Agrees (fun i => table (f.symm i)) (fun r => (place r).rename f) := by
  intro i r
  rw [Place.rename_eq_held_iff]
  apply h

variable [DecidableEq ι]

theorem Agrees.put [DecidableEq ρ] (h : Agrees table place) {i : ι} {r : ρ} (hi : table i = none)
    (hr : ∀ j, place r ≠ .held j)
    : Agrees (Function.update table i (some r)) (Function.update place r (.held i)) := by
  intro j r'
  by_cases hj : j = i
  . subst hj
    by_cases hr' : r' = r
    . simp [hr']
    . have hnot : place r' ≠ .held j := by
        rw [Ne, ← h, hi]
        simp
      simp [hr', hnot, Ne.symm hr']
  . rw [Function.update_of_ne hj, h]
    by_cases hr' : r' = r
    . subst hr'
      simp [hr j, Ne.symm hj]
    . rw [Function.update_of_ne hr']

theorem Agrees.clear (h : Agrees table place) {i : ι} {q : Place ι} (hq : ∀ j, q ≠ .held j)
    : Agrees (Function.update table i none) (Place.relocate (.held i) q place) := by
  intro j r
  unfold Place.relocate
  by_cases hr : place r = .held i
  . rw [if_pos hr]
    by_cases hj : j = i
    . simp [hj, hq i]
    . rw [Function.update_of_ne hj, h, hr]
      simp [hq j, Ne.symm hj]
  . rw [if_neg hr]
    by_cases hj : j = i
    . simp [hj, hr]
    . rw [Function.update_of_ne hj, h]

theorem Agrees.give (h : Agrees table place) {i j : ι} (hij : i ≠ j) (hi : table i = none)
    : Agrees (Function.update (Function.update table j none) i (table j))
        (Place.relocate (.held j) (.held i) place) := by
  have hnot : ∀ r, place r ≠ .held i := by
    intro r hr
    rw [← h, hi] at hr
    cases hr
  intro k r
  unfold Place.relocate
  by_cases hk : k = i
  . subst hk
    rw [Function.update_self, h]
    split
    . next hr => simp [hr]
    . next hr => simp [hr, hnot r]
  . rw [Function.update_of_ne hk]
    by_cases hkj : k = j
    . subst hkj
      split
      . simp [hij]
      . next hr => simp [hr]
    . rw [Function.update_of_ne hkj, h]
      split
      . next hr => simp [hr, Ne.symm hk, Ne.symm hkj]
      . rfl

section Logged

variable [DecidableEq ρ] {log : List ρ} {p q : Place ι}

-- The log has what is at `p`, and each of it once.
def Logged (log : List ρ) (p : Place ι) (place : ρ → Place ι) : Prop :=
  ∀ r, log.count r = if place r = p then 1 else 0

theorem Logged.mem_iff (h : Logged log p place) {r : ρ} : r ∈ log ↔ place r = p := by
  rw [← List.count_pos_iff, h]
  split
  . next hr => simp [hr]
  . next hr => simp [hr]

theorem Logged.nodup (h : Logged log p place) : log.Nodup := by
  rw [List.nodup_iff_count]
  intro r
  rw [h]
  split <;> omega

theorem Logged.congr {place' : ρ → Place ι} (h : Logged log p place) (hiff : ∀ r, place' r = p ↔ place r = p)
    : Logged log p place' := by
  intro r
  rw [h, if_congr (hiff r) rfl rfl]

theorem Logged.update (h : Logged log p place) {r : ρ} (hr : place r ≠ p) (hq : q ≠ p)
    : Logged log p (Function.update place r q) := by
  apply h.congr
  intro r'
  by_cases heq : r' = r
  . simp [heq, hr, hq]
  . rw [Function.update_of_ne heq]

theorem Logged.relocate (h : Logged log p place) {p' : Place ι} (hp : p' ≠ p) (hq : q ≠ p)
    : Logged log p (Place.relocate p' q place) := by
  apply h.congr
  intro r
  unfold Place.relocate
  split
  . next hr => simp [hr, hp, hq]
  . rfl

theorem Logged.perm {log' : List ρ} (h : Logged log p place) (hperm : log'.Perm log) : Logged log' p place := by
  intro r
  rw [hperm.count_eq, h]

theorem Logged.tail {r : ρ} (h : Logged (r :: log) p place) (hq : q ≠ p)
    : Logged log p (Function.update place r q) := by
  intro r'
  have hcount := h r'
  by_cases heq : r' = r
  . subst heq
    have hat : place r' = p := h.mem_iff.mp List.mem_cons_self
    rw [List.count_cons_self, if_pos hat] at hcount
    rw [Function.update_self, if_neg hq]
    omega
  . rw [Function.update_of_ne heq, ← hcount, List.count_cons_of_ne (Ne.symm heq)]

theorem Logged.append (h : Logged log p place) (hagrees : Agrees table place) {i : ι} (hp : p ≠ .held i)
    : Logged (log ++ (table i).toList) p (Place.relocate (.held i) p place) := by
  intro r
  rw [List.count_append, h, Place.relocate]
  cases htable : table i with
  | none =>
    have hr : place r ≠ .held i := by
      rw [Ne, ← hagrees, htable]
      simp
    simp [hr]
  | some r' =>
    by_cases hr : r = r'
    . subst hr
      rw [hagrees] at htable
      simp [htable, Ne.symm hp]
    . have hnot : place r ≠ .held i := by
        rw [Ne, ← hagrees, htable]
        simpa using Ne.symm hr
      simp [hnot, Ne.symm hr]

end Logged

end Custody
