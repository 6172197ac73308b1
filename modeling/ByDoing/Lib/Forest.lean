import Mathlib.Data.List.Basic

universe u v

structure Forest (ι : Type u) (A : Type v) where
  root : ι → Nat → Option A
  entry : A → Nat → Option A

namespace Forest

variable {ι : Type u} {A : Type v} {Valid : List Nat → Prop} {F F' : Forest ι A}

def ptr (F : Forest ι A) (i : ι) : List Nat → Option A
  | [] => none
  | [k] => F.root i k
  | k :: l :: p => (F.ptr i (l :: p)).bind fun a => F.entry a k

def Unshared (Valid : List Nat → Prop) (F : Forest ι A) : Prop :=
  ∀ i j p q a, Valid p → Valid q → F.ptr i p = some a → F.ptr j q = some a → i = j ∧ p = q

def Closed (Valid : List Nat → Prop) : Prop :=
  ∀ k l p, Valid (k :: l :: p) → Valid (l :: p)

theorem ptr_cons_of_some {i : ι} {k l : Nat} {p : List Nat} {a : A} (h : F.ptr i (l :: p) = some a)
    : F.ptr i (k :: l :: p) = F.entry a k := by
  rw [ptr, h]
  rfl

theorem ptr_cons_of_none {i : ι} {k l : Nat} {p : List Nat} (h : F.ptr i (l :: p) = none)
    : F.ptr i (k :: l :: p) = none := by
  rw [ptr, h]
  rfl

theorem ptr_eq_of_entry_eq (hclosed : Closed Valid) {i : ι} (hroot : ∀ k, Valid [k] → F'.root i k = F.root i k)
    (hentry : ∀ p a k, Valid p → F.ptr i p = some a → Valid (k :: p) → F'.entry a k = F.entry a k)
    {p : List Nat} (hp : Valid p)
    : F'.ptr i p = F.ptr i p := by
  induction p with
  | nil => rfl
  | cons k p ih =>
    cases p with
    | nil => exact hroot k hp
    | cons l p =>
      have htail := hclosed k l p hp
      cases hup : F.ptr i (l :: p) with
      | none => rw [ptr_cons_of_none hup, ptr_cons_of_none ((ih htail).trans hup)]
      | some a =>
        rw [ptr_cons_of_some hup, ptr_cons_of_some ((ih htail).trans hup)]
        exact hentry _ a k htail hup hp

structure Links (Valid : List Nat → Prop) (F F' : Forest ι A) (i : ι) (p : List Nat) (a : A) : Prop where
  valid : Valid p
  vacant : F.ptr i p = none
  fresh : ∀ j q, Valid q → F.ptr j q ≠ some a
  root : ∀ j k, Valid [k] → ¬ (j = i ∧ [k] = p) → F'.root j k = F.root j k
  entry : ∀ j q b k, Valid q → F.ptr j q = some b → Valid (k :: q) → ¬ (j = i ∧ k :: q = p) →
    F'.entry b k = F.entry b k
  new : ∀ k, F'.entry a k = none
  linked : (∃ k, p = [k] ∧ F'.root i k = some a)
    ∨ ∃ k l q b, p = k :: l :: q ∧ F.ptr i (l :: q) = some b ∧ F'.entry b k = some a

namespace Links

variable {i : ι} {p : List Nat} {a : A}

theorem ptr_spec (h : Links Valid F F' i p a) (hclosed : Closed Valid) {j : ι} {q : List Nat} (hq : Valid q)
    : (j = i ∧ q = p → F'.ptr j q = some a) ∧ (¬ (j = i ∧ q = p) → F'.ptr j q = F.ptr j q) := by
  induction q with
  | nil =>
    refine ⟨?_, fun _ => rfl⟩
    rintro ⟨rfl, rfl⟩
    obtain ⟨k, hk, _⟩ | ⟨k, l, q, b, hk, _⟩ := h.linked
    all_goals cases hk
  | cons k q ih =>
    cases q with
    | nil =>
      refine ⟨?_, h.root j k hq⟩
      rintro ⟨rfl, rfl⟩
      obtain ⟨k', hk, hroot⟩ | ⟨k', l, q, b, hk, _⟩ := h.linked
      . cases hk
        exact hroot
      . cases hk
    | cons l q =>
      obtain ⟨hself, hother⟩ := ih (hclosed k l q hq)
      constructor
      . rintro ⟨rfl, rfl⟩
        have hup := hother (by simp)
        obtain ⟨k', hk, _⟩ | ⟨k', l', q', b, hk, hb, hentry⟩ := h.linked
        . cases hk
        . cases hk
          rw [ptr_cons_of_some (hup.trans hb)]
          exact hentry
      . intro hne
        by_cases hup : j = i ∧ l :: q = p
        -- What lies at the new address is empty, and there was nothing where it is now.
        . have hvacant := h.vacant
          rw [ptr_cons_of_some (hself hup), h.new]
          obtain ⟨rfl, rfl⟩ := hup
          rw [ptr_cons_of_none hvacant]
        . cases hptr : F.ptr j (l :: q) with
          | none => rw [ptr_cons_of_none hptr, ptr_cons_of_none ((hother hup).trans hptr)]
          | some b =>
            rw [ptr_cons_of_some hptr, ptr_cons_of_some ((hother hup).trans hptr)]
            exact h.entry j (l :: q) b k (hclosed k l q hq) hptr hq hne

theorem ptr_self (h : Links Valid F F' i p a) (hclosed : Closed Valid) : F'.ptr i p = some a :=
  (h.ptr_spec hclosed h.valid).left ⟨rfl, rfl⟩

theorem ptr_of_ne (h : Links Valid F F' i p a) (hclosed : Closed Valid) {j : ι} {q : List Nat} (hq : Valid q)
    (hne : ¬ (j = i ∧ q = p))
    : F'.ptr j q = F.ptr j q :=
  (h.ptr_spec hclosed hq).right hne

theorem unshared (h : Links Valid F F' i p a) (hclosed : Closed Valid) (hunshared : Unshared Valid F)
    : Unshared Valid F' := by
  intro j j' q q' b hq hq' hb hb'
  by_cases hj : j = i ∧ q = p
  . by_cases hj' : j' = i ∧ q' = p
    . exact ⟨hj.left.trans hj'.left.symm, hj.right.trans hj'.right.symm⟩
    . rw [(h.ptr_spec hclosed hq).left hj, Option.some.injEq] at hb
      rw [h.ptr_of_ne hclosed hq' hj', ← hb] at hb'
      exact absurd hb' (h.fresh j' q' hq')
  . rw [h.ptr_of_ne hclosed hq hj] at hb
    by_cases hj' : j' = i ∧ q' = p
    . rw [(h.ptr_spec hclosed hq').left hj', Option.some.injEq] at hb'
      rw [← hb'] at hb
      exact absurd hb (h.fresh j q hq)
    . rw [h.ptr_of_ne hclosed hq' hj'] at hb'
      exact hunshared j j' q q' b hq hq' hb hb'

theorem forall_ptr (h : Links Valid F F' i p a) (hclosed : Closed Valid) {P : A → Prop} (ha : P a)
    (hall : ∀ j q b, Valid q → F.ptr j q = some b → P b) (j : ι) (q : List Nat) (b : A) (hq : Valid q)
    (hb : F'.ptr j q = some b)
    : P b := by
  by_cases hj : j = i ∧ q = p
  . rw [(h.ptr_spec hclosed hq).left hj, Option.some.injEq] at hb
    exact hb ▸ ha
  . rw [h.ptr_of_ne hclosed hq hj] at hb
    exact hall j q b hq hb

end Links

end Forest
