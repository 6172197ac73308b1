import Mathlib.Algebra.Ring.Nat

universe u v w x

structure Abstraction (σ : Type u) (τ : Type v) where
  inv : σ → Prop
  abs : σ → τ
  left : σ → Nat

namespace Abstraction

variable {σ : Type u} {τ : Type v} {ε : Type w} {α : Type x} {A : Abstraction σ τ}

-- The outcomes of two programs, the first of which was started in `s` and may use up an amount of `n`.
inductive Agree (A : Abstraction σ τ) (n : Nat) (s : σ) : Except ε σ → Except ε τ → Prop where
  | ok {s' : σ} {t : τ} (inv : A.inv s') (abs : A.abs s' = t) (left : A.left s ≤ A.left s' + n) :
      Agree A n s (.ok s') (.ok t)
  | error (e : ε) : Agree A n s (.error e) (.error e)
  | short (e : ε) (r : Except ε τ) (left : A.left s < n) : Agree A n s (.error e) r

def Refines (A : Abstraction σ τ) (n : Nat) (f : σ → Except ε σ) (g : τ → Except ε τ) : Prop :=
  ∀ s, A.inv s → A.Agree n s (f s) (g (A.abs s))

theorem Agree.cases {n : Nat} {s : σ} {r : Except ε σ} {r' : Except ε τ} (h : A.Agree n s r r')
    : (∃ s', r = .ok s' ∧ r' = .ok (A.abs s') ∧ A.inv s' ∧ A.left s ≤ A.left s' + n)
        ∨ (∃ e, r = .error e ∧ r' = .error e) ∨ ∃ e, r = .error e ∧ A.left s < n := by
  cases h with
  | ok inv abs left => exact .inl ⟨_, rfl, abs ▸ rfl, inv, left⟩
  | error e => exact .inr (.inl ⟨e, rfl, rfl⟩)
  | short e r left => exact .inr (.inr ⟨e, rfl, left⟩)

theorem Agree.bind {n k : Nat} {s : σ} {r : Except ε σ} {r' : Except ε τ} {f : σ → Except ε σ}
    {g : τ → Except ε τ} (h : A.Agree n s r r') (hf : A.Refines k f g)
    : A.Agree (n + k) s (r >>= f) (r' >>= g) := by
  rcases h.cases with ⟨s', rfl, rfl, hinv, hleft⟩ | ⟨e, rfl, rfl⟩ | ⟨e, rfl, hleft⟩
  . show A.Agree (n + k) s (f s') (g (A.abs s'))
    rcases (hf s' hinv).cases with ⟨s'', hr, hr', hinv', hleft'⟩ | ⟨e, hr, hr'⟩ | ⟨e, hr, hleft'⟩
    . rw [hr, hr']
      exact .ok hinv' rfl (by omega)
    . rw [hr, hr']
      exact .error e
    . rw [hr]
      exact .short e _ (by omega)
  . exact .error e
  . exact .short e _ (by omega)

theorem Refines.pure : A.Refines 0 (Except.ok : σ → Except ε σ) Except.ok := by
  intro s hinv
  exact .ok hinv rfl (Nat.le_refl _)

theorem Refines.foldlM {n : Nat} {f : σ → α → Except ε σ} {g : τ → α → Except ε τ} {l : List α}
    (h : ∀ a ∈ l, A.Refines n (f · a) (g · a))
    : A.Refines (l.length * n) (l.foldlM f) (l.foldlM g) := by
  induction l with
  | nil =>
    rw [List.length_nil, Nat.zero_mul]
    exact .pure
  | cons a l ih =>
    intro s hinv
    have hlength : (a :: l).length * n = n + l.length * n := by
      rw [List.length_cons, Nat.succ_mul, Nat.add_comm]
    rw [hlength]
    dsimp only
    rw [List.foldlM_cons, List.foldlM_cons]
    exact (h a List.mem_cons_self s hinv).bind (ih fun b hb => h b (List.mem_cons_of_mem a hb))

variable {step : σ → α → Except ε σ} {spec : τ → α → Except ε τ} {need : α → Nat}

theorem run_ok (h : ∀ a, A.Refines (need a) (step · a) (spec · a)) {s s' : σ} (hinv : A.inv s) {as : List α}
    (hrun : as.foldlM step s = .ok s')
    : A.inv s' ∧ as.foldlM spec (A.abs s) = .ok (A.abs s') := by
  induction as generalizing s with
  | nil =>
    cases hrun
    exact ⟨hinv, rfl⟩
  | cons a as ih =>
    rw [List.foldlM_cons] at hrun ⊢
    rcases (h a s hinv).cases with ⟨s₁, hr, hr', hinv', _⟩ | ⟨e, hr, _⟩ | ⟨e, hr, _⟩
    . dsimp only at hr hr'
      rw [hr] at hrun
      rw [hr']
      exact ih hinv' hrun
    all_goals
      dsimp only at hr
      rw [hr] at hrun
      cases hrun

def Provided (A : Abstraction σ τ) (step : σ → α → Except ε σ) (need : α → Nat) (s : σ) : List α → Prop
  | [] => True
  | a :: as => need a ≤ A.left s ∧ ∀ s', step s a = .ok s' → Provided A step need s' as

theorem run_eq (h : ∀ a, A.Refines (need a) (step · a) (spec · a)) {s : σ} (hinv : A.inv s) {as : List α}
    (hneed : A.Provided step need s as)
    : (as.foldlM step s).map A.abs = as.foldlM spec (A.abs s) := by
  induction as generalizing s with
  | nil => rfl
  | cons a as ih =>
    obtain ⟨hhead, htail⟩ := hneed
    rw [List.foldlM_cons, List.foldlM_cons]
    rcases (h a s hinv).cases with ⟨s', hr, hr', hinv', _⟩ | ⟨e, hr, hr'⟩ | ⟨e, _, hleft⟩
    . dsimp only at hr hr'
      rw [hr, hr']
      exact ih hinv' (htail s' hr)
    . dsimp only at hr hr'
      rw [hr, hr']
      rfl
    . omega

theorem provided_of_sum (h : ∀ a, A.Refines (need a) (step · a) (spec · a)) {s : σ} (hinv : A.inv s) {as : List α}
    (hsum : (as.map need).sum ≤ A.left s)
    : A.Provided step need s as := by
  induction as generalizing s with
  | nil => exact trivial
  | cons a as ih =>
    rw [List.map_cons, List.sum_cons] at hsum
    refine ⟨by omega, ?_⟩
    intro s' hs'
    rcases (h a s hinv).cases with ⟨s₁, hr, _, hinv', hused⟩ | ⟨e, hr, _⟩ | ⟨e, hr, _⟩
    . dsimp only at hr
      rw [hr] at hs'
      cases hs'
      exact ih hinv' (by omega)
    all_goals
      dsimp only at hr
      rw [hr] at hs'
      cases hs'

end Abstraction
