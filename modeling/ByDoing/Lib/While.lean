import Mathlib.Init

namespace While

universe u v

variable {ε : Type u} {σ : Type v}

def run (cond : σ → Bool) (body : σ → Except ε σ) (fuel : Nat) (s : σ) : Option (Except ε σ) :=
  match fuel with
  | 0 => none
  | fuel + 1 =>
    if cond s then
      match body s with
      | .ok s' => run cond body fuel s'
      | .error e => some (.error e)
    else
      some (.ok s)

def Ends (cond : σ → Bool) (body : σ → Except ε σ) (s : σ) (res : Except ε σ) : Prop :=
  ∃ fuel, run cond body fuel s = some res

-- The states in which the loop from `s` evaluates its condition.
inductive Reaches (cond : σ → Bool) (body : σ → Except ε σ) (s : σ) : σ → Prop where
  | refl : Reaches cond body s s
  | step {t u : σ} : Reaches cond body s t → cond t = true → body t = .ok u → Reaches cond body s u

variable {cond : σ → Bool} {body : σ → Except ε σ} {s s' : σ} {res : Except ε σ}

theorem run_of_false (h : cond s = false) (fuel : Nat)
    : run cond body (fuel + 1) s = some (.ok s) := by
  simp [run, h]

theorem run_of_ok (h : cond s = true) (hbody : body s = .ok s') (fuel : Nat)
    : run cond body (fuel + 1) s = run cond body fuel s' := by
  rw [run]
  simp [h, hbody]

theorem run_of_error {e : ε} (h : cond s = true) (hbody : body s = .error e) (fuel : Nat)
    : run cond body (fuel + 1) s = some (.error e) := by
  rw [run]
  simp [h, hbody]

theorem run_succ {fuel : Nat} (h : run cond body fuel s = some res)
    : run cond body (fuel + 1) s = some res := by
  induction fuel generalizing s with
  | zero => simp [run] at h
  | succ fuel ih =>
    rw [run] at h ⊢
    split at h
    . next hcond =>
      rw [if_pos hcond]
      split at h
      . next s' hbody => exact ih h
      . exact h
    . next hcond =>
      rw [if_neg hcond]
      exact h

theorem run_mono {fuel fuel' : Nat} (hle : fuel ≤ fuel') (h : run cond body fuel s = some res)
    : run cond body fuel' s = some res := by
  induction hle with
  | refl => exact h
  | step _ ih => exact run_succ ih

theorem Ends.unique {res' : Except ε σ} (h : Ends cond body s res) (h' : Ends cond body s res')
    : res = res' := by
  obtain ⟨fuel, h⟩ := h
  obtain ⟨fuel', h'⟩ := h'
  have h1 := run_mono (Nat.le_max_left fuel fuel') h
  have h2 := run_mono (Nat.le_max_right fuel fuel') h'
  rw [h1] at h2
  exact Option.some.inj h2

theorem ends_of_false (h : cond s = false) : Ends cond body s (.ok s) :=
  ⟨1, run_of_false h 0⟩

theorem ends_of_error {e : ε} (h : cond s = true) (hbody : body s = .error e)
    : Ends cond body s (.error e) :=
  ⟨1, run_of_error h hbody 0⟩

theorem ends_iff_of_ok (h : cond s = true) (hbody : body s = .ok s')
    : Ends cond body s res ↔ Ends cond body s' res := by
  constructor
  . intro hends
    obtain ⟨fuel, hrun⟩ := hends
    cases fuel with
    | zero => simp [run] at hrun
    | succ fuel =>
      rw [run_of_ok h hbody] at hrun
      exact ⟨fuel, hrun⟩
  . intro hends
    obtain ⟨fuel, hrun⟩ := hends
    exact ⟨fuel + 1, by rw [run_of_ok h hbody, hrun]⟩

theorem run_of_fixed (h : cond s = true) (hbody : body s = .ok s) (fuel : Nat)
    : run cond body fuel s = none := by
  induction fuel with
  | zero => rfl
  | succ fuel ih => rw [run_of_ok h hbody, ih]

theorem not_ends_of_fixed (h : cond s = true) (hbody : body s = .ok s)
    : ¬ Ends cond body s res := by
  intro hends
  obtain ⟨fuel, hrun⟩ := hends
  rw [run_of_fixed h hbody] at hrun
  simp at hrun

theorem not_ends_error_of_invariant {inv : σ → Prop}
    (hstep : ∀ s, inv s → cond s = true → ∃ s', body s = .ok s' ∧ inv s') (h : inv s) {e : ε}
    : ¬ Ends cond body s (.error e) := by
  intro hends
  obtain ⟨fuel, hrun⟩ := hends
  induction fuel generalizing s with
  | zero => simp [run] at hrun
  | succ fuel ih =>
    cases hcond : cond s with
    | false => simp [run_of_false hcond] at hrun
    | true =>
      obtain ⟨s', hbody, hinv⟩ := hstep s h hcond
      rw [run_of_ok hcond hbody] at hrun
      exact ih hinv hrun

theorem Reaches.head {t : σ} (h : cond s = true) (hbody : body s = .ok s')
    (hreaches : Reaches cond body s' t)
    : Reaches cond body s t := by
  induction hreaches with
  | refl => exact .step .refl h hbody
  | step _ hcond hnext ih => exact .step ih hcond hnext

theorem Reaches.invariant {inv : σ → Prop} {t : σ}
    (hstep : ∀ s s', inv s → cond s = true → body s = .ok s' → inv s') (h : inv s)
    (hreaches : Reaches cond body s t)
    : inv t := by
  induction hreaches with
  | refl => exact h
  | step _ hcond hbody ih => exact hstep _ _ ih hcond hbody

theorem Ends.reaches (hends : Ends cond body s (.ok s')) : Reaches cond body s s' ∧ cond s' = false := by
  obtain ⟨fuel, hrun⟩ := hends
  induction fuel generalizing s with
  | zero => simp [run] at hrun
  | succ fuel ih =>
    cases hcond : cond s with
    | false =>
      rw [run_of_false hcond] at hrun
      simp only [Option.some.injEq, Except.ok.injEq] at hrun
      subst hrun
      exact ⟨.refl, hcond⟩
    | true =>
      cases hbody : body s with
      | error e => simp [run_of_error hcond hbody] at hrun
      | ok t =>
        rw [run_of_ok hcond hbody] at hrun
        obtain ⟨hreaches, hfalse⟩ := ih hrun
        exact ⟨hreaches.head hcond hbody, hfalse⟩

end While
