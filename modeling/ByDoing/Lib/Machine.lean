import Mathlib.Init

abbrev Machine (σ ε α : Type) := StateT σ (Except ε) α

namespace Machine

variable {σ ε α β : Type} {s s' : σ} {a : α} {b : β} {x : Machine σ ε α} {f : α → Machine σ ε β}

def stop (e : ε) : Machine σ ε α :=
  fun _ => .error e

theorem bind_eq_ok_iff : (x >>= f) s = .ok (b, s') ↔ ∃ a s₁, x s = .ok (a, s₁) ∧ f a s₁ = .ok (b, s') := by
  change (StateT.bind x f) s = _ ↔ _
  unfold StateT.bind
  cases hx : x s with
  | error e => simp [bind, Except.bind]
  | ok p =>
    constructor
    . intro h
      exact ⟨p.1, p.2, rfl, h⟩
    . rintro ⟨a, s₁, hp, h⟩
      cases hp
      exact h

theorem bind_of_eq_ok (h : x s = .ok (a, s')) : (x >>= f) s = f a s' := by
  change (StateT.bind x f) s = _
  unfold StateT.bind
  rw [h]
  rfl

theorem bind_of_eq_error {e : ε} (h : x s = .error e) : (x >>= f) s = .error e := by
  change (StateT.bind x f) s = _
  unfold StateT.bind
  rw [h]
  rfl

@[simp]
theorem pure_eq_ok_iff {a' : α} : (pure a : Machine σ ε α) s = .ok (a', s') ↔ a = a' ∧ s = s' := by
  change Except.ok (a, s) = _ ↔ _
  simp

@[simp]
theorem stop_ne_ok {e : ε} : (stop e : Machine σ ε α) s ≠ .ok (a, s') := by
  simp [stop]

theorem get_eq : (get : Machine σ ε σ) s = .ok (s, s) :=
  rfl

theorem modify_eq {g : σ → σ} : (modify g : Machine σ ε Unit) s = .ok ((), g s) :=
  rfl

theorem pure_eq : (pure a : Machine σ ε α) s = .ok (a, s) :=
  rfl

@[simp]
theorem modify_eq_ok_iff {g : σ → σ} {u : Unit}
    : (modify g : Machine σ ε Unit) s = .ok (u, s') ↔ g s = s' := by
  change Except.ok ((), g s) = _ ↔ _
  simp

end Machine
