import Mathlib.Init

namespace Command

inductive Prog (σ ε ι : Type) (ρ : ι → Type) (α : Type) where
  | ret (a : α)
  | fail (e : ε)
  | get (k : σ → Prog σ ε ι ρ α)
  | modify (f : σ → σ) (k : Prog σ ε ι ρ α)
  | call (o : ι) (k : ρ o → Prog σ ε ι ρ α)

namespace Prog

variable {σ ε ι : Type} {ρ : ι → Type} {α β : Type}

def bind (p : Prog σ ε ι ρ α) (f : α → Prog σ ε ι ρ β) : Prog σ ε ι ρ β :=
  match p with
  | ret a => f a
  | fail e => fail e
  | get k => get fun s => (k s).bind f
  | modify g k => modify g (k.bind f)
  | call o k => call o fun r => (k r).bind f

instance : Monad (Prog σ ε ι ρ) where
  pure := ret
  bind := bind

def run (exec : (o : ι) → σ → Except ε (ρ o × σ)) (p : Prog σ ε ι ρ α) (s : σ) : Except ε (α × σ) :=
  match p with
  | ret a => .ok (a, s)
  | fail e => .error e
  | get k => (k s).run exec s
  | modify f k => k.run exec (f s)
  | call o k =>
    match exec o s with
    | .error e => .error e
    | .ok (r, s') => (k r).run exec s'

def Meets (exec : (o : ι) → σ → Except ε (ρ o × σ)) (ok : ι → σ → Prop) (p : Prog σ ε ι ρ α) (s : σ) : Prop :=
  match p with
  | ret _ => True
  | fail _ => False
  | get k => (k s).Meets exec ok s
  | modify f k => k.Meets exec ok (f s)
  | call o k => ok o s ∧ ∀ r s', exec o s = .ok (r, s') → (k r).Meets exec ok s'

variable {exec : (o : ι) → σ → Except ε (ρ o × σ)} {ok : ι → σ → Prop}

theorem run_ok_iff (hok : ∀ (o : ι) (s : σ), (∃ r s', exec o s = .ok (r, s')) ↔ ok o s)
    (p : Prog σ ε ι ρ α) (s : σ)
    : (∃ a s', p.run exec s = .ok (a, s')) ↔ p.Meets exec ok s := by
  induction p generalizing s with
  | ret a => simp [run, Meets]
  | fail e => simp [run, Meets]
  | get k ih => exact ih s s
  | modify f k ih => exact ih (f s)
  | call o k ih =>
    simp only [run, Meets]
    rw [← hok o s]
    cases h : exec o s with
    | error e => simp
    | ok rs =>
      obtain ⟨r, s'⟩ := rs
      simp [ih r s']

theorem run_call_error {o : ι} {k : ρ o → Prog σ ε ι ρ α} {s : σ} {e : ε} (h : exec o s = .error e)
    : (call o k).run exec s = .error e := by
  simp only [run, h]

theorem run_bind (p : Prog σ ε ι ρ α) (f : α → Prog σ ε ι ρ β) (s : σ)
    : (p >>= f).run exec s
        =
      match p.run exec s with
      | .error e => .error e
      | .ok (a, s') => (f a).run exec s' := by
  show (p.bind f).run exec s = _
  induction p generalizing s with
  | ret a => rfl
  | fail e => rfl
  | get k ih => exact ih s s
  | modify g k ih => exact ih (g s)
  | call o k ih =>
    simp only [bind, run]
    cases exec o s with
    | error e => rfl
    | ok rs => exact ih rs.1 rs.2

theorem meets_bind (p : Prog σ ε ι ρ α) (f : α → Prog σ ε ι ρ β) (s : σ)
    : (p >>= f).Meets exec ok s
        ↔
      p.Meets exec ok s ∧ ∀ a s', p.run exec s = .ok (a, s') → (f a).Meets exec ok s' := by
  show (p.bind f).Meets exec ok s ↔ _
  induction p generalizing s with
  | ret a => simp [bind, Meets, run]
  | fail e => simp [bind, Meets]
  | get k ih => exact ih s s
  | modify g k ih => exact ih (g s)
  | call o k ih =>
    simp only [bind, Meets, run, ih]
    cases exec o s with
    | error e => simp
    | ok rs =>
      obtain ⟨r, s'⟩ := rs
      simp [and_assoc]

theorem meets_bind_of_ok {p : Prog σ ε ι ρ α} {f : α → Prog σ ε ι ρ β} {s s' : σ} {a : α}
    (hmeets : p.Meets exec ok s) (hrun : p.run exec s = .ok (a, s'))
    : (p >>= f).Meets exec ok s ↔ (f a).Meets exec ok s' := by
  rw [meets_bind, hrun]
  simp [hmeets]

end Prog
end Command
