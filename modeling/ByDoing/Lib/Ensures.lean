import ByDoing.Lib.Machine

namespace Machine

variable {σ ε α β : Type}

def Ensures (x : Machine σ ε α) (s : σ) (Q : α → σ → Prop) (E : ε → Prop) : Prop :=
  match x s with
  | .ok (a, s') => Q a s'
  | .error e => E e

namespace Ensures

variable {x : Machine σ ε α} {f : α → Machine σ ε β} {s s' : σ} {a : α} {Q Q' : α → σ → Prop} {E E' : ε → Prop}

theorem of_eq_ok (hx : x s = .ok (a, s')) (h : Q a s') : Ensures x s Q E := by
  unfold Ensures
  rw [hx]
  exact h

theorem of_eq_error {e : ε} (hx : x s = .error e) (h : E e) : Ensures x s Q E := by
  unfold Ensures
  rw [hx]
  exact h

theorem ok (h : Ensures x s Q E) (hx : x s = .ok (a, s')) : Q a s' := by
  unfold Ensures at h
  rw [hx] at h
  exact h

theorem error {e : ε} (h : Ensures x s Q E) (hx : x s = .error e) : E e := by
  unfold Ensures at h
  rw [hx] at h
  exact h

theorem mono (h : Ensures x s Q E) (hQ : ∀ a s', Q a s' → Q' a s') (hE : ∀ e, E e → E' e) : Ensures x s Q' E' := by
  unfold Ensures at h ⊢
  split
  . next hx =>
    rw [hx] at h
    exact hQ _ _ h
  . next hx =>
    rw [hx] at h
    exact hE _ h

theorem imp (h : Ensures x s Q E) (hQ : ∀ a s', Q a s' → Q' a s') : Ensures x s Q' E :=
  h.mono hQ fun _ he => he

theorem pure (h : Q a s) : Ensures (pure a) s Q E :=
  of_eq_ok pure_eq h

theorem stop {e : ε} (h : E e) : Ensures (stop e : Machine σ ε α) s Q E :=
  of_eq_error rfl h

theorem get {Q : σ → σ → Prop} (h : Q s s) : Ensures get s Q E :=
  of_eq_ok get_eq h

theorem modify {g : σ → σ} {Q : Unit → σ → Prop} (h : Q () (g s)) : Ensures (modify g) s Q E :=
  of_eq_ok modify_eq h

theorem bind {Q : β → σ → Prop} (h : Ensures x s (fun a s' => Ensures (f a) s' Q E) E) : Ensures (x >>= f) s Q E := by
  cases hx : x s with
  | error e => exact of_eq_error (bind_of_eq_error hx) (h.error hx)
  | ok p =>
    unfold Ensures
    rw [bind_of_eq_ok hx]
    exact h.ok hx

theorem ite {c : Prop} [Decidable c] {x y : Machine σ ε α} (hx : c → Ensures x s Q E) (hy : ¬ c → Ensures y s Q E)
    : Ensures (if c then x else y) s Q E := by
  split
  . next h => exact hx h
  . next h => exact hy h

theorem forM {γ : Type} {is : List γ} {body : γ → Machine σ ε Unit} {Inv : σ → Prop} (hs : Inv s)
    (hbody : ∀ i ∈ is, ∀ s, Inv s → Ensures (body i) s (fun _ s' => Inv s') E)
    : Ensures (forM is body) s (fun _ s' => Inv s') E := by
  induction is generalizing s with
  | nil => exact pure hs
  | cons i is ih =>
    rw [List.forM_cons]
    apply bind
    apply (hbody i List.mem_cons_self s hs).imp
    intro _ s₁ hs₁
    exact ih hs₁ fun j hj => hbody j (List.mem_cons_of_mem i hj)

end Ensures

end Machine
