import Mathlib.Data.List.Basic

namespace Allotment

variable {ε ν : Type}

section Logs

variable (hands frees : ε → Option ν)

def Out (x : ν) : List ε → Prop
  | [] => False
  | e :: log => hands e = some x ∨ (frees e ≠ some x ∧ Out x log)

def Once (log : List ε) : Prop :=
  ∀ newer between older e e' x, log = newer ++ e' :: (between ++ e :: older) → hands e = some x → hands e' = some x →
    ∃ f ∈ between, frees f = some x

end Logs

variable {hands frees : ε → Option ν} {log : List ε} {e : ε} {x : ν}

theorem Out.of_append {between older : List ε} (hhands : hands e = some x)
    (hfrees : ∀ f ∈ between, frees f ≠ some x)
    : Out hands frees x (between ++ e :: older) := by
  induction between with
  | nil => exact .inl hhands
  | cons f between ih =>
    exact .inr ⟨hfrees f List.mem_cons_self, ih fun g hg => hfrees g (List.mem_cons_of_mem f hg)⟩

theorem Once.nil : Once hands frees [] := by
  intro newer between older e e' x hlog
  simp at hlog

theorem Once.cons (h : Once hands frees log) (hout : ∀ x, hands e = some x → ¬ Out hands frees x log)
    : Once hands frees (e :: log) := by
  intro newer between older e₁ e₂ x hlog h₁ h₂
  cases newer with
  | nil =>
    simp only [List.nil_append, List.cons.injEq] at hlog
    obtain ⟨rfl, rfl⟩ := hlog
    by_contra hnone
    exact hout x h₂ (.of_append h₁ fun f hf heq => hnone ⟨f, hf, heq⟩)
  | cons f newer =>
    simp only [List.cons_append, List.cons.injEq] at hlog
    exact h newer between older e₁ e₂ x hlog.right h₁ h₂

end Allotment
