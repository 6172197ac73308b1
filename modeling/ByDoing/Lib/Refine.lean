import ByDoing.Lib.Run

/-!
This module contains the refinement of a specification by a machine that may fail: a step of either of them
gives an output, and a step of the machine that meets its condition gives the output of the specification.
What holds of one step then holds of every run. A step that stands for nothing of the specification leaves
the state it stands for as it is.
-/

namespace Refine

universe u v w x

variable {σ : Type u} {τ : Type v} {α : Type w} {ω : Type x}

def exec (step : σ → α → Option (σ × ω)) (s : σ) : List α → Option (σ × List ω)
  | [] => some (s, [])
  | a :: as =>
    match step s a with
    | none => none
    | some (s, out) =>
      match exec step s as with
      | none => none
      | some (s, outs) => some (s, out :: outs)

def spec (step : τ → α → τ × ω) (t : τ) : List α → τ × List ω
  | [] => (t, [])
  | a :: as =>
    let (t, out) := step t a
    let (t, outs) := spec step t as
    (t, out :: outs)

def next (step : σ → α → Option (σ × ω)) (s : σ) (a : α) : Option σ :=
  (step s a).map Prod.fst

def Simulates (step : σ → α → Option (σ × ω)) (specStep : τ → α → τ × ω) (ok : σ → α → Prop)
    (Rel : σ → τ → Prop)
    : Prop :=
  ∀ s t a, Rel s t → ok s a → ∃ s', step s a = some (s', (specStep t a).snd) ∧ Rel s' (specStep t a).fst

variable {step : σ → α → Option (σ × ω)} {specStep : τ → α → τ × ω} {ok : σ → α → Prop} {Rel : σ → τ → Prop}

theorem next_eq_some {s s' : σ} {a : α} {out : ω} (h : step s a = some (s', out)) : next step s a = some s' := by
  unfold next
  rw [h]
  rfl

theorem Simulates.exec (hsim : Simulates step specStep ok Rel) {s : σ} {t : τ} (hrel : Rel s t) {as : List α}
    (hok : Run.AllOk (next step) ok s as)
    : ∃ s', exec step s as = some (s', (spec specStep t as).snd) ∧ Rel s' (spec specStep t as).fst := by
  induction as generalizing s t with
  | nil => exact ⟨s, rfl, hrel⟩
  | cons a as ih =>
    obtain ⟨hhead, htail⟩ := hok
    obtain ⟨s', hstep, hrel'⟩ := hsim s t a hrel hhead
    obtain ⟨s'', hexec, hrel''⟩ := ih hrel' (htail s' (next_eq_some hstep))
    refine ⟨s'', ?_, hrel''⟩
    unfold Refine.exec
    rw [hstep]
    dsimp only
    rw [hexec]
    rfl

section Stutter

variable {β : Type x} {machine : σ → α → Option σ} {coarse : τ → β → Option τ} {Inv : σ → Prop} {abs : σ → τ}
variable {atomic : α → β → Prop}

def Stutters (machine : σ → α → Option σ) (coarse : τ → β → Option τ) (ok : σ → α → Prop) (Inv : σ → Prop)
    (abs : σ → τ) (atomic : α → β → Prop)
    : Prop :=
  ∀ s a s', Inv s → ok s a → machine s a = some s' →
    Inv s' ∧ (abs s' = abs s ∨ ∃ b, atomic a b ∧ coarse (abs s) b = some (abs s'))

theorem Stutters.exec (hsim : Stutters machine coarse ok Inv abs atomic) {s s' : σ} {as : List α} (hinv : Inv s)
    (hok : Run.AllOk machine ok s as) (h : Run.exec machine s as = some s')
    : Inv s' ∧ ∃ bs, Run.exec coarse (abs s) bs = some (abs s') ∧ ∀ b ∈ bs, ∃ a ∈ as, atomic a b := by
  induction as generalizing s with
  | nil =>
    cases h
    exact ⟨hinv, [], rfl, by simp⟩
  | cons a as ih =>
    obtain ⟨hhead, htail⟩ := hok
    unfold Run.exec at h
    split at h
    . next s₁ hstep =>
      obtain ⟨hinv₁, habs⟩ := hsim s a s₁ hinv hhead hstep
      obtain ⟨hinv', bs, hexec, hbs⟩ := ih hinv₁ (htail s₁ hstep) h
      have hlater : ∀ b ∈ bs, ∃ a' ∈ a :: as, atomic a' b := by
        intro b hb
        obtain ⟨a', ha', hatomic⟩ := hbs b hb
        exact ⟨a', List.mem_cons_of_mem a ha', hatomic⟩
      refine ⟨hinv', ?_⟩
      cases habs with
      | inl hsame => exact ⟨bs, hsame ▸ hexec, hlater⟩
      | inr hmove =>
        obtain ⟨b, hatomic, hcoarse⟩ := hmove
        refine ⟨b :: bs, ?_, ?_⟩
        . rw [Run.exec, hcoarse]
          exact hexec
        . rw [List.forall_mem_cons]
          exact ⟨⟨a, List.mem_cons_self, hatomic⟩, hlater⟩
    . cases h

end Stutter

end Refine
