import Mathlib.Init

namespace Run

universe u v

variable {σ : Type u} {α : Type v}

def exec (step : σ → α → Option σ) (s : σ) : List α → Option σ
  | [] => some s
  | a :: as =>
    match step s a with
    | some s' => exec step s' as
    | none => none

inductive Reaches (step : σ → α → Option σ) (ok : σ → α → Prop) (init : σ) : σ → Prop where
  | refl : Reaches step ok init init
  | tail {s s' : σ} {a : α} : Reaches step ok init s → ok s a → step s a = some s' →
      Reaches step ok init s'

theorem bind_eq_ok_iff {ε β γ : Type} {x : Except ε β} {f : β → Except ε γ} {c : γ}
    : (x >>= f) = .ok c ↔ ∃ b, x = .ok b ∧ f b = .ok c := by
  cases x with
  | error e => simp [bind, Except.bind]
  | ok b => simp [bind, Except.bind]

theorem ok_of_toOption {ε β : Type} {x : Except ε β} {b : β} (h : x.toOption = some b) : x = .ok b := by
  cases x with
  | error e => cases h
  | ok b' => exact congrArg Except.ok (Option.some.inj h)

variable {step : σ → α → Option σ} {ok : σ → α → Prop} {init : σ}

theorem Reaches.invariant (Inv : σ → Prop) (hinit : Inv init)
    (hstep : ∀ (s s' : σ) (a : α), Inv s → ok s a → step s a = some s' → Inv s') {s : σ}
    (h : Reaches step ok init s)
    : Inv s := by
  induction h with
  | refl => exact hinit
  | tail _ hok hs ih => exact hstep _ _ _ ih hok hs

theorem Reaches.trans {s t : σ} (h1 : Reaches step ok init s) (h2 : Reaches step ok s t)
    : Reaches step ok init t := by
  induction h2 with
  | refl => exact h1
  | tail _ hok hs ih => exact .tail ih hok hs

def AllOk (step : σ → α → Option σ) (ok : σ → α → Prop) (s : σ) : List α → Prop
  | [] => True
  | a :: as => ok s a ∧ ∀ s', step s a = some s' → AllOk step ok s' as

instance decidableAllOk [∀ (s : σ) (a : α), Decidable (ok s a)]
    : (s : σ) → (as : List α) → Decidable (AllOk step ok s as)
  | _, [] => isTrue trivial
  | s, a :: as =>
    match h : step s a with
    | none => decidable_of_iff (ok s a) (by simp [AllOk, h])
    | some s' =>
      have := decidableAllOk s' as
      decidable_of_iff (ok s a ∧ AllOk step ok s' as) (by simp [AllOk, h])

theorem Reaches.of_exec {as : List α} {s : σ} (hok : AllOk step ok init as)
    (h : exec step init as = some s)
    : Reaches step ok init s := by
  induction as generalizing init with
  | nil =>
    simp only [exec, Option.some.injEq] at h
    subst h
    exact .refl
  | cons a as ih =>
    unfold AllOk at hok
    unfold exec at h
    split at h
    . next s' hs =>
      have hhead : Reaches step ok init s' := .tail .refl hok.left hs
      exact hhead.trans (ih (hok.right s' hs) h)
    . simp at h

theorem exec_ne_none_iff (hstep : ∀ (s : σ) (a : α), step s a ≠ none ↔ ok s a) {as : List α} {s : σ}
    : exec step s as ≠ none ↔ AllOk step ok s as := by
  induction as generalizing s with
  | nil => exact ⟨fun _ => trivial, nofun⟩
  | cons a as ih =>
    unfold exec AllOk
    rw [← hstep]
    cases step s a with
    | none => simp
    | some s' =>
      rw [ih]
      simp

theorem exec_append {as bs : List α} {s : σ}
    : exec step s (as ++ bs) = (exec step s as).bind fun t => exec step t bs := by
  induction as generalizing s with
  | nil => rfl
  | cons a as ih =>
    rw [List.cons_append, exec, exec]
    cases step s a with
    | none => rfl
    | some s' => exact ih

theorem exec_append_singleton {as : List α} {a : α} {s s' : σ} (h : exec step s (as ++ [a]) = some s')
    : ∃ t, exec step s as = some t ∧ step t a = some s' := by
  induction as generalizing s with
  | nil =>
    rw [List.nil_append, exec] at h
    split at h
    . next s₁ hs =>
      rw [exec, Option.some.injEq] at h
      exact ⟨s, rfl, h ▸ hs⟩
    . simp at h
  | cons b as ih =>
    rw [List.cons_append, exec] at h
    unfold exec
    split at h
    . exact ih h
    . simp at h

theorem exec_of_abstract {τ : Type*} {abstractStep : τ → α → Option τ} {abs : σ → τ}
    (hstep : ∀ s a t, abstractStep (abs s) a = some t → ∃ s', step s a = some s' ∧ abs s' = t) {as : List α} {s : σ}
    {t : τ} (h : exec abstractStep (abs s) as = some t)
    : ∃ s', exec step s as = some s' ∧ abs s' = t := by
  induction as generalizing s with
  | nil =>
    rw [exec, Option.some.injEq] at h
    exact ⟨s, rfl, h⟩
  | cons a as ih =>
    unfold exec at h
    split at h
    . next t' ht =>
      obtain ⟨s', hs, rfl⟩ := hstep s a t' ht
      obtain ⟨s'', hexec, habs⟩ := ih h
      refine ⟨s'', ?_, habs⟩
      rw [exec, hs]
      exact hexec
    . cases h

theorem allOk_of_forall_mem {as : List α} {s : σ} (h : ∀ (t : σ), ∀ a ∈ as, ok t a) : AllOk step ok s as := by
  induction as generalizing s with
  | nil => trivial
  | cons a as ih =>
    constructor
    . exact h s a List.mem_cons_self
    . intro s' _
      exact ih fun t b hb => h t b (List.mem_cons_of_mem a hb)

theorem allOk_of_forall {as : List α} {s : σ} (h : ∀ (t : σ) (a : α), ok t a) : AllOk step ok s as :=
  allOk_of_forall_mem fun t a _ => h t a

theorem AllOk.initial {as bs : List α} {s : σ} (h : AllOk step ok s as) (hinitial : bs <+: as)
    : AllOk step ok s bs := by
  obtain ⟨cs, rfl⟩ := hinitial
  induction bs generalizing s with
  | nil => trivial
  | cons b bs ih => exact ⟨h.left, fun s' hs => ih (h.right s' hs)⟩

theorem AllOk.of_append {as bs : List α} {s t : σ} (h : AllOk step ok s (as ++ bs)) (hexec : exec step s as = some t)
    : AllOk step ok t bs := by
  induction as generalizing s with
  | nil =>
    rw [exec, Option.some.injEq] at hexec
    exact hexec ▸ h
  | cons a as ih =>
    unfold exec at hexec
    split at hexec
    . next s' hs => exact ih (h.right s' hs) hexec
    . cases hexec

theorem exec_initial {as bs : List α} {s s' : σ} (h : exec step s as = some s') (hinitial : bs <+: as)
    : ∃ t, exec step s bs = some t := by
  obtain ⟨cs, rfl⟩ := hinitial
  rw [exec_append] at h
  obtain ⟨t, ht, _⟩ := Option.bind_eq_some_iff.mp h
  exact ⟨t, ht⟩

end Run
