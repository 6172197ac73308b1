import Mathlib.Logic.Function.Basic

namespace WriteBack

universe u v w

structure Line (κ : Type v) (γ : Type w) where
  key : Option κ
  value : γ
  valid : Bool
  dirty : Bool

variable {ι : Type u} {κ : Type v} {γ : Type w}

structure Coherent (line : ι → Line κ γ) (store view : κ → γ) : Prop where
  unique : ∀ i j k, (line i).key = some k → (line j).key = some k → i = j
  value_eq : ∀ i k, (line i).key = some k → (line i).valid = true ∨ (line i).dirty = true → (line i).value = view k
  store_eq : ∀ k, (∀ i, (line i).key = some k → (line i).dirty = false) → store k = view k

namespace Coherent

variable [DecidableEq ι] {line line' : ι → Line κ γ} {store store' view view' : κ → γ} {i : ι} {k k' : κ} {v : γ}

theorem of_key_eq (h : Coherent line store view) (hkey : (line' i).key = (line i).key) (hother : ∀ j, j ≠ i → line' j = line j)
    (hvalue : ∀ k, (line i).key = some k → (line' i).valid = true ∨ (line' i).dirty = true → (line' i).value = view' k)
    (hview : ∀ k, (line i).key ≠ some k → view' k = view k) (hstore : ∀ k, (line i).key ≠ some k → store' k = store k)
    (hclean : ∀ k, (line i).key = some k → (line' i).dirty = false → store' k = view' k)
    : Coherent line' store' view' := by
  have hkeys : ∀ j, (line' j).key = (line j).key := by
    intro j
    by_cases hj : j = i
    . rw [hj, hkey]
    . rw [hother j hj]
  constructor
  . intro a b c ha hb
    rw [hkeys] at ha hb
    exact h.unique a b c ha hb
  . intro j c hc hset
    rw [hkeys] at hc
    by_cases hj : j = i
    . subst hj
      exact hvalue c hc hset
    . have hne : (line i).key ≠ some c := by
        intro heq
        exact hj (h.unique j i c hc heq)
      rw [hother j hj] at hset ⊢
      rw [hview c hne]
      exact h.value_eq j c hc hset
  . intro c hc
    by_cases hi : (line i).key = some c
    . exact hclean c hi (hc i ((hkeys i).trans hi))
    . rw [hstore c hi, hview c hi]
      apply h.store_eq
      intro j hj
      have hne : j ≠ i := by
        intro heq
        exact hi (heq ▸ hj)
      have hdirty := hc j ((hkeys j).trans hj)
      rw [hother j hne] at hdirty
      exact hdirty

theorem fill (h : Coherent line store view) (hk : (line i).key = some k) (hdirty : (line i).dirty = false)
    (hline : line' = Function.update line i { key := some k, value := store k, valid := true, dirty := false })
    : Coherent line' store view := by
  have hstore : store k = view k := by
    apply h.store_eq
    intro j hj
    rw [h.unique j i k hj hk]
    exact hdirty
  subst hline
  apply h.of_key_eq (i := i)
  . rw [Function.update_self, hk]
  . intro j hj
    exact Function.update_of_ne hj _ _
  . intro c hc _
    rw [hk, Option.some.injEq] at hc
    subst hc
    rw [Function.update_self]
    exact hstore
  . intro c _
    rfl
  . intro c _
    rfl
  . intro c hc _
    rw [hk, Option.some.injEq] at hc
    exact hc ▸ hstore

variable [DecidableEq κ]

theorem flush (h : Coherent line store view) (hk : (line i).key = some k)
    (hset : (line i).valid = true ∨ (line i).dirty = true)
    (hline : line' = Function.update line i { line i with valid := true, dirty := false })
    (hstore : store' = Function.update store k (line i).value)
    : Coherent line' store' view := by
  have hvalue := h.value_eq i k hk hset
  subst hline hstore
  apply h.of_key_eq (i := i)
  . rw [Function.update_self]
  . intro j hj
    exact Function.update_of_ne hj _ _
  . intro c hc _
    rw [hk, Option.some.injEq] at hc
    subst hc
    rw [Function.update_self]
    exact hvalue
  . intro c _
    rfl
  . intro c hc
    have hne : c ≠ k := by
      intro heq
      exact hc (heq ▸ hk)
    exact Function.update_of_ne hne _ _
  . intro c hc _
    rw [hk, Option.some.injEq] at hc
    subst hc
    rw [Function.update_self, hvalue]

theorem modify (h : Coherent line store view) (hk : (line i).key = some k)
    (hline : line' = Function.update line i { line i with value := v, dirty := true })
    (hview : view' = Function.update view k v)
    : Coherent line' store view' := by
  subst hline hview
  apply h.of_key_eq (i := i)
  . rw [Function.update_self]
  . intro j hj
    exact Function.update_of_ne hj _ _
  . intro c hc _
    rw [hk, Option.some.injEq] at hc
    subst hc
    rw [Function.update_self, Function.update_self]
  . intro c hc
    have hne : c ≠ k := by
      intro heq
      exact hc (heq ▸ hk)
    exact Function.update_of_ne hne _ _
  . intro c _
    rfl
  . intro c _ hclean
    rw [Function.update_self] at hclean
    simp at hclean

omit [DecidableEq κ] in
theorem replace (h : Coherent line store view) (hdirty : (line i).dirty = false) (hk : ∀ j, (line j).key ≠ some k)
    (hline : line' = Function.update line i { line i with key := some k, valid := false, dirty := false })
    : Coherent line' store view := by
  subst hline
  have hcases : ∀ j c, (Function.update line i { line i with key := some k, valid := false, dirty := false } j).key = some c →
      j = i ∧ c = k ∨ j ≠ i ∧ (line j).key = some c := by
    intro j c hc
    by_cases hj : j = i
    . subst hj
      rw [Function.update_self] at hc
      exact .inl ⟨rfl, (Option.some.inj hc).symm⟩
    . rw [Function.update_of_ne hj] at hc
      exact .inr ⟨hj, hc⟩
  constructor
  . intro a b c ha hb
    rcases hcases a c ha with ⟨rfl, rfl⟩ | ⟨_, hold⟩
    . rcases hcases b c hb with ⟨rfl, _⟩ | ⟨_, hold'⟩
      . rfl
      . exact absurd hold' (hk b)
    . rcases hcases b c hb with ⟨rfl, rfl⟩ | ⟨_, hold'⟩
      . exact absurd hold (hk a)
      . exact h.unique a b c hold hold'
  . intro j c hc hset
    rcases hcases j c hc with ⟨rfl, _⟩ | ⟨hj, hc⟩
    . rw [Function.update_self] at hset
      simp at hset
    . rw [Function.update_of_ne hj] at hset ⊢
      exact h.value_eq j c hc hset
  . intro c hc
    apply h.store_eq
    intro j hj
    by_cases heq : j = i
    . exact heq ▸ hdirty
    . have hclean := hc j
      rw [Function.update_of_ne heq] at hclean
      exact hclean hj

omit [DecidableEq κ] in
theorem discard (h : Coherent line store view) (hdirty : (line i).dirty = false)
    (hline : line' = Function.update line i { line i with key := none, valid := false, dirty := false })
    : Coherent line' store view := by
  subst hline
  have hcases : ∀ j c, (Function.update line i { line i with key := none, valid := false, dirty := false } j).key = some c →
      j ≠ i ∧ (line j).key = some c := by
    intro j c hc
    by_cases hj : j = i
    . subst hj
      rw [Function.update_self] at hc
      cases hc
    . rw [Function.update_of_ne hj] at hc
      exact ⟨hj, hc⟩
  constructor
  . intro a b c ha hb
    exact h.unique a b c (hcases a c ha).right (hcases b c hb).right
  . intro j c hc hset
    obtain ⟨hj, hc⟩ := hcases j c hc
    rw [Function.update_of_ne hj] at hset ⊢
    exact h.value_eq j c hc hset
  . intro c hc
    apply h.store_eq
    intro j hj
    by_cases heq : j = i
    . exact heq ▸ hdirty
    . have hclean := hc j
      rw [Function.update_of_ne heq] at hclean
      exact hclean hj

end Coherent
end WriteBack
