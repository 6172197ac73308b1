import Mathlib.Data.Fintype.Card

/-!
This module contains pages that are shared by reference counting. A key has a page in some frame, and the count
of a frame says how many keys have their page in it. A key may write to its page only if no other key shares the
frame. Under this rule sharing cannot be told from copying: every operation does to the pages that the keys see
what it would do if each key had a page of its own.
-/

namespace Sharing

universe u v w

variable {κ : Type u} {φ : Type v} {γ : Type w}

structure Mapping (κ : Type u) (φ : Type v) where
  frame : κ → Option φ
  writable : κ → Bool
  count : φ → Nat

namespace Mapping

def view (m : Mapping κ φ) (content : φ → γ) (k : κ) : Option γ :=
  (m.frame k).map content

def Unused (m : Mapping κ φ) (f : φ) : Prop :=
  ∀ k, m.frame k ≠ some f

theorem view_congr {m : Mapping κ φ} {k : κ} {content content' : φ → γ}
    (h : ∀ f, m.frame k = some f → content' f = content f)
    : m.view content' k = m.view content k := by
  unfold view
  cases hframe : m.frame k with
  | none => rfl
  | some f => rw [Option.map_some, Option.map_some, h f hframe]

section sound

variable [Fintype κ] [DecidableEq φ]

def sharers (m : Mapping κ φ) (f : φ) : Finset κ :=
  Finset.univ.filter fun k => m.frame k = some f

structure Sound (m : Mapping κ φ) : Prop where
  count_eq : ∀ k f, m.frame k = some f → m.count f = (m.sharers f).card
  exclusive : ∀ k k' f, m.writable k = true → m.frame k = some f → m.frame k' = some f → k' = k

variable {m : Mapping κ φ} {k k' : κ} {f : φ}

theorem mem_sharers : k ∈ m.sharers f ↔ m.frame k = some f := by
  simp [sharers]

theorem Sound.count_pos (h : m.Sound) (hk : m.frame k = some f) : 0 < m.count f := by
  rw [h.count_eq k f hk]
  exact Finset.card_pos.mpr ⟨k, mem_sharers.mpr hk⟩

theorem Sound.unused (h : m.Sound) (hf : m.count f = 0) : m.Unused f := by
  intro k hk
  have hpos := h.count_pos hk
  omega

theorem Sound.eq_of_count_one (h : m.Sound) (hone : m.count f = 1) (hk : m.frame k = some f)
    (hk' : m.frame k' = some f)
    : k' = k := by
  have hcard := h.count_eq k f hk
  rw [hone] at hcard
  exact Finset.card_le_one.mp (Nat.le_of_eq hcard.symm) k' (mem_sharers.mpr hk') k (mem_sharers.mpr hk)

end sound

variable [DecidableEq κ] [DecidableEq φ]

-- `k'` gets the page of `k`, which is in `f`.
def share (m : Mapping κ φ) (k k' : κ) (f : φ) : Mapping κ φ :=
  {
    frame := Function.update m.frame k' (some f)
    writable := Function.update (Function.update m.writable k false) k' false
    count := Function.update m.count f (m.count f + 1)
  }

def clear (m : Mapping κ φ) (k : κ) : Mapping κ φ :=
  { m with frame := Function.update m.frame k none, writable := Function.update m.writable k false }

def drop (m : Mapping κ φ) (k : κ) (f : φ) : Mapping κ φ :=
  { m.clear k with count := Function.update m.count f (m.count f - 1) }

def reserve (m : Mapping κ φ) (f : φ) : Mapping κ φ :=
  { m with count := Function.update m.count f 1 }

def attach (m : Mapping κ φ) (k : κ) (f : φ) : Mapping κ φ :=
  { m with frame := Function.update m.frame k (some f), writable := Function.update m.writable k true }

def own (m : Mapping κ φ) (k : κ) : Mapping κ φ :=
  { m with writable := Function.update m.writable k true }

-- `k` gives up its share of `f` and gets a page of its own in `g`.
def move (m : Mapping κ φ) (k : κ) (f g : φ) : Mapping κ φ :=
  ((m.reserve g).drop k f).attach k g

section view

variable {m : Mapping κ φ} {content : φ → γ} {k k' : κ} {f : φ}

theorem view_share (hk : m.frame k = some f)
    : (m.share k k' f).view content = Function.update (m.view content) k' (m.view content k) := by
  funext j
  by_cases hj : j = k'
  . subst hj
    simp [view, share, hk]
  . simp [view, share, hj]

omit [DecidableEq φ] in
theorem view_clear : (m.clear k).view content = Function.update (m.view content) k none := by
  funext j
  by_cases hj : j = k
  . subst hj
    simp [view, clear]
  . simp [view, clear, hj]

theorem view_drop : (m.drop k f).view content = Function.update (m.view content) k none :=
  view_clear

omit [DecidableEq φ] in
theorem view_attach : (m.attach k f).view content = Function.update (m.view content) k (some (content f)) := by
  funext j
  by_cases hj : j = k
  . subst hj
    simp [view, attach]
  . simp [view, attach, hj]

theorem view_move {g : φ} {content' : φ → γ} {j : κ} (hk : m.frame k = some f) (hself : content' g = content f)
    (hother : ∀ g', m.frame j = some g' → content' g' = content g')
    : (m.move k f g).view content' j = m.view content j := by
  unfold move
  rw [view_attach, view_drop]
  by_cases hj : j = k
  . rw [hj, Function.update_self, hself]
    unfold view
    rw [hk]
    rfl
  . rw [Function.update_of_ne hj, Function.update_of_ne hj]
    exact view_congr hother

end view

variable [Fintype κ] {m : Mapping κ φ} {k k' : κ} {f g : φ}

theorem sharers_update_of_ne (hk : m.frame k ≠ some g) {v : Option φ} (hv : v ≠ some g)
    : Finset.univ.filter (fun j => Function.update m.frame k v j = some g) = m.sharers g := by
  ext j
  rw [mem_sharers, Finset.mem_filter]
  by_cases hj : j = k
  . subst hj
    simp [hk, hv]
  . simp [Function.update_of_ne hj]

theorem card_sharers_insert (hk : m.frame k ≠ some f)
    : (Finset.univ.filter fun j => Function.update m.frame k (some f) j = some f).card
        = (m.sharers f).card + 1 := by
  rw [← Finset.card_insert_of_notMem (mem_sharers.not.mpr hk)]
  congr 1
  ext j
  rw [Finset.mem_insert, mem_sharers, Finset.mem_filter]
  by_cases hj : j = k
  . subst hj
    simp
  . simp [hj]

theorem card_sharers_erase (hk : m.frame k = some f)
    : (Finset.univ.filter fun j => Function.update m.frame k none j = some f).card
        = (m.sharers f).card - 1 := by
  rw [← Finset.card_erase_of_mem (mem_sharers.mpr hk)]
  congr 1
  ext j
  rw [Finset.mem_erase, mem_sharers, Finset.mem_filter]
  by_cases hj : j = k
  . subst hj
    simp
  . simp [hj]

theorem Sound.share (h : m.Sound) (hk : m.frame k = some f) (hk' : m.frame k' = none)
    : (m.share k k' f).Sound := by
  constructor
  . intro j g hj
    by_cases hg : g = f
    . subst hg
      rw [show (m.share k k' g).count g = m.count g + 1 from Function.update_self _ _ _, h.count_eq k g hk]
      exact (card_sharers_insert (by simp [hk'])).symm
    . have hne : j ≠ k' := by
        intro heq
        rw [heq, show (m.share k k' f).frame k' = some f from Function.update_self _ _ _, Option.some.injEq] at hj
        exact hg hj.symm
      rw [show (m.share k k' f).frame j = m.frame j from Function.update_of_ne hne _ _] at hj
      rw [show (m.share k k' f).count g = m.count g from Function.update_of_ne hg _ _, h.count_eq j g hj]
      exact congrArg Finset.card (sharers_update_of_ne (by simp [hk']) (by simp [Ne.symm hg])).symm
  . intro j j' g hwritable hj hj'
    have hne' : j ≠ k' := by
      intro heq
      simp [Mapping.share, heq] at hwritable
    have hne : j ≠ k := by
      intro heq
      subst heq
      simp [Mapping.share, hne'] at hwritable
    simp only [Mapping.share, Function.update_of_ne hne', Function.update_of_ne hne] at hwritable hj
    by_cases heq : j' = k'
    . -- The page that `k'` gets is not writable for `k`, so `j` would share it with `k` already.
      subst heq
      simp only [Mapping.share, Function.update_self, Option.some.injEq] at hj'
      subst hj'
      exact absurd (h.exclusive j k f hwritable hj hk).symm hne
    . simp only [Mapping.share, Function.update_of_ne heq] at hj'
      exact h.exclusive j j' g hwritable hj hj'

omit [Fintype κ] [DecidableEq φ] in
theorem frame_clear {j : κ} (hj : (m.clear k).frame j = some g) : j ≠ k ∧ m.frame j = some g := by
  by_cases heq : j = k
  . simp [clear, heq] at hj
  . simp only [clear, Function.update_of_ne heq] at hj
    exact ⟨heq, hj⟩

theorem Sound.clear (h : m.Sound) (hk : m.frame k = none) : (m.clear k).Sound := by
  constructor
  . intro j g hj
    rw [show (m.clear k).count g = m.count g from rfl, h.count_eq j g (frame_clear hj).right]
    exact congrArg Finset.card (sharers_update_of_ne (by simp [hk]) (by simp)).symm
  . intro j j' g hwritable hj hj'
    obtain ⟨hne, hj⟩ := frame_clear hj
    simp only [Mapping.clear, Function.update_of_ne hne] at hwritable
    exact h.exclusive j j' g hwritable hj (frame_clear hj').right

theorem Sound.drop (h : m.Sound) (hk : m.frame k = some f) : (m.drop k f).Sound := by
  have hframe : ∀ j g, (m.drop k f).frame j = some g → j ≠ k ∧ m.frame j = some g :=
    fun _ _ hj => frame_clear hj
  constructor
  . intro j g hj
    obtain ⟨_, hj⟩ := hframe j g hj
    by_cases hg : g = f
    . subst hg
      rw [show (m.drop k g).count g = m.count g - 1 from Function.update_self _ _ _, h.count_eq k g hk]
      exact (card_sharers_erase hk).symm
    . rw [show (m.drop k f).count g = m.count g from Function.update_of_ne hg _ _, h.count_eq j g hj]
      exact congrArg Finset.card (sharers_update_of_ne (by simp [hk, Ne.symm hg]) (by simp)).symm
  . intro j j' g hwritable hj hj'
    obtain ⟨hne, hj⟩ := hframe j g hj
    simp only [Mapping.drop, Mapping.clear, Function.update_of_ne hne] at hwritable
    exact h.exclusive j j' g hwritable hj (hframe j' g hj').right

omit [Fintype κ] [DecidableEq φ] in
theorem frame_attach {j : κ} (hj : (m.attach k f).frame j = some g) : j = k ∧ g = f ∨ m.frame j = some g := by
  by_cases heq : j = k
  . simp only [attach, heq, Function.update_self, Option.some.injEq] at hj
    exact .inl ⟨heq, hj.symm⟩
  . simp only [attach, Function.update_of_ne heq] at hj
    exact .inr hj

omit [DecidableEq κ] in
theorem Sound.reserve (h : m.Sound) (hf : m.Unused f) : (m.reserve f).Sound := by
  constructor
  . intro j g hj
    have hg : g ≠ f := by
      intro heq
      exact hf j (heq ▸ hj)
    rw [show (m.reserve f).count g = m.count g from Function.update_of_ne hg _ _, h.count_eq j g hj]
    rfl
  . exact h.exclusive

theorem Sound.attach (h : m.Sound) (hk : m.frame k = none) (hf : m.Unused f) (hone : m.count f = 1)
    : (m.attach k f).Sound := by
  have hframe : ∀ j g, (m.attach k f).frame j = some g → j = k ∧ g = f ∨ j ≠ k ∧ g ≠ f ∧ m.frame j = some g := by
    intro j g hj
    rcases frame_attach hj with hnew | hold
    . exact .inl hnew
    . refine .inr ⟨?_, fun hg => hf j (hg ▸ hold), hold⟩
      intro heq
      rw [heq, hk] at hold
      simp at hold
  constructor
  . intro j g hj
    rcases hframe j g hj with ⟨rfl, rfl⟩ | ⟨_, hg, hj⟩
    . have hempty : (m.sharers g).card = 0 := by
        rw [Finset.card_eq_zero, Finset.eq_empty_iff_forall_notMem]
        intro j hj
        exact hf j (mem_sharers.mp hj)
      rw [show (m.attach j g).count g = 0 + 1 from hone, ← hempty]
      exact (card_sharers_insert (by simp [hk])).symm
    . rw [show (m.attach k f).count g = m.count g from rfl, h.count_eq j g hj]
      exact congrArg Finset.card (sharers_update_of_ne (by simp [hk]) (by simp [Ne.symm hg])).symm
  . intro j j' g hwritable hj hj'
    rcases hframe j g hj with ⟨rfl, rfl⟩ | ⟨hne, hg, hj⟩
    . rcases hframe j' g hj' with ⟨rfl, _⟩ | ⟨_, hg, _⟩
      . rfl
      . exact absurd rfl hg
    . rcases hframe j' g hj' with ⟨_, rfl⟩ | ⟨_, _, hj'⟩
      . exact absurd rfl hg
      . simp only [Mapping.attach, Function.update_of_ne hne] at hwritable
        exact h.exclusive j j' g hwritable hj hj'

theorem Sound.own (h : m.Sound) (hk : m.frame k = some f) (hone : m.count f = 1) : (m.own k).Sound := by
  constructor
  . exact h.count_eq
  . intro j j' g hwritable hj hj'
    by_cases heq : j = k
    . subst heq
      have hg : g = f := Option.some.inj (hj.symm.trans hk)
      subst hg
      exact h.eq_of_count_one hone hj hj'
    . simp only [Mapping.own, Function.update_of_ne heq] at hwritable
      exact h.exclusive j j' g hwritable hj hj'

omit [Fintype κ] in
theorem frame_move {j : κ} {g' : φ} (hj : (m.move k f g).frame j = some g') : j = k ∧ g' = g ∨ m.frame j = some g' := by
  rcases frame_attach hj with hnew | hold
  . exact .inl hnew
  . exact .inr (frame_clear hold).right

theorem Sound.move (h : m.Sound) (hk : m.frame k = some f) (hg : m.Unused g) : (m.move k f g).Sound := by
  have hfg : f ≠ g := by
    intro heq
    exact hg k (heq ▸ hk)
  have hreserved : (m.reserve g).frame k = some f := hk
  apply ((h.reserve hg).drop hreserved).attach
  . exact Function.update_self _ _ _
  . intro j hj
    exact hg j (frame_clear hj).right
  . rw [show ((m.reserve g).drop k f).count g = _ from Function.update_of_ne (Ne.symm hfg) _ _]
    exact Function.update_self _ _ _

end Mapping
end Sharing
