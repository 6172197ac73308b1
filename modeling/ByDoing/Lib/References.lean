import Mathlib.Data.List.Count
import ByDoing.Lib.Sharing

namespace Sharing
namespace Mapping

universe u v

variable {κ : Type u} {φ : Type v} [Fintype κ] [DecidableEq φ]

theorem card_sharers_of_kinds {α β : Type} [DecidableEq κ] {m : Mapping κ φ} {f : φ} {a : α → κ} {b : β → κ}
    (ha : Function.Injective a) (hb : Function.Injective b) (hdisjoint : ∀ x y, a x ≠ b y)
    (hcover : ∀ k, (∃ x, a x = k) ∨ ∃ y, b y = k) {s : Finset α} {t : Finset β}
    (hs : ∀ x, x ∈ s ↔ m.frame (a x) = some f) (ht : ∀ y, y ∈ t ↔ m.frame (b y) = some f)
    : (m.sharers f).card = s.card + t.card := by
  have hunion : m.sharers f = s.image a ∪ t.image b := by
    ext k
    rw [mem_sharers, Finset.mem_union, Finset.mem_image, Finset.mem_image]
    constructor
    . intro hk
      rcases hcover k with ⟨x, rfl⟩ | ⟨y, rfl⟩
      . exact .inl ⟨x, (hs x).mpr hk, rfl⟩
      . exact .inr ⟨y, (ht y).mpr hk, rfl⟩
    . rintro (⟨x, hx, rfl⟩ | ⟨y, hy, rfl⟩)
      . exact (hs x).mp hx
      . exact (ht y).mp hy
  rw [hunion, Finset.card_union_of_disjoint, Finset.card_image_of_injective s ha, Finset.card_image_of_injective t hb]
  rw [Finset.disjoint_left]
  intro k hk hk'
  obtain ⟨x, _, rfl⟩ := Finset.mem_image.mp hk
  obtain ⟨y, _, hy⟩ := Finset.mem_image.mp hk'
  exact hdisjoint x y hy.symm

structure Exact (m : Mapping κ φ) (held : List φ) (sole : κ → Prop) (managed : φ → Prop) : Prop where
  count_eq : ∀ f, managed f → m.count f = (m.sharers f).card + held.count f
  managed_of_frame : ∀ k f, m.frame k = some f → managed f
  managed_of_held : ∀ f ∈ held, managed f
  unused_of_held : ∀ f ∈ held, m.Unused f
  nodup : held.Nodup
  exclusive : ∀ k k' f, sole k → m.frame k = some f → m.frame k' = some f → k' = k

namespace Exact

variable {m m' : Mapping κ φ} {held : List φ} {sole : κ → Prop} {managed : φ → Prop} {k k' : κ} {f : φ}

theorem sharers_congr (hframe : m'.frame = m.frame) : m'.sharers = m.sharers := by
  funext f
  unfold sharers
  rw [hframe]

theorem congr (h : m.Exact held sole managed) (hframe : m'.frame = m.frame) (hcount : m'.count = m.count)
    : m'.Exact held sole managed := by
  have hsharers := sharers_congr hframe
  constructor
  . rw [hcount, hsharers]
    exact h.count_eq
  . rw [hframe]
    exact h.managed_of_frame
  . exact h.managed_of_held
  . unfold Unused
    rw [hframe]
    exact h.unused_of_held
  . exact h.nodup
  . rw [hframe]
    exact h.exclusive

theorem card_of_unused (h : m.Unused f) : (m.sharers f).card = 0 := by
  rw [Finset.card_eq_zero, Finset.eq_empty_iff_forall_notMem]
  intro k hk
  exact h k (mem_sharers.mp hk)

theorem unreferenced (h : m.Exact held sole managed) (hf : managed f) (hzero : m.count f = 0)
    : m.Unused f ∧ f ∉ held := by
  have hcount := h.count_eq f hf
  constructor
  . intro k hk
    have hpos : 0 < (m.sharers f).card := Finset.card_pos.mpr ⟨k, mem_sharers.mpr hk⟩
    omega
  . intro hmem
    have hpos := List.count_pos_iff.mpr hmem
    omega

theorem count_held (h : m.Exact held sole managed) (hf : f ∈ held) : m.count f = 1 := by
  rw [h.count_eq f (h.managed_of_held f hf), card_of_unused (h.unused_of_held f hf), List.count_eq_one_of_mem h.nodup hf]

theorem count_pos (h : m.Exact held sole managed) (hk : m.frame k = some f) : 0 < m.count f := by
  have hpos : 0 < (m.sharers f).card := Finset.card_pos.mpr ⟨k, mem_sharers.mpr hk⟩
  rw [h.count_eq f (h.managed_of_frame k f hk)]
  omega

theorem count_le (h : m.Exact [] sole managed) (hf : managed f) : m.count f ≤ Fintype.card κ := by
  rw [h.count_eq f hf, List.count_nil]
  exact Finset.card_le_univ (m.sharers f)

theorem notMem_held (h : m.Exact held sole managed) (hk : m.frame k = some f) : f ∉ held := by
  intro hmem
  exact h.unused_of_held f hmem k hk

theorem get (h : m.Exact held sole managed) (hf : managed f) (hzero : m.count f = 0) (hframe : m'.frame = m.frame)
    (hcount : m'.count = Function.update m.count f 1)
    : m'.Exact (f :: held) sole managed := by
  obtain ⟨hunused, hnot⟩ := h.unreferenced hf hzero
  have hsharers := sharers_congr hframe
  constructor
  . intro g hg
    rw [hcount, hsharers]
    by_cases heq : g = f
    . subst heq
      rw [Function.update_self, card_of_unused hunused, List.count_cons_self, List.count_eq_zero.mpr hnot]
    . rw [Function.update_of_ne heq, h.count_eq g hg, List.count_cons_of_ne (Ne.symm heq)]
  . rw [hframe]
    exact h.managed_of_frame
  . intro g hg
    rcases List.mem_cons.mp hg with rfl | hg
    . exact hf
    . exact h.managed_of_held g hg
  . unfold Unused
    rw [hframe]
    intro g hg
    rcases List.mem_cons.mp hg with rfl | hg
    . exact hunused
    . exact h.unused_of_held g hg
  . exact List.nodup_cons.mpr ⟨hnot, h.nodup⟩
  . rw [hframe]
    exact h.exclusive

theorem put (h : m.Exact held sole managed) (hf : f ∈ held) (hframe : m'.frame = m.frame)
    (hcount : m'.count = Function.update m.count f (m.count f - 1))
    : m'.Exact (held.erase f) sole managed := by
  have hsharers := sharers_congr hframe
  constructor
  . intro g hg
    rw [hcount, hsharers]
    by_cases heq : g = f
    . subst heq
      rw [Function.update_self, h.count_eq g hg, List.count_erase_self]
      have hpos := List.count_pos_iff.mpr hf
      omega
    . rw [Function.update_of_ne heq, h.count_eq g hg, List.count_erase_of_ne heq]
  . rw [hframe]
    exact h.managed_of_frame
  . intro g hg
    exact h.managed_of_held g (List.mem_of_mem_erase hg)
  . unfold Unused
    rw [hframe]
    intro g hg
    exact h.unused_of_held g (List.mem_of_mem_erase hg)
  . exact h.nodup.erase f
  . rw [hframe]
    exact h.exclusive

variable [DecidableEq κ]

theorem install (h : m.Exact held sole managed) (hf : f ∈ held) (hk : m.frame k = none)
    (hframe : m'.frame = Function.update m.frame k (some f)) (hcount : m'.count = m.count)
    : m'.Exact (held.erase f) sole managed := by
  have hunused := h.unused_of_held f hf
  have hcases : ∀ j g, m'.frame j = some g → j = k ∧ g = f ∨ m.frame j = some g := by
    intro j g hj
    rw [hframe] at hj
    exact frame_attach hj
  constructor
  . intro g hg
    rw [hcount, h.count_eq g hg]
    unfold sharers
    rw [hframe]
    by_cases heq : g = f
    . subst heq
      rw [card_sharers_insert (by simp [hk]), List.count_erase_self]
      have hpos := List.count_pos_iff.mpr hf
      unfold sharers
      omega
    . rw [sharers_update_of_ne (by simp [hk]) (by simp [Ne.symm heq]), List.count_erase_of_ne heq]
      rfl
  . intro j g hj
    rcases hcases j g hj with ⟨_, rfl⟩ | hold
    . exact h.managed_of_held g hf
    . exact h.managed_of_frame j g hold
  . intro g hg
    exact h.managed_of_held g (List.mem_of_mem_erase hg)
  . intro g hg j hj
    rcases hcases j g hj with ⟨_, rfl⟩ | hold
    . exact (h.nodup.mem_erase_iff.mp hg).left rfl
    . exact h.unused_of_held g (List.mem_of_mem_erase hg) j hold
  . exact h.nodup.erase f
  . intro j j' g hsole hj hj'
    rcases hcases j g hj with ⟨rfl, rfl⟩ | hold
    . rcases hcases j' g hj' with ⟨rfl, _⟩ | hold'
      . rfl
      . exact absurd hold' (hunused j')
    . rcases hcases j' g hj' with ⟨_, rfl⟩ | hold'
      . exact absurd hold (hunused j)
      . exact h.exclusive j j' g hsole hold hold'

theorem unmap (h : m.Exact held sole managed) (hk : m.frame k = some f)
    (hframe : m'.frame = Function.update m.frame k none) (hcount : m'.count = Function.update m.count f (m.count f - 1))
    : m'.Exact held sole managed := by
  have hcases : ∀ j g, m'.frame j = some g → m.frame j = some g := by
    intro j g hj
    rw [hframe] at hj
    exact (frame_clear hj).right
  constructor
  . intro g hg
    rw [hcount]
    unfold sharers
    rw [hframe]
    by_cases heq : g = f
    . subst heq
      have hpos : 0 < (m.sharers g).card := Finset.card_pos.mpr ⟨k, mem_sharers.mpr hk⟩
      rw [Function.update_self, card_sharers_erase hk, h.count_eq g hg]
      omega
    . rw [Function.update_of_ne heq, sharers_update_of_ne (by simp [hk, Ne.symm heq]) (by simp), h.count_eq g hg]
  . intro j g hj
    exact h.managed_of_frame j g (hcases j g hj)
  . exact h.managed_of_held
  . intro g hg j hj
    exact h.unused_of_held g hg j (hcases j g hj)
  . exact h.nodup
  . intro j j' g hsole hj hj'
    exact h.exclusive j j' g hsole (hcases j g hj) (hcases j' g hj')

theorem move {g : φ} (h : m.Exact held sole managed) (hk : m.frame k = some f) (hg : g ∈ held)
    (hframe : m'.frame = Function.update m.frame k (some g))
    (hcount : m'.count = Function.update m.count f (m.count f - 1))
    : m'.Exact (held.erase g) sole managed := by
  have hmid : (m.drop k f).Exact held sole managed := h.unmap hk rfl rfl
  apply hmid.install hg
  . exact Function.update_self _ _ _
  . rw [hframe]
    exact (Function.update_idem _ _ _).symm
  . exact hcount

theorem acquire (h : m.Exact held sole managed) (hk : m.frame k = none) (hf : managed f) (hheld : f ∉ held)
    (hothers : ∀ j, sole j → m.frame j ≠ some f) (hsole : ¬sole k)
    (hframe : m'.frame = Function.update m.frame k (some f))
    (hcount : m'.count = Function.update m.count f (m.count f + 1))
    : m'.Exact held sole managed := by
  have hcases : ∀ j g, m'.frame j = some g → j = k ∧ g = f ∨ m.frame j = some g := by
    intro j g hj
    rw [hframe] at hj
    exact frame_attach hj
  constructor
  . intro g hg
    rw [hcount]
    unfold sharers
    rw [hframe]
    by_cases heq : g = f
    . subst heq
      rw [Function.update_self, card_sharers_insert (by simp [hk]), h.count_eq g hg]
      omega
    . rw [Function.update_of_ne heq, sharers_update_of_ne (by simp [hk]) (by simp [Ne.symm heq]), h.count_eq g hg]
  . intro j g hj
    rcases hcases j g hj with ⟨_, rfl⟩ | hold
    . exact hf
    . exact h.managed_of_frame j g hold
  . exact h.managed_of_held
  . intro g hg j hj
    rcases hcases j g hj with ⟨_, rfl⟩ | hold
    . exact hheld hg
    . exact h.unused_of_held g hg j hold
  . exact h.nodup
  . intro j j' g hj_sole hj hj'
    rcases hcases j g hj with ⟨rfl, _⟩ | hold
    . exact absurd hj_sole hsole
    . rcases hcases j' g hj' with ⟨_, rfl⟩ | hold'
      . exact absurd hold (hothers j hj_sole)
      . exact h.exclusive j j' g hj_sole hold hold'

theorem share (h : m.Exact held sole managed) (hk : m.frame k = some f) (hk' : m.frame k' = none) (hsole : ¬sole k)
    (hsole' : ¬sole k') (hframe : m'.frame = Function.update m.frame k' (some f))
    (hcount : m'.count = Function.update m.count f (m.count f + 1))
    : m'.Exact held sole managed := by
  apply h.acquire hk' (h.managed_of_frame k f hk) (h.notMem_held hk) _ hsole' hframe hcount
  intro j hj_sole hj
  have heq := h.exclusive j k f hj_sole hj hk
  exact hsole (heq ▸ hj_sole)

end Exact
end Mapping
end Sharing
