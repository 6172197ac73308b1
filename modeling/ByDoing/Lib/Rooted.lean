import Mathlib.Logic.Relation

namespace Rooted

open Relation

universe u

variable {τ : Type u}

def Reaches (edge : τ → τ → Prop) (root : τ → Prop) (t : τ) : Prop :=
  ∃ r, root r ∧ ReflTransGen edge r t

variable {edge edge' : τ → τ → Prop} {root root' : τ → Prop} {t : τ}

theorem of_root (h : root t) : Reaches edge root t :=
  ⟨t, h, .refl⟩

theorem Reaches.tail {u : τ} (h : Reaches edge root t) (hedge : edge t u) : Reaches edge root u := by
  obtain ⟨r, hroot, hpath⟩ := h
  exact ⟨r, hroot, hpath.tail hedge⟩

theorem Reaches.trans (h : Reaches edge root t) (hroot : ∀ r, root r → Reaches edge root' r)
    : Reaches edge root' t := by
  obtain ⟨r, hr, hpath⟩ := h
  induction hpath with
  | refl => exact hroot r hr
  | tail _ hedge ih => exact ih.tail hedge

theorem Reaches.mono (h : Reaches edge root t) (hedge : ∀ x y, edge x y → edge' x y)
    (hroot : ∀ r, root r → Reaches edge' root' r)
    : Reaches edge' root' t := by
  obtain ⟨r, hr, hpath⟩ := h
  have hpath' : ReflTransGen edge' r t := ReflTransGen.mono hedge _ _ hpath
  exact Reaches.trans ⟨r, hr, hpath'⟩ hroot

theorem Reaches.cut {live : τ → Prop} {u : τ} (h : Reaches edge root t) (ht : t ≠ u) (hlive : live t)
    (hsource : ∀ x y, edge x y → live x) (hedge : ∀ x y, x ≠ u → edge x y → edge' x y)
    (hroot : ∀ r, r ≠ u → root r → Reaches edge' root' r)
    (hnext : ∀ v, edge u v → live v → Reaches edge' root' v)
    : Reaches edge' root' t := by
  obtain ⟨r, hr, hpath⟩ := h
  induction hpath with
  | refl => exact hroot r ht hr
  | @tail x y _ hxy ih =>
    by_cases hx : x = u
    . subst hx
      exact hnext y hxy hlive
    . exact (ih hx (hsource x y hxy)).tail (hedge x y hx hxy)

theorem Reaches.root_or_edge (h : Reaches edge root t) : root t ∨ ∃ u, edge u t := by
  obtain ⟨r, hr, hpath⟩ := h
  cases hpath with
  | refl => exact .inl hr
  | tail _ hedge => exact .inr ⟨_, hedge⟩

end Rooted
