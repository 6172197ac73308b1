import Mathlib.Tactic.Common

/-!
This module contains the shape of a tree of directories. `D` are the directories and `e d k` is what entry `k` of `d`
names, where 0 stands for an entry that is free or missing. The entries 0 and 1 of a directory are its own name and
the name of its parent.
-/

namespace OS

structure DirectoryTree (root : Nat) (D : Nat → Prop) (e : Nat → Nat → Nat) : Prop where
  zero : ¬ D 0
  root_dir : D root
  root_dotDot : e root 1 = root
  root_proper : ∀ d k, 2 ≤ k → e d k ≠ root
  leaf : ∀ d k, ¬ D d → e d k = 0
  dot : ∀ d, D d → e d 0 = d
  dotDot : ∀ d, D d → d ≠ root → ∃ k, 2 ≤ k ∧ e (e d 1) k = d
  proper : ∀ d k d' k', 2 ≤ k → 2 ≤ k' → D (e d k) → e d' k' = e d k → d' = d ∧ k' = k

namespace DirectoryTree

variable {root : Nat} {D : Nat → Prop} {e : Nat → Nat → Nat} {dir j x : Nat}

theorem congr {D' : Nat → Prop} {e' : Nat → Nat → Nat} (h : DirectoryTree root D e) (hD : ∀ d, D' d ↔ D d)
    (he : ∀ d k, e' d k = e d k)
    : DirectoryTree root D' e' := by
  have heqD : D' = D := funext fun d => propext (hD d)
  have heqe : e' = e := funext fun d => funext fun k => he d k
  rw [heqD, heqe]
  exact h

theorem root_ne_zero (h : DirectoryTree root D e) : root ≠ 0 := by
  intro hroot
  apply h.zero
  rw [← hroot]
  exact h.root_dir

theorem ne_zero (h : DirectoryTree root D e) (hdir : D dir) : dir ≠ 0 := by
  intro hzero
  subst hzero
  exact h.zero hdir

theorem isDir_of_ne_zero (h : DirectoryTree root D e) {k : Nat} (hne : e dir k ≠ 0) : D dir := by
  apply Classical.byContradiction
  intro hdir
  exact hne (h.leaf dir k hdir)

theorem isDir_dotDot (h : DirectoryTree root D e) (hdir : D dir) : D (e dir 1) := by
  by_cases hroot : dir = root
  . subst hroot
    rw [h.root_dotDot]
    exact hdir
  . have ⟨k, _, hk⟩ := h.dotDot dir hdir hroot
    apply h.isDir_of_ne_zero (k := k)
    rw [hk]
    exact h.ne_zero hdir

theorem two_le_of_not_isDir (h : DirectoryTree root D e) (hdir : D dir) (hnot : ¬ D (e dir j)) : 2 ≤ j := by
  match j with
  | 0 =>
    rw [h.dot dir hdir] at hnot
    exact absurd hdir hnot
  | 1 => exact absurd (h.isDir_dotDot hdir) hnot
  | j + 2 => omega

def setEntry (e : Nat → Nat → Nat) (dir j x : Nat) : Nat → Nat → Nat :=
  fun d k => if d = dir ∧ k = j then x else e d k

theorem setEntry_of_lt (e : Nat → Nat → Nat) (dir x d : Nat) {j k : Nat} (hj : 2 ≤ j) (hk : k < 2)
    : setEntry e dir j x d k = e d k := by
  apply if_neg
  omega

theorem setFile (h : DirectoryTree root D e) (hdir : D dir) (hold : ¬ D (e dir j)) (hnew : ¬ D x)
    : DirectoryTree root D (setEntry e dir j x) := by
  have hj := h.two_le_of_not_isDir hdir hold
  -- An entry that names a directory is another one, before and after.
  have hother : ∀ d k, D (setEntry e dir j x d k) → setEntry e dir j x d k = e d k := by
    intro d k hd
    unfold setEntry at hd ⊢
    split at hd
    . exact absurd hd hnew
    . next hne => rw [if_neg hne]
  have hkept : ∀ d k, D (e d k) → setEntry e dir j x d k = e d k := by
    intro d k hd
    apply if_neg
    rintro ⟨rfl, rfl⟩
    exact hold hd
  constructor
  case zero => exact h.zero
  case root_dir => exact h.root_dir
  case root_dotDot =>
    rw [setEntry_of_lt e dir x root hj (by omega)]
    exact h.root_dotDot
  case root_proper =>
    intro d k hk heq
    have hd : D (setEntry e dir j x d k) := heq ▸ h.root_dir
    apply h.root_proper d k hk
    rw [← hother d k hd]
    exact heq
  case leaf =>
    intro d k hd
    have hne : ¬ (d = dir ∧ k = j) := by
      rintro ⟨rfl, _⟩
      exact hd hdir
    unfold setEntry
    rw [if_neg hne]
    exact h.leaf d k hd
  case dot =>
    intro d hd
    rw [setEntry_of_lt e dir x d hj (by omega)]
    exact h.dot d hd
  case dotDot =>
    intro d hd hroot
    have ⟨k, hk, heq⟩ := h.dotDot d hd hroot
    rw [setEntry_of_lt e dir x d hj (by omega)]
    refine ⟨k, hk, ?_⟩
    rw [hkept _ _ (heq.symm ▸ hd)]
    exact heq
  case proper =>
    intro d k d' k' hk hk' hd heq
    have hd' : D (setEntry e dir j x d' k') := heq.symm ▸ hd
    have hsame := hother d k hd
    rw [hsame] at hd heq
    rw [hother d' k' hd'] at heq
    exact h.proper d k d' k' hk hk' hd heq

def addDirectory (e : Nat → Nat → Nat) (dir j x : Nat) : Nat → Nat → Nat :=
  fun d k => if d = x then [x, dir].getD k 0 else setEntry e dir j x d k

theorem mkdir (h : DirectoryTree root D e) (hdir : D dir) (hold : ¬ D (e dir j)) (hx : ¬ D x) (hzero : x ≠ 0)
    (hfree : ∀ d k, e d k ≠ x)
    : DirectoryTree root (fun d => d = x ∨ D d) (addDirectory e dir j x) := by
  have hj := h.two_le_of_not_isDir hdir hold
  have hne : ∀ {d}, D d → d ≠ x := by
    rintro d hd rfl
    exact hx hd
  have hold' : ∀ {d} k, d ≠ x → k < 2 → addDirectory e dir j x d k = e d k := by
    intro d k hd hk
    unfold addDirectory
    rw [if_neg hd]
    exact setEntry_of_lt e dir x d hj hk
  -- Behind the first two entries only the one of the new directory is new.
  have hlate : ∀ d k, 2 ≤ k → addDirectory e dir j x d k = if d = dir ∧ k = j then x else if d = x then 0 else e d k := by
    intro d k hk
    unfold addDirectory setEntry
    by_cases hd : d = x
    . subst hd
      rw [if_pos rfl, if_pos rfl, if_neg]
      . match k with
        | k + 2 => rfl
      . rintro ⟨rfl, _⟩
        exact hx hdir
    . rw [if_neg hd, if_neg hd]
  constructor
  case zero =>
    rintro (heq | hd)
    . exact hzero heq.symm
    . exact h.zero hd
  case root_dir => exact .inr h.root_dir
  case root_dotDot =>
    rw [hold' 1 (hne h.root_dir) (by omega)]
    exact h.root_dotDot
  case root_proper =>
    intro d k hk
    rw [hlate d k hk]
    split
    . exact (hne h.root_dir).symm
    . split
      . exact h.root_ne_zero.symm
      . exact h.root_proper d k hk
  case leaf =>
    intro d k hd
    have hdx : d ≠ x := fun heq => hd (.inl heq)
    have hdD : ¬ D d := fun hD => hd (.inr hD)
    unfold addDirectory setEntry
    rw [if_neg hdx, if_neg]
    . exact h.leaf d k hdD
    . rintro ⟨rfl, _⟩
      exact hdD hdir
  case dot =>
    rintro d (rfl | hd)
    . unfold addDirectory
      rw [if_pos rfl]
      rfl
    . rw [hold' 0 (hne hd) (by omega)]
      exact h.dot d hd
  case dotDot =>
    rintro d (rfl | hd) hroot
    . have hparent : addDirectory e dir j d d 1 = dir := by
        unfold addDirectory
        rw [if_pos rfl]
        rfl
      rw [hparent]
      refine ⟨j, hj, ?_⟩
      rw [hlate dir j hj, if_pos ⟨rfl, rfl⟩]
    . rw [hold' 1 (hne hd) (by omega)]
      have ⟨k, hk, heq⟩ := h.dotDot d hd hroot
      refine ⟨k, hk, ?_⟩
      rw [hlate _ k hk, if_neg, if_neg]
      . exact heq
      . exact hne (h.isDir_dotDot hd)
      . rintro ⟨hp, rfl⟩
        rw [hp] at heq
        rw [heq] at hold
        exact hold hd
  case proper =>
    have hnew : ∀ d k, 2 ≤ k → addDirectory e dir j x d k = x → d = dir ∧ k = j := by
      intro d k hk heq
      rw [hlate d k hk] at heq
      split at heq
      . assumption
      . split at heq
        . exact absurd heq.symm hzero
        . exact absurd heq (hfree d k)
    have hsame : ∀ d k, 2 ≤ k → D (addDirectory e dir j x d k) → addDirectory e dir j x d k = e d k := by
      intro d k hk hd
      rw [hlate d k hk] at hd ⊢
      split at hd
      . exact absurd hd hx
      . next hne' =>
        rw [if_neg hne']
        split at hd
        . exact absurd hd h.zero
        . next hdx => rw [if_neg hdx]
    rintro d k d' k' hk hk' (hd | hd) heq
    . have ⟨hdir₁, hj₁⟩ := hnew d k hk hd
      rw [hdir₁, hj₁]
      apply hnew d' k' hk'
      rw [heq, hd]
    . have hd' : D (addDirectory e dir j x d' k') := heq.symm ▸ hd
      have heq₁ := hsame d k hk hd
      rw [heq₁] at hd heq
      rw [hsame d' k' hk' hd'] at heq
      exact h.proper d k d' k' hk hk' hd heq

section Rmdir

variable {k : Nat}

theorem proper_of_empty (h : DirectoryTree root D e) (hk : e dir k = x) (hx : D x) (hne : x ≠ dir)
    (hempty : ∀ i, 2 ≤ i → e x i = 0)
    : 2 ≤ k := by
  have hdir : D dir := by
    apply h.isDir_of_ne_zero (k := k)
    rw [hk]
    exact h.ne_zero hx
  match k with
  | 0 =>
    rw [h.dot dir hdir] at hk
    exact absurd hk.symm hne
  | 1 =>
    by_cases hroot : dir = root
    . subst hroot
      rw [h.root_dotDot] at hk
      exact absurd hk.symm hne
    . have ⟨i, hi, heq⟩ := h.dotDot dir hdir hroot
      rw [hk, hempty i hi] at heq
      exact absurd heq.symm (h.ne_zero hdir)
  | k + 2 => omega

theorem dotDot_of_proper (h : DirectoryTree root D e) (hk : e dir k = x) (hx : D x) (hproper : 2 ≤ k) : e x 1 = dir := by
  subst hk
  have ⟨i, hi, heq⟩ := h.dotDot (e dir k) hx (h.root_proper dir k hproper)
  exact (h.proper dir k _ i hproper hi hx heq).left

theorem eq_of_names_empty (h : DirectoryTree root D e) (hk : e dir k = x) (hx : D x) (hproper : 2 ≤ k)
    (hempty : ∀ i, 2 ≤ i → e x i = 0) {d i : Nat} (hi : e d i = x)
    : d = x ∨ (d = dir ∧ i = k) := by
  have hxroot : x ≠ root := hk ▸ h.root_proper dir k hproper
  have hd : D d := by
    apply h.isDir_of_ne_zero (k := i)
    rw [hi]
    exact h.ne_zero hx
  match i with
  | 0 =>
    rw [h.dot d hd] at hi
    exact .inl hi
  | 1 =>
    by_cases hroot : d = root
    . subst hroot
      rw [h.root_dotDot] at hi
      exact absurd hi.symm hxroot
    . have ⟨i, hi', heq⟩ := h.dotDot d hd hroot
      rw [hi, hempty i hi'] at heq
      exact absurd heq.symm (h.ne_zero hd)
  | i + 2 =>
    subst hk
    exact .inr (h.proper dir k d (i + 2) hproper (by omega) hx hi)

def removeDirectory (e : Nat → Nat → Nat) (dir k x : Nat) : Nat → Nat → Nat :=
  fun d i => if d = x then 0 else setEntry e dir k 0 d i

theorem removeDirectory_ne (h : DirectoryTree root D e) (hk : e dir k = x) (hx : D x) (hproper : 2 ≤ k)
    (hempty : ∀ i, 2 ≤ i → e x i = 0) (d i : Nat)
    : removeDirectory e dir k x d i ≠ x := by
  intro heq
  unfold removeDirectory setEntry at heq
  split at heq
  . exact absurd heq.symm (h.ne_zero hx)
  . next hd =>
    split at heq
    . exact absurd heq.symm (h.ne_zero hx)
    . next hne =>
      obtain hd' | hpos := h.eq_of_names_empty hk hx hproper hempty heq
      . exact hd hd'
      . exact hne hpos

theorem rmdir (h : DirectoryTree root D e) (hk : e dir k = x) (hproper : 2 ≤ k)
    (hempty : ∀ i, 2 ≤ i → e x i = 0)
    : DirectoryTree root (fun d => D d ∧ d ≠ x) (removeDirectory e dir k x) := by
  have hxroot : x ≠ root := hk ▸ h.root_proper dir k hproper
  have hsmall : ∀ d i, removeDirectory e dir k x d i = 0 ∨ removeDirectory e dir k x d i = e d i := by
    intro d i
    unfold removeDirectory setEntry
    split
    . exact .inl rfl
    . split
      . exact .inl rfl
      . exact .inr rfl
  have hearly : ∀ {d} i, d ≠ x → i < 2 → removeDirectory e dir k x d i = e d i := by
    intro d i hd hi
    unfold removeDirectory
    rw [if_neg hd]
    exact setEntry_of_lt e dir 0 d hproper hi
  constructor
  case zero =>
    rintro ⟨hd, _⟩
    exact h.zero hd
  case root_dir => exact ⟨h.root_dir, hxroot.symm⟩
  case root_dotDot =>
    rw [hearly 1 hxroot.symm (by omega)]
    exact h.root_dotDot
  case root_proper =>
    intro d i hi
    obtain heq | heq := hsmall d i
    . rw [heq]
      exact h.root_ne_zero.symm
    . rw [heq]
      exact h.root_proper d i hi
  case leaf =>
    intro d i hd
    by_cases hdx : d = x
    . unfold removeDirectory
      rw [if_pos hdx]
    . obtain heq | heq := hsmall d i
      . exact heq
      . rw [heq]
        apply h.leaf
        intro hD
        exact hd ⟨hD, hdx⟩
  case dot =>
    rintro d ⟨hd, hdx⟩
    rw [hearly 0 hdx (by omega)]
    exact h.dot d hd
  case dotDot =>
    rintro d ⟨hd, hdx⟩ hroot
    rw [hearly 1 hdx (by omega)]
    have ⟨i, hi, heq⟩ := h.dotDot d hd hroot
    refine ⟨i, hi, ?_⟩
    unfold removeDirectory setEntry
    rw [if_neg, if_neg]
    . exact heq
    . rintro ⟨hp, rfl⟩
      rw [hp, hk] at heq
      exact hdx heq.symm
    . intro hp
      rw [hp, hempty i hi] at heq
      exact absurd heq.symm (h.ne_zero hd)
  case proper =>
    rintro d i d' i' hi hi' ⟨hd, _⟩ heq
    obtain hzero | hsame := hsmall d i
    . rw [hzero] at hd
      exact absurd hd h.zero
    . rw [hsame] at hd heq
      obtain hzero' | hsame' := hsmall d' i'
      . rw [hzero'] at heq
        exact absurd heq.symm (h.ne_zero hd)
      . rw [hsame'] at heq
        exact h.proper d i d' i' hi hi' hd heq

end Rmdir
end DirectoryTree
end OS
