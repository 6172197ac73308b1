import Mathlib.Init

namespace Blit

universe u

variable {α : Type u}

-- The `n` elements from `a` on are replaced.
def blit (m : Nat → α) (a n : Nat) (f : Nat → α) : Nat → α :=
  fun x => if a ≤ x ∧ x < a + n then f (x - a) else m x

def window (m : Nat → α) (a : Nat) : Nat → α :=
  fun i => m (a + i)

def Holds (m : Nat → α) (a n : Nat) (f : Nat → α) : Prop :=
  ∀ i < n, m (a + i) = f i

-- Nothing but the `n` elements from `a` on has changed.
def Frame (m m' : Nat → α) (a n : Nat) : Prop :=
  ∀ x, x < a ∨ a + n ≤ x → m' x = m x

variable {m m' m'' : Nat → α} {f g : Nat → α} {a b n k : Nat}

theorem blit_inside (m : Nat → α) (f : Nat → α) (a : Nat) {i n : Nat} (h : i < n) : blit m a n f (a + i) = f i := by
  unfold blit
  rw [if_pos (by omega), Nat.add_sub_cancel_left]

theorem holds_blit : Holds (blit m a n f) a n f :=
  fun _ hi => blit_inside m f a hi

theorem frame_blit : Frame m (blit m a n f) a n := by
  intro x hx
  unfold blit
  rw [if_neg (by omega)]

theorem Frame.refl : Frame m m a n :=
  fun _ _ => rfl

theorem Frame.trans (h : Frame m m' a n) (h' : Frame m' m'' a n) : Frame m m'' a n :=
  fun x hx => (h' x hx).trans (h x hx)

theorem Frame.within (h : Frame m m' a n) (hstart : b ≤ a) (hend : a + n ≤ b + k) : Frame m m' b k :=
  fun x hx => h x (by omega)

theorem Holds.frame (h : Holds m b k g) (hframe : Frame m m' a n) (hapart : b + k ≤ a ∨ a + n ≤ b)
    : Holds m' b k g := by
  intro i hi
  rw [hframe (b + i) (by omega)]
  exact h i hi

theorem Holds.append (h : Holds m a n f) (h' : Holds m (a + n) k fun i => f (n + i)) : Holds m a (n + k) f := by
  intro i hi
  by_cases hlt : i < n
  . exact h i hlt
  . have hrest : m (a + n + (i - n)) = f (n + (i - n)) := h' (i - n) (by omega)
    rwa [show a + n + (i - n) = a + i by omega, show n + (i - n) = i by omega] at hrest

theorem Holds.congr (h : Holds m a n f) (heq : ∀ i < n, f i = g i) : Holds m a n g :=
  fun i hi => (h i hi).trans (heq i hi)

-- One element of `w` bytes, then the next one.
def repMovs (w : Nat) : Nat → (Nat → α) → Nat → Nat → Nat → α
  | 0, m, _, _ => m
  | n + 1, m, src, dst => repMovs w n (blit m dst w (window m src)) (src + w) (dst + w)

theorem repMovs_eq_blit (w n : Nat) {src dst : Nat} (h : dst + w * n ≤ src ∨ src + w * n ≤ dst)
    : repMovs w n m src dst = blit m dst (w * n) (window m src) := by
  induction n generalizing m src dst with
  | zero =>
    funext x
    rw [repMovs, blit, if_neg (by omega)]
  | succ n ih =>
    rw [Nat.mul_succ] at h ⊢
    rw [repMovs, ih (by omega)]
    funext x
    by_cases hrest : dst + w ≤ x ∧ x < dst + w + w * n
    . have hsource : blit m dst w (window m src) (src + w + (x - (dst + w))) = m (src + w + (x - (dst + w))) :=
        frame_blit _ (by omega)
      unfold blit at hsource ⊢
      rw [if_pos hrest, if_pos (by omega), window, hsource, window]
      congr 1
      omega
    . unfold blit
      rw [if_neg hrest]
      by_cases hfirst : dst ≤ x ∧ x < dst + w
      . rw [if_pos hfirst, if_pos (by omega)]
      . rw [if_neg hfirst, if_neg (by omega)]

end Blit
