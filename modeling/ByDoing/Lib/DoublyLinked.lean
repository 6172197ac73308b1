import Mathlib.Data.List.Nodup
import Mathlib.Logic.Function.Basic

namespace DoublyLinked

universe u

variable {α : Type u}

def Mutual (next prev : α → Option α) : Prop :=
  ∀ b c, next b = some c ↔ prev c = some b

-- The other elements are linked to each other, and none of them to `x`.
structure Detached (x : α) (next prev : α → Option α) : Prop where
  links : ∀ b c, b ≠ x → c ≠ x → (next b = some c ↔ prev c = some b)
  next_ne : ∀ b, b ≠ x → next b ≠ some x
  prev_ne : ∀ b, b ≠ x → prev b ≠ some x

-- A link of the element that `p` points to is set to `v`.
def set [DecidableEq α] (link : α → Option α) (p v : Option α) : α → Option α :=
  match p with
  | none => link
  | some b => Function.update link b v

@[simp]
theorem set_none [DecidableEq α] (link : α → Option α) (v : Option α) : set link none v = link :=
  rfl

@[simp]
theorem set_some [DecidableEq α] (link : α → Option α) (b : α) (v : Option α)
    : set link (some b) v = Function.update link b v :=
  rfl

theorem set_of_ne [DecidableEq α] {link : α → Option α} {p v : Option α} {b : α} (h : p ≠ some b)
    : set link p v b = link b := by
  cases p with
  | none => rfl
  | some c =>
    apply Function.update_of_ne
    rintro rfl
    exact h rfl

variable {next prev : α → Option α} {x y z : α}

-- The elements from `p` on.
def Trail (next : α → Option α) : Option α → List α → Prop
  | p, [] => p = none
  | p, a :: l => p = some a ∧ Trail next (next a) l

-- From an element over those of the list to `z`.
def Path (next : α → Option α) : α → List α → α → Prop
  | a, [], z => next a = some z
  | a, b :: l, z => next a = some b ∧ Path next b l z

def Circle (next : α → Option α) : List α → Prop
  | [] => False
  | a :: l => Path next a l a

section Walks

variable {p : Option α} {a b : α} {l l' : List α}

theorem Trail.next_mem (h : Trail next p l) (ha : a ∈ l) (hb : next a = some b) : b ∈ l := by
  induction l generalizing p with
  | nil => cases ha
  | cons c l ih =>
    obtain ⟨_, hrest⟩ := h
    rcases List.mem_cons.mp ha with rfl | ha
    . rw [hb] at hrest
      cases l with
      | nil => cases hrest
      | cons d l =>
        obtain ⟨hd, _⟩ := hrest
        obtain rfl := Option.some.inj hd
        exact List.mem_cons_of_mem _ List.mem_cons_self
    . exact List.mem_cons_of_mem c (ih hrest ha)

theorem Trail.head_mem (h : Trail next (some a) l) : a ∈ l := by
  cases l with
  | nil => cases h
  | cons b l =>
    obtain rfl := Option.some.inj h.left
    exact List.mem_cons_self

theorem Trail.forall {P : α → Prop} (h : Trail next p l) (hhead : ∀ a, p = some a → P a)
    (hnext : ∀ a b, P a → next a = some b → P b)
    : ∀ a ∈ l, P a := by
  induction l generalizing p with
  | nil => exact fun a ha => absurd ha List.not_mem_nil
  | cons c l ih =>
    obtain ⟨hp, hrest⟩ := h
    have hc := hhead c hp
    intro a ha
    rcases List.mem_cons.mp ha with rfl | ha
    . exact hc
    . exact ih hrest (fun b hb => hnext c b hc hb) a ha

theorem exists_trail {rank : α → Nat} (hrank : ∀ a b, next a = some b → rank b < rank a) (p : Option α)
    : ∃ l, Trail next p l ∧ l.Nodup := by
  have hfrom : ∀ k a, rank a < k → ∃ l, Trail next (some a) l ∧ l.Nodup ∧ ∀ b ∈ l, rank b ≤ rank a := by
    intro k
    induction k with
    | zero => exact fun a ha => absurd ha (Nat.not_lt_zero _)
    | succ k ih =>
      intro a ha
      cases hnext : next a with
      | none =>
        refine ⟨[a], ⟨rfl, hnext⟩, List.nodup_singleton a, ?_⟩
        intro b hb
        exact Nat.le_of_eq (congrArg rank (List.mem_singleton.mp hb))
      | some c =>
        have hlt := hrank a c hnext
        obtain ⟨l, htrail, hnodup, hle⟩ := ih c (by omega)
        refine ⟨a :: l, ⟨rfl, hnext ▸ htrail⟩, List.nodup_cons.mpr ⟨?_, hnodup⟩, ?_⟩
        . intro hmem
          have := hle a hmem
          omega
        . intro b hb
          rcases List.mem_cons.mp hb with rfl | hb
          . exact Nat.le_refl _
          . have := hle b hb
            omega
  cases p with
  | none => exact ⟨[], rfl, List.nodup_nil⟩
  | some a =>
    obtain ⟨l, htrail, hnodup, _⟩ := hfrom (rank a + 1) a (Nat.lt_succ_self _)
    exact ⟨l, htrail, hnodup⟩

theorem path_append : Path next a (l ++ b :: l') z ↔ Path next a l b ∧ Path next b l' z := by
  induction l generalizing a with
  | nil => rfl
  | cons c l ih =>
    rw [List.cons_append, Path, Path, ih, and_assoc]

theorem Circle.rotate (h : Circle next (l ++ a :: l')) : Circle next (a :: (l' ++ l)) := by
  cases l with
  | nil => rwa [List.append_nil]
  | cons b l =>
    rw [List.cons_append] at h
    have hpath := path_append.mp h
    exact path_append.mpr ⟨hpath.right, hpath.left⟩

theorem Path.congr (h : Path next a l z) (heq : ∀ b ∈ a :: l, prev b = next b) : Path prev a l z := by
  induction l generalizing a with
  | nil => exact (heq a List.mem_cons_self).trans h
  | cons c l ih =>
    obtain ⟨hc, hrest⟩ := h
    refine ⟨(heq a List.mem_cons_self).trans hc, ih hrest ?_⟩
    intro b hb
    exact heq b (List.mem_cons_of_mem a hb)

theorem Path.exists_last (h : Path next a l z) : ∃ b ∈ a :: l, next b = some z := by
  induction l generalizing a with
  | nil => exact ⟨a, List.mem_cons_self, h⟩
  | cons c l ih =>
    obtain ⟨b, hb, hlast⟩ := ih h.right
    exact ⟨b, List.mem_cons_of_mem a hb, hlast⟩

end Walks

variable [DecidableEq α]

theorem set_self : set prev (next x) (prev x) x = prev x := by
  cases hnext : next x with
  | none => rfl
  | some y =>
    by_cases hy : x = y
    . subst hy
      exact Function.update_self _ _ _
    . exact Function.update_of_ne hy _ _

theorem detached_unlink (h : Mutual next prev)
    : Detached x (set next (prev x) (next x)) (set prev (next x) (prev x)) := by
  constructor
  . intro b c hb hc
    by_cases hbx : prev x = some b
    . by_cases hcx : next x = some c
      . rw [hbx, hcx, set_some, set_some, Function.update_self, Function.update_self]
        simp
      . rw [hbx, set_some, Function.update_self, set_of_ne hcx]
        constructor
        . intro heq
          exact absurd heq hcx
        . intro heq
          have hnext := (h b x).mpr hbx
          rw [(h b c).mpr heq] at hnext
          exact absurd (Option.some.inj hnext) hc
    . rw [set_of_ne hbx]
      by_cases hcx : next x = some c
      . rw [hcx, set_some, Function.update_self]
        constructor
        . intro heq
          have hprev := (h x c).mp hcx
          rw [(h b c).mp heq] at hprev
          exact absurd (Option.some.inj hprev) hb
        . intro heq
          exact absurd heq hbx
      . rw [set_of_ne hcx]
        exact h b c
  . intro b hb heq
    by_cases hbx : prev x = some b
    . rw [hbx, set_some, Function.update_self] at heq
      have hprev := (h x x).mp heq
      rw [hbx] at hprev
      exact hb (Option.some.inj hprev)
    . rw [set_of_ne hbx] at heq
      exact hbx ((h b x).mp heq)
  . intro b hb heq
    by_cases hbx : next x = some b
    . rw [hbx, set_some, Function.update_self] at heq
      have hnext := (h x x).mpr heq
      rw [hbx] at hnext
      exact hb (Option.some.inj hnext)
    . rw [set_of_ne hbx] at heq
      exact hbx ((h x b).mpr heq)

theorem Detached.alone (h : Detached x next prev)
    : Mutual (Function.update next x none) (Function.update prev x none) := by
  intro b c
  by_cases hb : b = x
  . subst hb
    rw [Function.update_self]
    by_cases hc : c = b
    . rw [hc, Function.update_self]
    . rw [Function.update_of_ne hc]
      exact ⟨nofun, fun heq => absurd heq (h.prev_ne c hc)⟩
  . rw [Function.update_of_ne hb]
    by_cases hc : c = x
    . subst hc
      rw [Function.update_self]
      exact ⟨fun heq => absurd heq (h.next_ne b hb), nofun⟩
    . rw [Function.update_of_ne hc]
      exact h.links b c hb hc

theorem Detached.push (h : Detached x next prev) {head : Option α}
    (hhead : ∀ y, head = some y → y ≠ x ∧ prev y = none)
    : Mutual (Function.update next x head) (set (Function.update prev x none) head (some x)) := by
  cases head with
  | none => exact h.alone
  | some y =>
    obtain ⟨hy, hfirst⟩ := hhead y rfl
    rw [set_some]
    intro b c
    by_cases hc : c = y
    . subst hc
      rw [Function.update_self]
      by_cases hb : b = x
      . rw [hb, Function.update_self]
        exact ⟨fun _ => rfl, fun _ => rfl⟩
      . rw [Function.update_of_ne hb, h.links b c hb hy, hfirst]
        exact ⟨nofun, fun heq => absurd (Option.some.inj heq).symm hb⟩
    . rw [Function.update_of_ne hc]
      by_cases hb : b = x
      . subst hb
        rw [Function.update_self]
        refine ⟨fun heq => absurd (Option.some.inj heq).symm hc, fun heq => ?_⟩
        by_cases hcx : c = b
        . rw [hcx, Function.update_self] at heq
          cases heq
        . rw [Function.update_of_ne hcx] at heq
          exact absurd heq (h.prev_ne c hcx)
      . rw [Function.update_of_ne hb]
        by_cases hcx : c = x
        . subst hcx
          rw [Function.update_self]
          exact ⟨fun heq => absurd heq (h.next_ne b hb), nofun⟩
        . rw [Function.update_of_ne hcx]
          exact h.links b c hb hcx

theorem Detached.insert (h : Detached x next prev) (hy : y ≠ x) (hz : z ≠ x) (hnext : next y = some z)
    : Mutual (Function.update (Function.update next x (some z)) y (some x))
        (Function.update (Function.update prev x (some y)) z (some x)) := by
  have hprev := (h.links y z hy hz).mp hnext
  intro b c
  by_cases hb : b = y
  . subst hb
    rw [Function.update_self]
    by_cases hc : c = z
    . subst hc
      rw [Function.update_self]
      exact ⟨fun heq => absurd (Option.some.inj heq).symm hz, fun heq => absurd (Option.some.inj heq).symm hy⟩
    . rw [Function.update_of_ne hc]
      by_cases hcx : c = x
      . rw [hcx, Function.update_self]
        exact ⟨fun _ => rfl, fun _ => rfl⟩
      . rw [Function.update_of_ne hcx, ← h.links b c hy hcx, hnext]
        exact ⟨fun heq => absurd (Option.some.inj heq).symm hcx, fun heq => absurd (Option.some.inj heq).symm hc⟩
  . rw [Function.update_of_ne hb]
    by_cases hc : c = z
    . subst hc
      rw [Function.update_self]
      by_cases hbx : b = x
      . rw [hbx, Function.update_self]
        exact ⟨fun _ => rfl, fun _ => rfl⟩
      . rw [Function.update_of_ne hbx, h.links b c hbx hz, hprev]
        exact ⟨fun heq => absurd (Option.some.inj heq).symm hb, fun heq => absurd (Option.some.inj heq).symm hbx⟩
    . rw [Function.update_of_ne hc]
      by_cases hbx : b = x
      . subst hbx
        rw [Function.update_self]
        refine ⟨fun heq => absurd (Option.some.inj heq).symm hc, fun heq => ?_⟩
        by_cases hcx : c = b
        . rw [hcx, Function.update_self] at heq
          exact absurd (Option.some.inj heq).symm hb
        . rw [Function.update_of_ne hcx] at heq
          exact absurd heq (h.prev_ne c hcx)
      . rw [Function.update_of_ne hbx]
        by_cases hcx : c = x
        . subst hcx
          rw [Function.update_self]
          exact ⟨fun heq => absurd heq (h.next_ne b hbx), fun heq => absurd (Option.some.inj heq).symm hb⟩
        . rw [Function.update_of_ne hcx]
          exact h.links b c hbx hcx

theorem Detached.loop (h : Detached x next prev)
    : Mutual (Function.update next x (some x)) (Function.update prev x (some x)) := by
  intro b c
  by_cases hb : b = x
  . subst hb
    rw [Function.update_self]
    by_cases hc : c = b
    . rw [hc, Function.update_self]
    . rw [Function.update_of_ne hc]
      exact ⟨fun heq => absurd (Option.some.inj heq).symm hc, fun heq => absurd heq (h.prev_ne c hc)⟩
  . rw [Function.update_of_ne hb]
    by_cases hc : c = x
    . subst hc
      rw [Function.update_self]
      exact ⟨fun heq => absurd heq (h.next_ne b hb), fun heq => absurd (Option.some.inj heq).symm hb⟩
    . rw [Function.update_of_ne hc]
      exact h.links b c hb hc

theorem Path.update {a b w : α} {l : List α} (h : Path next a l z) (hnodup : (a :: l).Nodup) (hz : z ∉ l)
    (hb : b ∈ a :: l) (hlast : next b = some z)
    : Path (Function.update next b (some w)) a l w := by
  induction l generalizing a with
  | nil =>
    obtain rfl := List.mem_singleton.mp hb
    exact Function.update_self _ _ _
  | cons c l ih =>
    obtain ⟨hc, hrest⟩ := h
    obtain ⟨hnot, hnodup⟩ := List.nodup_cons.mp hnodup
    have hne : b ≠ a := by
      rintro rfl
      rw [hlast] at hc
      obtain rfl := Option.some.inj hc
      exact hz List.mem_cons_self
    have hmem : b ∈ c :: l := (List.mem_cons.mp hb).resolve_left hne
    refine ⟨?_, ih hrest hnodup (fun hmem => hz (List.mem_cons_of_mem c hmem)) hmem⟩
    rw [Function.update_of_ne (Ne.symm hne)]
    exact hc

theorem Circle.unlink {l : List α} (h : Circle next (x :: y :: l)) (hnodup : (x :: y :: l).Nodup)
    (hmutual : Mutual next prev)
    : Circle (set next (prev x) (next x)) (y :: l) := by
  obtain ⟨hy, hrest⟩ := h
  obtain ⟨hnot, hnodup⟩ := List.nodup_cons.mp hnodup
  obtain ⟨b, hb, hlast⟩ := hrest.exists_last
  rw [(hmutual b x).mp hlast, set_some, hy]
  exact hrest.update hnodup (fun hmem => hnot (List.mem_cons_of_mem y hmem)) hb hlast

theorem Circle.link {l : List α} (h : Circle next (z :: l)) (hnodup : (z :: l).Nodup) (hx : x ∉ z :: l) (hy : y ∈ z :: l)
    (hlast : next y = some z)
    : Circle (Function.update (Function.update next x (some z)) y (some x)) (z :: (l ++ [x])) := by
  have hne : y ≠ x := by
    rintro rfl
    exact hx hy
  have hother : Path (Function.update next x (some z)) z l z := by
    apply Path.congr h
    intro b hb
    apply Function.update_of_ne
    rintro rfl
    exact hx hb
  apply path_append.mpr
  constructor
  . apply hother.update hnodup (List.nodup_cons.mp hnodup).left hy
    rw [Function.update_of_ne hne]
    exact hlast
  . unfold Path
    rw [Function.update_of_ne (Ne.symm hne), Function.update_self]

end DoublyLinked
