import Mathlib.Data.List.Nodup

namespace Lives

universe u v

variable {ι : Type u} {α : Type v}

def Holds (table : ι → Option α) (a : α) : Prop :=
  ∃ i, table i = some a

structure Change (table table' : ι → Option α) : Prop where
  kept : ∀ i a, table' i = some a → table i = some a ∨ ¬Holds table a
  slot_inj : ∀ i j a, table' i = some a → table' j = some a → ¬Holds table a → i = j
  one : ∀ a b, Holds table' a → Holds table' b → ¬Holds table a → ¬Holds table b → a = b

theorem Change.same (table : ι → Option α) : Change table table := by
  constructor
  . intro i a hi
    exact .inl hi
  . intro i j a hi _ hnew
    exact absurd ⟨i, hi⟩ hnew
  . intro a b ha _ hnew
    exact absurd ha hnew

theorem Change.enter [DecidableEq ι] {table : ι → Option α} {i : ι} {a : α} (hnew : ¬Holds table a)
    : Change table (Function.update table i (some a)) := by
  have hcases : ∀ j b, Function.update table i (some a) j = some b → j = i ∧ b = a ∨ table j = some b := by
    intro j b hj
    by_cases hji : j = i
    . subst hji
      rw [Function.update_self, Option.some.injEq] at hj
      exact .inl ⟨rfl, hj.symm⟩
    . rw [Function.update_of_ne hji] at hj
      exact .inr hj
  constructor
  . intro j b hj
    rcases hcases j b hj with ⟨_, rfl⟩ | hold
    . exact .inr hnew
    . exact .inl hold
  . intro j k b hj hk hb
    rcases hcases j b hj with ⟨rfl, _⟩ | hold
    . rcases hcases k b hk with ⟨rfl, _⟩ | hold
      . rfl
      . exact absurd ⟨k, hold⟩ hb
    . exact absurd ⟨j, hold⟩ hb
  . intro b c ⟨j, hj⟩ ⟨k, hk⟩ hb hc
    rcases hcases j b hj with ⟨_, rfl⟩ | hold
    . rcases hcases k c hk with ⟨_, rfl⟩ | hold
      . rfl
      . exact absurd ⟨k, hold⟩ hc
    . exact absurd ⟨j, hold⟩ hb

theorem Change.leave [DecidableEq ι] (table : ι → Option α) (i : ι) : Change table (Function.update table i none) := by
  have hold : ∀ j b, Function.update table i none j = some b → table j = some b := by
    intro j b hj
    by_cases hji : j = i
    . subst hji
      simp at hj
    . rw [Function.update_of_ne hji] at hj
      exact hj
  constructor
  . intro j b hj
    exact .inl (hold j b hj)
  . intro j k b hj _ hb
    exact absurd ⟨j, hold j b hj⟩ hb
  . intro b c ⟨j, hj⟩ _ hb
    exact absurd ⟨j, hold j b hj⟩ hb

variable [DecidableEq α]

def holds (slots : List ι) (table : ι → Option α) (a : α) : Bool :=
  slots.any fun i => table i == some a

def lost (slots : List ι) (table table' : ι → Option α) : List α :=
  slots.filterMap fun i => if table' i = table i then none else table i

structure Record (α : Type v) where
  life : α → Nat
  clock : Nat
  released : List Nat

namespace Record

def init : Record α :=
  { life := fun _ => 0, clock := 1, released := [] }

def next (slots : List ι) (r : Record α) (table table' : ι → Option α) : Record α :=
  {
    life := fun a => if holds slots table' a && !holds slots table a then r.clock else r.life a
    clock := r.clock + 1
    released := r.released ++ (lost slots table table').map r.life
  }

structure Sound (r : Record α) (table : ι → Option α) : Prop where
  slot_inj : ∀ i j a, table i = some a → table j = some a → i = j
  life_inj : ∀ a b, Holds table a → Holds table b → r.life a = r.life b → a = b
  life_lt : ∀ a, Holds table a → r.life a < r.clock
  released_lt : ∀ n ∈ r.released, n < r.clock
  unreleased : ∀ a, Holds table a → r.life a ∉ r.released
  released_nodup : r.released.Nodup

end Record

variable {slots : List ι} {table table' : ι → Option α} {r : Record α}

theorem holds_iff (hslots : ∀ i, i ∈ slots) {a : α} : holds slots table a = true ↔ Holds table a := by
  simp [holds, Holds, hslots]

theorem mem_lost {a : α} (h : a ∈ lost slots table table')
    : ∃ i, table i = some a ∧ table' i ≠ some a := by
  obtain ⟨i, _, hi⟩ := List.mem_filterMap.mp h
  split at hi
  . simp at hi
  . next hne => exact ⟨i, hi, fun heq => hne (heq.trans hi.symm)⟩

theorem lost_of_ne (hslots : ∀ i, i ∈ slots) {i : ι} {a : α} (hi : table i = some a) (hne : table' i ≠ some a)
    : a ∈ lost slots table table' := by
  refine List.mem_filterMap.mpr ⟨i, hslots i, ?_⟩
  rw [if_neg, hi]
  rw [hi]
  exact hne

theorem lost_nodup (hnodup : slots.Nodup) (hinj : ∀ i j a, table i = some a → table j = some a → i = j)
    : (lost slots table table').Nodup := by
  apply hnodup.filterMap
  intro i j a hi hj
  rw [Option.mem_def] at hi hj
  split at hi
  . simp at hi
  . split at hj
    . simp at hj
    . exact hinj i j a hi hj

theorem life_next_of_holds (hslots : ∀ i, i ∈ slots) {a : α} (h : Holds table a)
    : (r.next slots table table').life a = r.life a := by
  dsimp only [Record.next]
  rw [(holds_iff hslots).mpr h]
  simp

theorem life_next_of_new (hslots : ∀ i, i ∈ slots) {a : α} (h : Holds table' a) (hnew : ¬Holds table a)
    : (r.next slots table table').life a = r.clock := by
  dsimp only [Record.next]
  rw [(holds_iff hslots).mpr h, Bool.eq_false_iff.mpr (fun hold => hnew ((holds_iff hslots).mp hold))]
  simp

theorem released_next_iff (hslots : ∀ i, i ∈ slots) {n : Nat}
    : n ∈ (r.next slots table table').released ↔
        n ∈ r.released ∨ ∃ i a, table i = some a ∧ table' i ≠ some a ∧ r.life a = n := by
  dsimp only [Record.next]
  rw [List.mem_append, List.mem_map]
  constructor
  . intro h
    rcases h with h | ⟨a, ha, hlife⟩
    . exact .inl h
    . obtain ⟨i, hi, hne⟩ := mem_lost ha
      exact .inr ⟨i, a, hi, hne, hlife⟩
  . intro h
    rcases h with h | ⟨i, a, hi, hne, hlife⟩
    . exact .inl h
    . exact .inr ⟨a, lost_of_ne hslots hi hne, hlife⟩

namespace Record

theorem Sound.next (hslots : ∀ i, i ∈ slots) (hnodup : slots.Nodup) (h : r.Sound table)
    (hchange : Change table table')
    : (r.next slots table table').Sound table' := by
  have hold : ∀ i a, table' i = some a → Holds table a → table i = some a := by
    intro i a hi ha
    exact (hchange.kept i a hi).resolve_right (not_not_intro ha)
  constructor
  . intro i j a hi hj
    by_cases ha : Holds table a
    . exact h.slot_inj i j a (hold i a hi ha) (hold j a hj ha)
    . exact hchange.slot_inj i j a hi hj ha
  . intro a b ha hb heq
    by_cases hta : Holds table a <;> by_cases htb : Holds table b
    . rw [life_next_of_holds hslots hta, life_next_of_holds hslots htb] at heq
      exact h.life_inj a b hta htb heq
    . rw [life_next_of_holds hslots hta, life_next_of_new hslots hb htb] at heq
      exact absurd heq (Nat.ne_of_lt (h.life_lt a hta))
    . rw [life_next_of_new hslots ha hta, life_next_of_holds hslots htb] at heq
      exact absurd heq.symm (Nat.ne_of_lt (h.life_lt b htb))
    . exact hchange.one a b ha hb hta htb
  . intro a ha
    by_cases hta : Holds table a
    . rw [life_next_of_holds hslots hta]
      exact Nat.lt_succ_of_lt (h.life_lt a hta)
    . rw [life_next_of_new hslots ha hta]
      exact Nat.lt_succ_self _
  . intro n hn
    rcases (released_next_iff hslots).mp hn with hn | ⟨i, a, hi, _, rfl⟩
    . exact Nat.lt_succ_of_lt (h.released_lt n hn)
    . exact Nat.lt_succ_of_lt (h.life_lt a ⟨i, hi⟩)
  . intro a ha hn
    by_cases hta : Holds table a
    . rw [life_next_of_holds hslots hta] at hn
      rcases (released_next_iff hslots).mp hn with hn | ⟨i, b, hi, hne, heq⟩
      . exact h.unreleased a hta hn
      . -- The life of `a` could only end in the slot where `a` is.
        obtain ⟨j, hj⟩ := ha
        have hba : b = a := h.life_inj b a ⟨i, hi⟩ hta heq
        subst hba
        have hij : i = j := h.slot_inj i j b hi (hold j b hj hta)
        subst hij
        exact hne hj
    . rw [life_next_of_new hslots ha hta] at hn
      rcases (released_next_iff hslots).mp hn with hn | ⟨i, b, hi, _, heq⟩
      . exact absurd (h.released_lt _ hn) (Nat.lt_irrefl _)
      . exact absurd heq (Nat.ne_of_lt (h.life_lt b ⟨i, hi⟩))
  . rw [show (r.next slots table table').released
      = r.released ++ (lost slots table table').map r.life from rfl, List.nodup_append]
    refine ⟨h.released_nodup, ?_, ?_⟩
    . apply List.Nodup.map_on
      . intro a ha b hb heq
        obtain ⟨i, hi, _⟩ := mem_lost ha
        obtain ⟨j, hj, _⟩ := mem_lost hb
        exact h.life_inj a b ⟨i, hi⟩ ⟨j, hj⟩ heq
      . exact lost_nodup hnodup h.slot_inj
    . intro n hn m hm heq
      obtain ⟨a, ha, rfl⟩ := List.mem_map.mp hm
      obtain ⟨i, hi, _⟩ := mem_lost ha
      exact h.unreleased a ⟨i, hi⟩ (heq ▸ hn)

end Record
end Lives
