import Mathlib.Data.Set.Basic
import Mathlib.Data.List.Pairwise
import Mathlib.Order.Defs.LinearOrder

/-!
This module contains maps with ordered keys as their sorted entries, and the walk around such a map: the
first entry behind a position, or the first of all if there is none. On the abstract side `IsNext` says
which key of a set that is. A key that is next in a set is next in every smaller set that still has it,
which is all that is needed to compare the walks around two maps.
-/

universe u v

def IsNext {κ : Type u} [LinearOrder κ] (keys : Set κ) (h n : κ) : Prop :=
  n ∈ keys
  ∧ ((h < n ∧ ∀ m ∈ keys, h < m → n ≤ m) ∨ ((∀ m ∈ keys, m ≤ h) ∧ ∀ m ∈ keys, n ≤ m))

namespace IsNext

variable {κ : Type u} [LinearOrder κ] {keys keys' : Set κ} {h n n' : κ}

theorem unique (hn : IsNext keys h n) (hn' : IsNext keys h n') : n = n' := by
  obtain ⟨hmem, hcase⟩ := hn
  obtain ⟨hmem', hcase'⟩ := hn'
  rcases hcase with ⟨hlt, hmin⟩ | ⟨hall, hmin⟩
  . rcases hcase' with ⟨hlt', hmin'⟩ | ⟨hall', _⟩
    . exact le_antisymm (hmin n' hmem' hlt') (hmin' n hmem hlt)
    . exact absurd (hall' n hmem) (not_le_of_gt hlt)
  . rcases hcase' with ⟨hlt', _⟩ | ⟨_, hmin'⟩
    . exact absurd (hall n' hmem') (not_le_of_gt hlt')
    . exact le_antisymm (hmin n' hmem') (hmin' n hmem)

theorem of_subset (hn : IsNext keys' h n) (hsub : keys ⊆ keys') (hmem : n ∈ keys) : IsNext keys h n := by
  obtain ⟨_, hcase⟩ := hn
  refine ⟨hmem, ?_⟩
  rcases hcase with ⟨hlt, hmin⟩ | ⟨hall, hmin⟩
  . exact .inl ⟨hlt, fun m hm => hmin m (hsub hm)⟩
  . exact .inr ⟨fun m hm => hall m (hsub hm), fun m hm => hmin m (hsub hm)⟩

end IsNext

structure OrderedMap (κ : Type u) (ν : Type v) [LinearOrder κ] where
  entries : List (κ × ν)
  sorted : entries.Pairwise fun a b => a.fst < b.fst

namespace OrderedMap

variable {κ : Type u} {ν : Type v} [LinearOrder κ]

def empty : OrderedMap κ ν :=
  { entries := [], sorted := .nil }

namespace insert

def go (k : κ) (v : ν) : List (κ × ν) → List (κ × ν)
  | [] => [(k, v)]
  | e :: es =>
    if k < e.fst then
      (k, v) :: e :: es
    else if k = e.fst then
      (k, v) :: es
    else
      e :: go k v es

theorem mem_go {k : κ} {v : ν} {es : List (κ × ν)} (hsorted : es.Pairwise fun a b => a.fst < b.fst)
    {e : κ × ν}
    : e ∈ go k v es ↔ e = (k, v) ∨ e.fst ≠ k ∧ e ∈ es := by
  induction es with
  | nil => simp [go]
  | cons e' es ih =>
    rw [List.pairwise_cons] at hsorted
    unfold go
    split
    . next hlt =>
      -- All keys of the rest are larger than `k`.
      have hne : ∀ e ∈ e' :: es, e.fst ≠ k := by
        intro e he
        rw [List.mem_cons] at he
        rcases he with rfl | he
        . exact (ne_of_lt hlt).symm
        . exact (ne_of_lt (lt_trans hlt (hsorted.left e he))).symm
      rw [List.mem_cons]
      constructor
      . rintro (heq | hmem)
        . exact .inl heq
        . exact .inr ⟨hne e hmem, hmem⟩
      . rintro (heq | ⟨_, hmem⟩)
        . exact .inl heq
        . exact .inr hmem
    . split
      . next heq =>
        rw [List.mem_cons, List.mem_cons]
        constructor
        . rintro (h | hmem)
          . exact .inl h
          . refine .inr ⟨?_, .inr hmem⟩
            rw [heq]
            exact (ne_of_lt (hsorted.left e hmem)).symm
        . rintro (h | ⟨hne, h | hmem⟩)
          . exact .inl h
          . rw [h, heq] at hne
            contradiction
          . exact .inr hmem
      . next hne =>
        rw [List.mem_cons, List.mem_cons, ih hsorted.right]
        constructor
        . rintro (h | h | ⟨h, hmem⟩)
          . rw [h]
            exact .inr ⟨fun heq => hne heq.symm, .inl rfl⟩
          . exact .inl h
          . exact .inr ⟨h, .inr hmem⟩
        . rintro (h | ⟨h, hmem | hmem⟩)
          . exact .inr (.inl h)
          . exact .inl hmem
          . exact .inr (.inr ⟨h, hmem⟩)

theorem sorted_go {k : κ} {v : ν} {es : List (κ × ν)} (hsorted : es.Pairwise fun a b => a.fst < b.fst)
    : (go k v es).Pairwise fun a b => a.fst < b.fst := by
  induction es with
  | nil => simp [go]
  | cons e' es ih =>
    have hall := hsorted
    rw [List.pairwise_cons] at hsorted
    unfold go
    split
    . next hlt =>
      rw [List.pairwise_cons]
      refine ⟨?_, hall⟩
      intro e he
      rw [List.mem_cons] at he
      rcases he with rfl | he
      . exact hlt
      . exact lt_trans hlt (hsorted.left e he)
    . next hge =>
      split
      . next heq =>
        rw [List.pairwise_cons]
        refine ⟨?_, hsorted.right⟩
        intro e he
        rw [heq]
        exact hsorted.left e he
      . next hne =>
        rw [List.pairwise_cons]
        refine ⟨?_, ih hsorted.right⟩
        intro e he
        rw [mem_go hsorted.right] at he
        rcases he with rfl | ⟨_, he⟩
        . exact lt_of_le_of_ne (le_of_not_gt hge) (Ne.symm hne)
        . exact hsorted.left e he

end insert

-- `m[k] = v`
def insert (m : OrderedMap κ ν) (k : κ) (v : ν) : OrderedMap κ ν :=
  { entries := insert.go k v m.entries, sorted := insert.sorted_go m.sorted }

def upperBound (m : OrderedMap κ ν) (k : κ) : Option (κ × ν) :=
  m.entries.find? fun e => k < e.fst

def begin (m : OrderedMap κ ν) : Option (κ × ν) :=
  m.entries.head?

def next (m : OrderedMap κ ν) (k : κ) : Option (κ × ν) :=
  match m.upperBound k with
  | some e => some e
  | none => m.begin

def keys (m : OrderedMap κ ν) : Set κ :=
  { k | ∃ v, (k, v) ∈ m.entries }

variable {m : OrderedMap κ ν} {k h : κ} {v : ν} {e : κ × ν}

theorem mem_insert : e ∈ (m.insert k v).entries ↔ e = (k, v) ∨ e.fst ≠ k ∧ e ∈ m.entries :=
  insert.mem_go m.sorted

theorem le_of_mem_of_head (hhead : m.begin = some e) {e' : κ × ν} (hmem : e' ∈ m.entries)
    : e.fst ≤ e'.fst := by
  have hsorted := m.sorted
  unfold begin at hhead
  cases hentries : m.entries with
  | nil => simp [hentries] at hhead
  | cons e0 es =>
    rw [hentries] at hhead hmem hsorted
    rw [List.head?_cons, Option.some.injEq] at hhead
    subst hhead
    rw [List.pairwise_cons] at hsorted
    rw [List.mem_cons] at hmem
    rcases hmem with rfl | hmem
    . exact le_refl _
    . exact le_of_lt (hsorted.left e' hmem)

theorem isNext_of_next (hnext : m.next h = some e) : e ∈ m.entries ∧ IsNext m.keys h e.fst := by
  unfold next at hnext
  split at hnext
  . next e' hfind =>
    rw [Option.some.injEq] at hnext
    subst hnext
    unfold upperBound at hfind
    have hmem := List.mem_of_find?_eq_some hfind
    rw [List.find?_eq_some_iff_append] at hfind
    obtain ⟨hlt, before, after, hentries, hbefore⟩ := hfind
    rw [decide_eq_true_iff] at hlt
    refine ⟨hmem, ⟨e'.snd, hmem⟩, .inl ⟨hlt, ?_⟩⟩
    -- The entries before `e'` are not behind `h`, and those after it have larger keys.
    intro n hn hhn
    obtain ⟨w, hw⟩ := hn
    have hsorted := m.sorted
    rw [hentries, List.pairwise_append] at hsorted
    rw [hentries, List.mem_append, List.mem_cons] at hw
    rcases hw with hw | hw | hw
    . have := hbefore _ hw
      simp at this
      exact absurd hhn (not_lt_of_ge this)
    . rw [← hw]
    . exact le_of_lt ((List.pairwise_cons.mp hsorted.right.left).left _ hw)
  . next hnone =>
    unfold upperBound at hnone
    rw [List.find?_eq_none] at hnone
    have hmem := List.mem_of_head? hnext
    refine ⟨hmem, ⟨e.snd, hmem⟩, .inr ⟨?_, ?_⟩⟩
    . intro n hn
      obtain ⟨w, hw⟩ := hn
      have := hnone _ hw
      simp at this
      exact this
    . intro n hn
      obtain ⟨w, hw⟩ := hn
      exact le_of_mem_of_head hnext hw

theorem next_eq_none_iff : m.next h = none ↔ m.entries = [] := by
  unfold next begin
  cases hentries : m.entries with
  | nil => simp [upperBound, hentries]
  | cons e es =>
    split
    . simp
    . simp

theorem next_eq_some_iff (hvalue : ∀ v', (k, v') ∈ m.entries → v' = v)
    : m.next h = some (k, v) ↔ (k, v) ∈ m.entries ∧ IsNext m.keys h k := by
  constructor
  . intro hnext
    exact isNext_of_next hnext
  . intro hboth
    obtain ⟨hmem, hisNext⟩ := hboth
    cases hnext : m.next h with
    | none =>
      rw [next_eq_none_iff] at hnext
      rw [hnext] at hmem
      simp at hmem
    | some e =>
      obtain ⟨hmem', hisNext'⟩ := isNext_of_next hnext
      have hkey := hisNext.unique hisNext'
      obtain ⟨k', v'⟩ := e
      dsimp only at hkey
      subst hkey
      rw [hvalue v' hmem']

end OrderedMap
