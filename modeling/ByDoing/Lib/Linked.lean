import Mathlib.Data.List.Basic
import Mathlib.Data.List.Nodup
import Mathlib.Data.List.Range
import Mathlib.Data.List.Perm.Subperm

namespace Linked

universe u

variable {α : Type u}

structure Cell (α : Type u) where
  val : α
  next : Option Nat
  deriving Repr, DecidableEq

def setNext (heap : List (Cell α)) (p q : Nat) : List (Cell α) :=
  heap.modify p fun cell => { cell with next := some q }

theorem getElem?_setNext_self {heap : List (Cell α)} {p q : Nat}
    : (setNext heap p q)[p]? = heap[p]?.map fun cell => { cell with next := some q } := by
  simp [setNext]

theorem getElem?_setNext_of_ne {heap : List (Cell α)} {p q r : Nat} (h : p ≠ r)
    : (setNext heap p q)[r]? = heap[r]? := by
  simp [setNext, h]

def Chain (heap : List (Cell α)) (link : Option Nat) : List Nat → List α → Prop
  | [], vs => link = none ∧ vs = []
  | p :: ps, vs =>
    link = some p
      ∧ ∃ v next rest, heap[p]? = some ⟨v, next⟩ ∧ vs = v :: rest ∧ Chain heap next ps rest

namespace Chain

variable {heap : List (Cell α)} {link : Option Nat} {ps qs : List Nat} {vs ws : List α}

theorem unique (h : Chain heap link ps vs) (h' : Chain heap link qs ws) : ps = qs := by
  induction ps generalizing link qs vs ws with
  | nil =>
    cases qs with
    | nil => rfl
    | cons q qs =>
      unfold Chain at h h'
      rw [h.left] at h'
      simp at h'
  | cons p ps ih =>
    unfold Chain at h
    obtain ⟨hlink, v, next, rest, hcell, _, hrest⟩ := h
    cases qs with
    | nil =>
      unfold Chain at h'
      rw [hlink] at h'
      simp at h'
    | cons q qs =>
      unfold Chain at h'
      obtain ⟨hlink', v', next', rest', hcell', _, hrest'⟩ := h'
      rw [hlink, Option.some.injEq] at hlink'
      subst hlink'
      rw [hcell, Option.some.injEq, Cell.mk.injEq] at hcell'
      rw [← hcell'.right] at hrest'
      rw [ih hrest hrest']

theorem of_append (h : Chain heap link (ps ++ qs) vs)
    : ∃ link' ws, Chain heap link' qs ws := by
  induction ps generalizing link vs with
  | nil => exact ⟨link, vs, h⟩
  | cons p ps ih =>
    rw [List.cons_append, Chain] at h
    obtain ⟨_, _, _, _, _, _, hrest⟩ := h
    exact ih hrest

theorem lt_length (h : Chain heap link ps vs) {p : Nat} (hp : p ∈ ps) : p < heap.length := by
  induction ps generalizing link vs with
  | nil => simp at hp
  | cons q ps ih =>
    unfold Chain at h
    obtain ⟨_, _, _, _, hcell, _, hrest⟩ := h
    cases hp with
    | head =>
      rw [List.getElem?_eq_some_iff] at hcell
      exact hcell.fst
    | tail _ hp => exact ih hrest hp

theorem nodup (h : Chain heap link ps vs) : ps.Nodup := by
  induction ps generalizing link vs with
  | nil => exact List.nodup_nil
  | cons p ps ih =>
    have hall := h
    unfold Chain at h
    obtain ⟨hlink, _, _, _, _, _, hrest⟩ := h
    rw [List.nodup_cons]
    refine ⟨?_, ih hrest⟩
    intro hp
    rw [List.mem_iff_append] at hp
    obtain ⟨as, bs, hps⟩ := hp
    rw [hps] at hrest
    obtain ⟨link', ws, hsuffix⟩ := of_append hrest
    have hlink' : link' = some p := by
      unfold Chain at hsuffix
      exact hsuffix.left
    rw [hlink', ← hlink] at hsuffix
    have heq := congrArg List.length (hall.unique hsuffix)
    rw [hps] at heq
    simp at heq
    omega

theorem length_le (h : Chain heap link ps vs) : ps.length ≤ heap.length := by
  have hsub : ps ⊆ List.range heap.length := by
    intro p hp
    rw [List.mem_range]
    exact h.lt_length hp
  have hle := (h.nodup.subperm hsub).length_le
  rw [List.length_range] at hle
  exact hle

theorem length_eq (h : Chain heap link ps vs) : ps.length = vs.length := by
  induction ps generalizing link vs with
  | nil =>
    unfold Chain at h
    rw [h.right]
    rfl
  | cons p ps ih =>
    unfold Chain at h
    obtain ⟨_, _, _, rest, _, hvs, hrest⟩ := h
    rw [hvs, List.length_cons, List.length_cons, ih hrest]

theorem nil_iff (h : Chain heap link ps vs) : link = none ↔ ps = [] := by
  cases ps with
  | nil =>
    unfold Chain at h
    simp [h.left]
  | cons p ps =>
    unfold Chain at h
    simp [h.left]

theorem singleton (heap : List (Cell α)) (v : α)
    : Chain (heap ++ [⟨v, none⟩]) (some heap.length) [heap.length] [v] := by
  simp [Chain]

theorem snoc {tail : Nat} (h : Chain heap link (ps ++ [tail]) vs) (v : α)
    : Chain (setNext (heap ++ [⟨v, none⟩]) tail heap.length) link (ps ++ [tail, heap.length])
        (vs ++ [v]) := by
  have hnodup := h.nodup
  induction ps generalizing link vs with
  | nil =>
    have hlt := h.lt_length (List.mem_singleton.mpr rfl)
    simp only [List.nil_append, Chain] at h
    obtain ⟨hlink, w, next, rest, hcell, hvs, _, hrest⟩ := h
    subst hvs hrest
    refine ⟨hlink, w, some heap.length, [v], ?_, rfl, rfl, v, none, [], ?_, rfl, rfl, rfl⟩
    . rw [getElem?_setNext_self, List.getElem?_append_left hlt, hcell]
      rfl
    . rw [getElem?_setNext_of_ne (by omega)]
      simp
  | cons p ps ih =>
    have hlt := h.lt_length (List.mem_cons_self)
    rw [List.cons_append, Chain] at h
    obtain ⟨hlink, w, next, rest, hcell, hvs, hrest⟩ := h
    rw [List.cons_append, List.nodup_cons] at hnodup
    have hne : tail ≠ p := by
      intro heq
      apply hnodup.left
      simp [heq]
    subst hvs
    refine ⟨hlink, w, next, rest ++ [v], ?_, rfl, ih hrest hnodup.right⟩
    rw [getElem?_setNext_of_ne hne, List.getElem?_append_left hlt, hcell]

end Chain
end Linked
