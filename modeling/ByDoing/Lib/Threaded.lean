import Mathlib.Data.List.Nodup
import Mathlib.Logic.Function.Basic

namespace Threaded

def IsChain (next : Nat → Nat) : Nat → List Nat → Prop
  | head, [] => head = 0
  | head, p :: ps => head = p ∧ p ≠ 0 ∧ IsChain next (next p) ps

-- The first cell that passes a test, or 0, and the one before it. There is no result without fuel.
def search (next : Nat → Nat) (test : Nat → Bool) : Nat → Nat → Nat → Option (Nat × Nat)
  | 0, _, _ => none
  | fuel + 1, prev, p =>
    if p = 0 ∨ test p = true then
      some (prev, p)
    else
      search next test fuel p (next p)

def row (size p : Nat) : Nat → List Nat
  | 0 => []
  | n + 1 => p :: row size (p + size) n

theorem row_eq_map (size p n : Nat) : row size p n = (List.range n).map fun i => p + size * i := by
  induction n generalizing p with
  | zero => rfl
  | succ n ih =>
    rw [row, ih, List.range_succ_eq_map, List.map_cons, List.map_map, Nat.mul_zero, Nat.add_zero]
    congr 1
    apply List.map_congr_left
    intro i _
    show p + size + size * i = p + size * (i + 1)
    rw [Nat.mul_succ]
    omega

theorem le_of_mem_row {size p q n : Nat} (h : q ∈ row size p n) : p ≤ q := by
  induction n generalizing p with
  | zero => cases h
  | succ n ih =>
    cases h with
    | head => exact Nat.le_refl _
    | tail _ h => exact Nat.le_trans (Nat.le_add_right _ size) (ih h)

variable {next next' : Nat → Nat} {head p q : Nat} {ps : List Nat}

namespace IsChain

theorem congr (h : IsChain next head ps) (hnext : ∀ p ∈ ps, next' p = next p) : IsChain next' head ps := by
  induction ps generalizing head with
  | nil => exact h
  | cons p ps ih =>
    obtain ⟨hhead, hne, hrest⟩ := h
    refine ⟨hhead, hne, ?_⟩
    rw [hnext p List.mem_cons_self]
    apply ih hrest
    intro q hq
    exact hnext q (List.mem_cons_of_mem p hq)

theorem update (h : IsChain next head ps) (hp : p ∉ ps) : IsChain (Function.update next p q) head ps := by
  apply h.congr
  intro r hr
  apply Function.update_of_ne
  intro heq
  exact hp (heq ▸ hr)

theorem ne_zero (h : IsChain next head ps) (hp : p ∈ ps) : p ≠ 0 := by
  induction ps generalizing head with
  | nil => cases hp
  | cons q ps ih =>
    obtain ⟨_, hne, hrest⟩ := h
    cases hp with
    | head => exact hne
    | tail _ hp => exact ih hrest hp

theorem push (h : IsChain next head ps) (hne : p ≠ 0) (hp : p ∉ ps)
    : IsChain (Function.update next p head) p (p :: ps) := by
  refine ⟨rfl, hne, ?_⟩
  rw [Function.update_self]
  exact h.update hp

theorem of_ne_zero (h : IsChain next head ps) (hne : head ≠ 0)
    : ∃ rest, ps = head :: rest ∧ IsChain next (next head) rest := by
  cases ps with
  | nil => exact absurd h hne
  | cons p ps =>
    obtain ⟨rfl, _, hrest⟩ := h
    exact ⟨ps, rfl, hrest⟩

theorem remove {qs : List Nat} (h : IsChain next head (ps ++ q :: p :: qs)) (hnodup : (ps ++ q :: p :: qs).Nodup)
    : IsChain (Function.update next q (next p)) head (ps ++ q :: qs) := by
  induction ps generalizing head with
  | nil =>
    obtain ⟨hhead, hne, _, _, hrest⟩ := h
    refine ⟨hhead, hne, ?_⟩
    rw [Function.update_self]
    apply hrest.update
    intro hq
    exact (List.nodup_cons.mp hnodup).left (List.mem_cons_of_mem p hq)
  | cons r ps ih =>
    obtain ⟨hhead, hne, hrest⟩ := h
    rw [List.cons_append, List.nodup_cons] at hnodup
    refine ⟨hhead, hne, ?_⟩
    rw [Function.update_of_ne]
    . exact ih hrest hnodup.right
    . intro heq
      exact hnodup.left (heq ▸ List.mem_append_right ps List.mem_cons_self)

theorem insert {qs : List Nat} (h : IsChain next head (ps ++ q :: qs)) (hnodup : (ps ++ q :: qs).Nodup) (hne : p ≠ 0)
    (hp : p ∉ ps ++ q :: qs)
    : IsChain (Function.update (Function.update next p (next q)) q p) head (ps ++ q :: p :: qs) := by
  induction ps generalizing head with
  | nil =>
    obtain ⟨hhead, hq, hrest⟩ := h
    rw [List.nil_append, List.mem_cons, not_or] at hp
    refine ⟨hhead, hq, ?_, hne, ?_⟩
    . rw [Function.update_self]
    . rw [Function.update_of_ne hp.left, Function.update_self]
      exact (hrest.update hp.right).update (List.nodup_cons.mp hnodup).left
  | cons r ps ih =>
    obtain ⟨hhead, hr, hrest⟩ := h
    rw [List.cons_append, List.nodup_cons] at hnodup
    rw [List.cons_append, List.mem_cons, not_or] at hp
    refine ⟨hhead, hr, ?_⟩
    rw [Function.update_of_ne, Function.update_of_ne (Ne.symm hp.left)]
    . exact ih hrest hnodup.right hp.right
    . intro heq
      exact hnodup.left (heq ▸ List.mem_append_right ps List.mem_cons_self)

theorem next_eq {qs : List Nat} (h : IsChain next head (ps ++ q :: p :: qs)) : next q = p := by
  induction ps generalizing head with
  | nil => exact h.right.right.left
  | cons r ps ih => exact ih h.right.right

end IsChain

theorem search_skip {test : Nat → Bool} {before rest : List Nat} (h : IsChain next head (before ++ rest))
    (hbefore : ∀ q ∈ before, test q = false) (fuel prev : Nat) (hfuel : before.length ≤ fuel)
    : ∃ head', IsChain next head' rest
        ∧ search next test fuel prev head
          = search next test (fuel - before.length) ((prev :: before).getLast (List.cons_ne_nil prev before)) head' := by
  induction before generalizing head fuel prev with
  | nil => exact ⟨head, h, rfl⟩
  | cons q before ih =>
    obtain ⟨rfl, hne, hrest⟩ := h
    have hskip : ¬(head = 0 ∨ test head = true) := by
      rw [hbefore head List.mem_cons_self]
      simp [hne]
    match fuel with
    | fuel + 1 =>
      rw [List.length_cons] at hfuel
      have hbefore' : ∀ q ∈ before, test q = false := by
        intro q hq
        exact hbefore q (List.mem_cons_of_mem head hq)
      obtain ⟨head', hhead', hsearch⟩ := ih hrest hbefore' fuel head (by omega)
      refine ⟨head', hhead', ?_⟩
      rw [search, if_neg hskip, hsearch, List.getLast_cons_cons, List.length_cons, Nat.add_sub_add_right]

theorem search_found {test : Nat → Bool} {before after : List Nat} {fuel prev : Nat}
    (h : IsChain next head (before ++ p :: after)) (hbefore : ∀ q ∈ before, test q = false) (hp : test p = true)
    (hfuel : before.length < fuel)
    : search next test fuel prev head = some ((prev :: before).getLast (List.cons_ne_nil prev before), p) := by
  obtain ⟨head', hhead', hsearch⟩ := search_skip h hbefore fuel prev (by omega)
  rw [hsearch, hhead'.left]
  match hfuel' : fuel - before.length with
  | 0 => omega
  | fuel + 1 => rw [search, if_pos (.inr hp)]

theorem search_none {test : Nat → Bool} {fuel prev : Nat} (h : IsChain next head ps)
    (hps : ∀ q ∈ ps, test q = false) (hfuel : ps.length < fuel)
    : search next test fuel prev head = some ((prev :: ps).getLast (List.cons_ne_nil prev ps), 0) := by
  rw [← List.append_nil ps] at h
  obtain ⟨head', hhead', hsearch⟩ := search_skip h hps fuel prev (by omega)
  have hzero : head' = 0 := hhead'
  rw [hsearch, hzero]
  match hfuel' : fuel - ps.length with
  | 0 => omega
  | fuel + 1 => rw [search, if_pos (.inl rfl)]

theorem search_cases {test : Nat → Bool} {fuel : Nat} (h : IsChain next head ps) (prev : Nat) (hfuel : ps.length < fuel)
    : (∃ q ∈ ps, test q = true ∧ ∃ prev', search next test fuel prev head = some (prev', q))
        ∨ (∀ q ∈ ps, test q = false) ∧ ∃ prev', search next test fuel prev head = some (prev', 0) := by
  cases hfind : ps.find? test with
  | none =>
    have hps : ∀ q ∈ ps, test q = false := by
      intro q hq
      rw [List.find?_eq_none] at hfind
      exact (Bool.not_eq_true _).mp (hfind q hq)
    exact .inr ⟨hps, _, search_none h hps hfuel⟩
  | some q =>
    rw [List.find?_eq_some_iff_append] at hfind
    obtain ⟨hq, before, after, rfl, hbefore⟩ := hfind
    have hfalse : ∀ r ∈ before, test r = false := by
      intro r hr
      simpa using hbefore r hr
    rw [List.length_append] at hfuel
    refine .inl ⟨q, List.mem_append_right _ List.mem_cons_self, hq, _, search_found h hfalse hq (by omega)⟩

end Threaded
