import ByDoing.Lib.Search

namespace Lines

universe u

variable {α : Type u} [DecidableEq α] (a b : α)

def untilEmpty (xs : List α) : List (List α) :=
  match h : Search.find [a, b] xs with
  | none => []
  | some 0 => []
  | some (n + 1) => xs.take (n + 1) :: untilEmpty (xs.drop (n + 3))
termination_by xs.length
decreasing_by
  have := Search.find_add_length_le h
  simp at this ⊢
  omega

def emptyEnd (xs : List α) : Option Nat :=
  match h : Search.find [a, b] xs with
  | none => none
  | some 0 => some 2
  | some (n + 1) => (emptyEnd (xs.drop (n + 3))).map (· + (n + 3))
termination_by xs.length
decreasing_by
  have := Search.find_add_length_le h
  simp at this ⊢
  omega

-- The number of elements that a reader has passed that takes the first line `test` refuses for empty.
def refusedEnd (test : List α → Bool) (xs : List α) : Option Nat :=
  match h : Search.find [a, b] xs with
  | none => none
  | some n =>
    if test (xs.take n) then
      (refusedEnd test (xs.drop (n + 2))).map (· + (n + 2))
    else
      some 2
termination_by xs.length
decreasing_by
  have := Search.find_add_length_le h
  simp at this ⊢
  omega

def complete (xs : List α) : List (List α) :=
  match h : Search.find [a, b] xs with
  | none => []
  | some n => xs.take n :: complete (xs.drop (n + 2))
termination_by xs.length
decreasing_by
  have := Search.find_add_length_le h
  simp at this ⊢
  omega

variable {a b} {test : List α → Bool} {xs : List α} {n : Nat}

theorem untilEmpty_of_succ (h : Search.find [a, b] xs = some (n + 1))
    : untilEmpty a b xs = xs.take (n + 1) :: untilEmpty a b (xs.drop (n + 3)) := by
  rw [untilEmpty]
  split <;> simp_all

theorem untilEmpty_of_zero (h : Search.find [a, b] xs = some 0) : untilEmpty a b xs = [] := by
  rw [untilEmpty]
  split <;> simp_all

theorem untilEmpty_of_none (h : Search.find [a, b] xs = none) : untilEmpty a b xs = [] := by
  rw [untilEmpty]
  split <;> simp_all

theorem emptyEnd_of_none (h : Search.find [a, b] xs = none) : emptyEnd a b xs = none := by
  rw [emptyEnd]
  split <;> simp_all

theorem emptyEnd_of_zero (h : Search.find [a, b] xs = some 0) : emptyEnd a b xs = some 2 := by
  rw [emptyEnd]
  split <;> simp_all

theorem emptyEnd_of_succ (h : Search.find [a, b] xs = some (n + 1))
    : emptyEnd a b xs = (emptyEnd a b (xs.drop (n + 3))).map (· + (n + 3)) := by
  rw [emptyEnd]
  split <;> simp_all

theorem two_le_emptyEnd {e : Nat} (h : emptyEnd a b xs = some e) : 2 ≤ e := by
  rw [emptyEnd] at h
  split at h
  . simp at h
  . simp at h
    omega
  . rw [Option.map_eq_some_iff] at h
    obtain ⟨k, _, hk⟩ := h
    omega

theorem refusedEnd_of_none (h : Search.find [a, b] xs = none) : refusedEnd a b test xs = none := by
  rw [refusedEnd]
  split <;> simp_all

theorem refusedEnd_of_some (h : Search.find [a, b] xs = some n)
    : refusedEnd a b test xs
        =
      if test (xs.take n) then
        (refusedEnd a b test (xs.drop (n + 2))).map (· + (n + 2))
      else
        some 2 := by
  rw [refusedEnd]
  split <;> simp_all

theorem complete_of_none (h : Search.find [a, b] xs = none) : complete a b xs = [] := by
  rw [complete]
  split <;> simp_all

theorem complete_of_some (h : Search.find [a, b] xs = some n)
    : complete a b xs = xs.take n :: complete a b (xs.drop (n + 2)) := by
  rw [complete]
  split <;> simp_all

theorem refusedEnd_isSome {xs : List α}
    : (refusedEnd a b test xs).isSome = (complete a b xs).any (fun line => !test line) := by
  cases h : Search.find [a, b] xs with
  | none => rw [refusedEnd_of_none h, complete_of_none h, Option.isSome_none, List.any_nil]
  | some n =>
    have hlen := Search.find_add_length_le h
    rw [refusedEnd_of_some h, complete_of_some h, List.any_cons]
    cases hline : test (xs.take n) with
    | true =>
      have ih := @refusedEnd_isSome (xs.drop (n + 2))
      rw [if_pos rfl, Option.isSome_map, ih, Bool.not_true, Bool.false_or]
    | false => simp
termination_by xs.length
decreasing_by
  simp at hlen ⊢
  omega

theorem emptyEnd_eq_find {xs : List α} {n : Nat} (hab : a ≠ b) (h : Search.find [a, b] xs = some n)
    : (Search.find [a, b, a, b] xs).map (· + 4)
        =
      (emptyEnd a b (xs.drop (n + 2))).map (· + (n + 2)) := by
  by_cases hpre : [a, b] <+: xs.drop (n + 2)
  . rw [Search.find_twice_of_starts h hpre, emptyEnd_of_zero (Search.find_of_starts hpre)]
    simp only [Option.map_some, Option.some.injEq]
    omega
  . rw [Search.find_twice_of_not_starts hab h hpre, Option.map_map]
    cases hnext : Search.find [a, b] (xs.drop (n + 2)) with
    | none => simp [Search.find_twice_of_none hnext, emptyEnd_of_none hnext]
    | some m =>
      cases m with
      | zero =>
        have := Search.prefix_drop_of_find hnext
        contradiction
      | succ m =>
        have hlen := Search.find_add_length_le h
        have ih := emptyEnd_eq_find hab hnext
        rw [emptyEnd_of_succ hnext, ← ih, Option.map_map]
        congr 1
        funext k
        simp only [Function.comp_apply]
        omega
termination_by xs.length
decreasing_by
  simp at hlen ⊢
  omega

theorem refusedEnd_eq_emptyEnd {xs : List α} (hnil : test [] = false)
    (hall : ∀ line ∈ untilEmpty a b xs, test line = true)
    : refusedEnd a b test xs = emptyEnd a b xs := by
  cases h : Search.find [a, b] xs with
  | none => rw [refusedEnd_of_none h, emptyEnd_of_none h]
  | some n =>
    rw [refusedEnd_of_some h]
    cases n with
    | zero => simp [hnil, emptyEnd_of_zero h]
    | succ n =>
      have hlen := Search.find_add_length_le h
      rw [untilEmpty_of_succ h, List.forall_mem_cons] at hall
      rw [if_pos hall.left, emptyEnd_of_succ h, refusedEnd_eq_emptyEnd hnil hall.right]
termination_by xs.length
decreasing_by
  simp at hlen ⊢
  omega

theorem refusedEnd_lt_emptyEnd {xs : List α}
    (hsome : ∃ line ∈ untilEmpty a b xs, test line = false)
    : ∃ e, refusedEnd a b test xs = some e ∧ ∀ e', emptyEnd a b xs = some e' → e < e' := by
  cases h : Search.find [a, b] xs with
  | none => simp [untilEmpty_of_none h] at hsome
  | some n =>
    cases n with
    | zero => simp [untilEmpty_of_zero h] at hsome
    | succ n =>
      have hlen := Search.find_add_length_le h
      rw [refusedEnd_of_some h, emptyEnd_of_succ h]
      rw [untilEmpty_of_succ h, List.exists_mem_cons_iff] at hsome
      cases hline : test (xs.take (n + 1)) with
      | true =>
        have hrest := hsome.resolve_left (by simp [hline])
        obtain ⟨e, he, hlt⟩ := refusedEnd_lt_emptyEnd hrest
        refine ⟨e + (n + 3), by simp [he], ?_⟩
        intro e' he'
        rw [Option.map_eq_some_iff] at he'
        obtain ⟨k, hk, rfl⟩ := he'
        have := hlt k hk
        omega
      | false =>
        refine ⟨2, by simp, ?_⟩
        intro e' he'
        rw [Option.map_eq_some_iff] at he'
        obtain ⟨k, _, rfl⟩ := he'
        omega
termination_by xs.length
decreasing_by
  simp at hlen ⊢
  omega

def join (a b : α) (lines : List (List α)) : List α :=
  lines.flatMap fun line => line ++ [a, b]

omit [DecidableEq α] in
theorem join_cons (line : List α) (lines : List (List α))
    : join a b (line :: lines) = line ++ [a, b] ++ join a b lines := by
  simp [join]

omit [DecidableEq α] in
theorem join_append (lines lines' : List (List α))
    : join a b (lines ++ lines') = join a b lines ++ join a b lines' := by
  simp [join]

theorem complete_join {lines : List (List α)} (ha : ∀ line ∈ lines, a ∉ line) (rest : List α)
    : complete a b (join a b lines ++ rest) = lines ++ complete a b rest := by
  induction lines with
  | nil => rfl
  | cons line lines ih =>
    rw [List.forall_mem_cons] at ha
    have hfind := @Search.find_append_self_of_not_mem _ _ a [b] line (join a b lines ++ rest) ha.left
    rw [join_cons, List.append_assoc (line ++ [a, b]), complete_of_some hfind,
      show line.length + 2 = (line ++ [a, b]).length by simp, List.drop_left, ih ha.right,
      List.append_assoc line, List.take_left, List.cons_append]

theorem untilEmpty_join {lines : List (List α)} (hne : ∀ line ∈ lines, line ≠ [])
    (ha : ∀ line ∈ lines, a ∉ line) (rest : List α)
    : untilEmpty a b (join a b lines ++ ([a, b] ++ rest)) = lines
        ∧ emptyEnd a b (join a b lines ++ ([a, b] ++ rest)) = some ((join a b lines).length + 2) := by
  induction lines with
  | nil =>
    have hfind : Search.find [a, b] ([a, b] ++ rest) = some 0 :=
      Search.find_of_starts (List.prefix_append _ _)
    simp only [join, List.flatMap_nil, List.nil_append]
    exact ⟨untilEmpty_of_zero hfind, emptyEnd_of_zero hfind⟩
  | cons line lines ih =>
    rw [List.forall_mem_cons] at hne ha
    obtain ⟨huntil, hend⟩ := ih hne.right ha.right
    rw [join_cons, List.append_assoc (line ++ [a, b])]
    have hfind := @Search.find_append_self_of_not_mem _ _ a [b] line
      (join a b lines ++ ([a, b] ++ rest)) ha.left
    have hdrop : (line ++ [a, b] ++ (join a b lines ++ ([a, b] ++ rest))).drop (line.length + 2)
        = join a b lines ++ ([a, b] ++ rest) := by
      rw [show line.length + 2 = (line ++ [a, b]).length by simp, List.drop_left]
    obtain ⟨n, hn⟩ := Nat.exists_eq_succ_of_ne_zero (fun hlen => hne.left (List.length_eq_zero_iff.mp hlen))
    have hdrop' : (line ++ [a, b] ++ (join a b lines ++ ([a, b] ++ rest))).drop (n + 3)
        = join a b lines ++ ([a, b] ++ rest) := by
      rw [show n + 3 = line.length + 2 by omega]
      exact hdrop
    rw [hn] at hfind
    constructor
    . rw [untilEmpty_of_succ hfind, hdrop', huntil, ← Nat.succ_eq_add_one, ← hn, List.append_assoc,
        List.take_left]
    . rw [emptyEnd_of_succ hfind, hdrop', hend]
      simp [hn]
      omega

end Lines
