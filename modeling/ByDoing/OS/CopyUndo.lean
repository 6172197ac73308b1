import ByDoing.OS.PageChanges

namespace OS
namespace Memory

section counted

variable {m m' m₀ : Memory} {held : List Nat} {managed free source : Nat → Prop} {block : PageIndex → Prop}

-- What `copy_page_tables` has done since it began with `m₀`.
structure Copying (m₀ : Memory) (held : List Nat) (managed source : Nat → Prop) (block : PageIndex → Prop)
    (m : Memory) : Prop where
  counted : m.Counted held managed
  within : Within managed m₀.IsFree source block m₀ m
  clean : m.Clean
  fresh : ∀ d, block d → ∀ t, m.userTable d = some t → m₀.IsFree t

structure Pair (m₀ : Memory) (source : Nat → Prop) (block : PageIndex → Prop) (nr : Nat) (d d' : PageIndex) : Prop where
  le_to : 16 ≤ d'.val
  place : 16 ≤ d.val ∧ d.val % 16 = d'.val % 16 ∨ d = 0 ∧ nr = 0xA0
  from_ : ¬block d
  to_ : block d'
  parent : ∀ t, m₀.userTable d = some t → source t

namespace Copying

theorem copyTable {nr : Nat} {d d' : PageIndex} (h₀ : m₀.Counted held managed)
    (hblock : ∀ d, block d → m₀.userTable d = none) (h : Copying m₀ held managed source block m)
    (hpair : Pair m₀ source block nr d d') (hok : Memory.copyTable nr m d d' = .ok m')
    : Copying m₀ held managed source block m' ∧ ∀ e, e ≠ d' → m'.dir e = m.dir e := by
  have hfree : ∀ f m₁, m.getFreePage = some (f, m₁) → m₀.IsFree f := by
    intro f m₁ hget
    have hnew := h.counted.getFreePage hget
    exact h₀.free_of_zero h.counted h.within hblock hnew.managed_page hnew.count_eq
  have hparent : ∀ t, m.userTable d = some t → source t := by
    intro t ht
    apply hpair.parent t
    rw [← h.within.userTable_eq hpair.from_]
    exact ht
  obtain ⟨hwithin, hd'⟩ := h.counted.copyTable_within hpair.le_to hpair.place hfree hparent hok
  refine ⟨?_, hwithin.dir⟩
  constructor
  . exact h.counted.copyTable hpair.le_to hpair.place hok
  . exact h.within.trans (hwithin.mono (fun _ => id) (fun _ => id) fun e he => he ▸ hpair.to_)
  . intro e he hp
    by_cases heq : e = d'
    . subst heq
      rcases hd' with hsame | ⟨t, _, hmake, _⟩
      . rw [hsame] at hp ⊢
        exact h.clean e he hp
      . rw [hmake, Entry.present_make] at hp
        cases hp
    . rw [hwithin.dir e heq] at hp ⊢
      exact h.clean e he hp
  . intro e he t ht
    by_cases heq : e = d'
    . subst heq
      rcases hd' with hsame | ⟨t', hfree', hmake, hbound⟩
      . apply h.fresh e he t
        unfold userTable at ht ⊢
        rwa [hsame] at ht
      . unfold userTable at ht
        rw [hmake, Entry.target_make hbound, if_pos hpair.le_to, Option.some.injEq] at ht
        exact ht ▸ hfree'
    . apply h.fresh e he t
      rwa [hwithin.userTable_eq heq] at ht

theorem copyTables {nr : Nat} {from_ to_ : Word} {js : List Nat} (h₀ : m₀.Counted held managed)
    (hblock : ∀ d, block d → m₀.userTable d = none) (h : Copying m₀ held managed source block m)
    (hjs : ∀ j ∈ js, ∃ d d', dirAt ((dirOf from_).val + j) = .ok d ∧ dirAt ((dirOf to_).val + j) = .ok d' ∧
      Pair m₀ source block nr d d' ∧ m.dir d' = 0)
    (hnodup : js.Nodup)
    : Copying m₀ held managed source block (Memory.copyTables nr from_ to_ js m).fst
        ∧ ∀ e, (Memory.copyTables nr from_ to_ js m).snd = some e → e = .outOfMemory := by
  induction js generalizing m with
  | nil => exact ⟨h, fun _ he => by cases he⟩
  | cons j js ih =>
    obtain ⟨hj, hnodup⟩ := List.nodup_cons.mp hnodup
    obtain ⟨d, d', hd, hd', hpair, hzero⟩ := hjs j List.mem_cons_self
    unfold Memory.copyTables
    rw [hd, hd']
    dsimp only
    split
    . next m₁ hok =>
      obtain ⟨h₁, hdir⟩ := h.copyTable h₀ hblock hpair hok
      apply ih h₁ _ hnodup
      intro k hk
      obtain ⟨e, e', he, he', hpair', hzero'⟩ := hjs k (List.mem_cons_of_mem j hk)
      refine ⟨e, e', he, he', hpair', ?_⟩
      rw [hdir e' _, hzero']
      intro heq
      subst heq
      have hval := dirAt_val hd'
      have hval' := dirAt_val he'
      have hkj : k = j := by omega
      exact hj (hkj ▸ hk)
    . next e herror =>
      refine ⟨h, ?_⟩
      intro e' he'
      rw [← Option.some.inj he']
      exact Counted.copyTable_error hzero herror

theorem frame_eq (h₀ : m₀.Counted held managed) (h : Copying m₀ held managed source block m) (hdir : m.dir = m₀.dir)
    : m.counted.frame = m₀.counted.frame := by
  have htable : m.userTable = m₀.userTable := by
    funext d
    unfold userTable
    rw [hdir]
  apply Counted.counted_congr
  funext k
  cases k with
  | table d => exact congrFun htable d
  | page k =>
    obtain ⟨d, i⟩ := k
    cases ht : m₀.userTable d with
    | none => rw [lookup_of_none ht, lookup_of_none (by rw [htable, ht])]
    | some t =>
      rw [m₀.frame_page ht, m.frame_page (t := t) (by rw [htable, ht])]
      exact h.within.target_eq (h₀.table_ne_zero ht) (h₀.table_not_free ht) i

theorem memMap_eq (h₀ : m₀.Counted held managed) (h : Copying m₀ held managed source block m) (hdir : m.dir = m₀.dir)
    : m.memMap = m₀.memMap := by
  funext nr
  by_cases hnr : managed (lowFrame + nr)
  . have hcount : m.counted.count (lowFrame + nr) = m₀.counted.count (lowFrame + nr) := by
      rw [h.counted.exact.count_eq _ hnr, h₀.exact.count_eq _ hnr,
        Sharing.Mapping.Exact.sharers_congr (h.frame_eq h₀ hdir)]
    rw [counted_count, counted_count, count_eq (Nat.le_add_right _ _), count_eq (Nat.le_add_right _ _),
      Nat.add_sub_cancel_left] at hcount
    exact BitVec.eq_of_toNat_eq hcount
  . exact h.within.memMap nr hnr

end Copying

def RangeTable (m : Memory) (base size : Word) (t : Nat) : Prop :=
  ∃ d : PageIndex, (dirOf base).val ≤ d.val ∧ d.val < (dirOf base).val + tables size ∧ m.userTable d = some t

def Parent (from_ : Word) (to_ : UserSlot) (size : RangeSize) : Prop :=
  (∃ p : UserSlot, p ≠ to_ ∧ from_ = p.base) ∨ from_ = 0 ∧ size.val = 0xa0000

theorem pair_of_parent (m : Memory) {from_ : Word} {to_ : UserSlot} {size : RangeSize} (hparent : Parent from_ to_ size)
    {j : Nat} (hj : j < tables size.val)
    : ∃ d, dirAt ((dirOf from_).val + j) = .ok d
        ∧ Pair m (m.RangeTable from_ size.val) (Space.InRange to_ (tables size.val)) (if from_ = 0 then 0xA0 else 1024) d
          (to_.block j) := by
  have hlt : j < 16 := Nat.lt_of_lt_of_le hj size.tables_le
  have hto : Space.InRange to_ (tables size.val) (to_.block j) := by
    unfold Space.InRange
    rw [to_.block_val hlt]
    omega
  rcases hparent with ⟨p, hne, rfl⟩ | ⟨rfl, hsize⟩
  . have hd := p.dirAt_base hlt
    refine ⟨p.block j, hd, ?_⟩
    constructor
    . exact to_.le_block hlt
    . refine .inl ⟨p.le_block hlt, ?_⟩
      rw [p.block_val hlt, to_.block_val hlt]
      omega
    . intro hin
      unfold Space.InRange at hin
      rw [p.block_val hlt] at hin
      have hbound := size.tables_le
      exact hne (Subtype.ext (Fin.ext (by omega)))
    . exact hto
    . intro t ht
      have hval := dirAt_val hd
      exact ⟨p.block j, by omega, by omega, ht⟩
  . rw [hsize, show tables 0xa0000 = 1 from rfl] at hj
    have hzero : j = 0 := by omega
    subst hzero
    refine ⟨0, rfl, ?_⟩
    constructor
    . exact to_.le_block hlt
    . exact .inr ⟨rfl, if_pos rfl⟩
    . intro hin
      unfold Space.InRange at hin
      have hle := to_.le_block (j := 0) (by omega)
      rw [to_.block_val (by omega)] at hle
      rw [Fin.val_zero] at hin
      omega
    . exact hto
    . intro t ht
      unfold userTable at ht
      rw [if_neg (by simp)] at ht
      cases ht

theorem eq_block {to_ : UserSlot} {n : Nat} {d : PageIndex} (hd : Space.InRange to_ n d)
    : d = to_.block (d.val % 16) := by
  apply Fin.ext
  rw [to_.block_val (by omega)]
  omega

theorem parent_aligned {from_ : Word} {to_ : UserSlot} {size : RangeSize} (h : Parent from_ to_ size)
    : from_ &&& 0x3fffff = 0 := by
  rcases h with ⟨p, _, rfl⟩ | ⟨rfl, _⟩
  . exact p.base_aligned
  . rfl

variable {from_ : Word} {to_ : UserSlot} {size : RangeSize}

theorem copyPart_copying (h : m.Counted held managed) (hclean : m.Clean) (hparent : Parent from_ to_ size)
    (hzero : ∀ j, j < 16 → m.dir (to_.block j) = 0)
    : Copying m held managed (m.RangeTable from_ size.val) (Space.InRange to_ (tables size.val))
          (m.copyPageTablesPart from_ to_.base size.val).fst
        ∧ ∀ e, (m.copyPageTablesPart from_ to_.base size.val).snd = some e → e = .outOfMemory := by
  have hblock : ∀ d, Space.InRange to_ (tables size.val) d → m.userTable d = none := by
    intro d hd
    apply userTable_eq_none
    rw [eq_block hd, hzero _ (Nat.mod_lt _ (by decide)), Entry.present_zero]
  unfold copyPageTablesPart
  rw [if_neg (by rw [parent_aligned hparent, to_.base_aligned]; simp)]
  apply Copying.copyTables h hblock
  . constructor
    . exact h
    . exact Within.refl m
    . exact hclean
    . intro d hd t ht
      rw [hblock d hd] at ht
      cases ht
  . intro j hj
    rw [List.mem_range] at hj
    obtain ⟨d, hd, hpair⟩ := pair_of_parent m hparent hj
    have hlt : j < 16 := Nat.lt_of_lt_of_le hj size.tables_le
    exact ⟨d, to_.block j, hd, to_.dirAt_base hlt, hpair, hzero j hlt⟩
  . exact List.nodup_range

theorem copyPart_undone (h : m.Counted held managed) (hclean : m.Clean) (hparent : Parent from_ to_ size)
    (hzero : ∀ j, j < 16 → m.dir (to_.block j) = 0)
    : ∃ m', (m.copyPageTablesPart from_ to_.base size.val).fst.freePageTables to_.base size.val = .ok m'
        ∧ Copying m held managed (m.RangeTable from_ size.val) (Space.InRange to_ (tables size.val)) m'
        ∧ m'.dir = m.dir ∧ m'.memMap = m.memMap := by
  obtain ⟨hcopy, _⟩ := copyPart_copying h hclean hparent hzero
  obtain ⟨m', hok, _⟩ := hcopy.counted.freePageTables to_ size
  refine ⟨m', hok, ?_⟩
  have hblock : ∀ j, j < tables size.val → ∀ d, dirAt ((dirOf to_.base).val + j) = .ok d →
      Space.InRange to_ (tables size.val) d := by
    intro j hj d hd
    have hlt : j < 16 := Nat.lt_of_lt_of_le hj size.tables_le
    rw [to_.dirAt_base hlt, Except.ok.injEq] at hd
    rw [← hd]
    unfold Space.InRange
    rw [to_.block_val hlt]
    omega
  obtain ⟨hcounted, hclean', hwithin, hdirs, hcleared⟩ :=
    hcopy.counted.freePageTables_within hcopy.clean to_ hblock hcopy.fresh hok
  have hcopy' : Copying m held managed (m.RangeTable from_ size.val) (Space.InRange to_ (tables size.val)) m' := by
    refine ⟨hcounted, hcopy.within.trans hwithin, hclean', ?_⟩
    intro d hd t ht
    apply hcopy.fresh d hd t
    rcases hdirs d with hsame | hnone
    . unfold userTable at ht ⊢
      rwa [hsame] at ht
    . unfold userTable at ht
      rw [hnone, Entry.target_zero, ite_self] at ht
      cases ht
  have hdir : m'.dir = m.dir := by
    funext d
    by_cases hd : Space.InRange to_ (tables size.val) d
    . have hlt : d.val % 16 < 16 := Nat.mod_lt _ (by decide)
      have heq := eq_block hd
      rw [hcleared (d.val % 16) hd.right d (by rw [to_.dirAt_base hlt, ← heq]), heq,
        hzero _ hlt]
    . exact hcopy'.within.dir d hd
  exact ⟨hcopy', hdir, hcopy'.memMap_eq h hdir⟩

end counted
end Memory
end OS
