import Mathlib.Data.Fintype.Prod
import Mathlib.Data.Fintype.Sum
import ByDoing.Lib.Sharing
import ByDoing.OS.Memory

/-!
This module contains the page tables of the user ranges as a mapping of pages to frames, in which `mem_map` counts
the pages that share a frame. The keys are the entries of the page directory from the range of task 1 on, which
own their page tables, and the entries of these tables.
-/

namespace OS

namespace Entry

theorem present_eq (entry : Word) : present entry = entry.getLsbD 0 := by
  unfold present
  rw [show (1 : Word) = BitVec.twoPow 32 0 from rfl, BitVec.and_comm, BitVec.and_twoPow]
  cases entry.getLsbD 0 <;> rfl

theorem writable_eq (entry : Word) : writable entry = entry.getLsbD 1 := by
  unfold writable
  rw [show (2 : Word) = BitVec.twoPow 32 1 from rfl, BitVec.and_twoPow]
  cases entry.getLsbD 1 <;> rfl

theorem frame_eq (entry : Word) : frame entry = (entry >>> 12).toNat := by
  unfold frame
  congr 1
  apply BitVec.eq_of_getLsbD_eq
  intro i hi
  rw [BitVec.getLsbD_ushiftRight, BitVec.getLsbD_ushiftRight, BitVec.getLsbD_and]
  by_cases h : i < 20
  . have hmask : ∀ i < 20, (0xfffff000 : Word).getLsbD (12 + i) = true := by decide
    rw [hmask i h, Bool.true_and]
  . rw [BitVec.getLsbD_of_ge entry _ (by omega), Bool.and_false]

theorem frame_clear (entry : Word) : frame (entry &&& ~~~2) = frame entry := by
  rw [frame_eq, frame_eq]
  congr 1
  apply BitVec.eq_of_getLsbD_eq
  intro i hi
  rw [BitVec.getLsbD_ushiftRight, BitVec.getLsbD_ushiftRight, BitVec.getLsbD_and]
  by_cases h : i < 20
  . have hmask : ∀ i < 20, (~~~2 : Word).getLsbD (12 + i) = true := by decide
    rw [hmask i h, Bool.and_true]
  . rw [BitVec.getLsbD_of_ge entry _ (by omega), Bool.false_and]

theorem frame_set (entry : Word) : frame (entry ||| 2) = frame entry := by
  rw [frame_eq, frame_eq]
  congr 1
  apply BitVec.eq_of_getLsbD_eq
  intro i hi
  rw [BitVec.getLsbD_ushiftRight, BitVec.getLsbD_ushiftRight, BitVec.getLsbD_or]
  have hmask : (2 : Word).getLsbD (12 + i) = false := by
    rw [show (2 : Word) = BitVec.twoPow 32 1 from rfl, BitVec.getLsbD_twoPow]
    simp
    omega
  rw [hmask, Bool.or_false]

theorem frame_make {f : Nat} (h : f < 2 ^ 20) : frame (make f) = f := by
  rw [frame_eq]
  unfold make
  rw [BitVec.toNat_ushiftRight, BitVec.toNat_or, BitVec.toNat_shiftLeft, BitVec.toNat_ofNat,
    Nat.mod_eq_of_lt (by omega : f < 2 ^ 32), Nat.shiftLeft_eq, Nat.mod_eq_of_lt (by omega : f * 2 ^ 12 < 2 ^ 32),
    show (7 : Word).toNat = 7 from rfl, ← Nat.shiftLeft_eq,
    ← Nat.shiftLeft_add_eq_or_of_lt (by decide : 7 < 2 ^ 12), Nat.shiftLeft_eq, Nat.shiftRight_eq_div_pow]
  omega

theorem present_make (f : Nat) : present (make f) = true := by
  rw [present_eq, make, BitVec.getLsbD_or, show (7 : Word).getLsbD 0 = true from rfl, Bool.or_true]

theorem writable_make (f : Nat) : writable (make f) = true := by
  rw [writable_eq, make, BitVec.getLsbD_or, show (7 : Word).getLsbD 1 = true from rfl, Bool.or_true]

theorem present_clear (entry : Word) : present (entry &&& ~~~2) = present entry := by
  rw [present_eq, present_eq, BitVec.getLsbD_and, show (~~~2 : Word).getLsbD 0 = true from rfl, Bool.and_true]

theorem writable_clear (entry : Word) : writable (entry &&& ~~~2) = false := by
  rw [writable_eq, BitVec.getLsbD_and, show (~~~2 : Word).getLsbD 1 = false from rfl, Bool.and_false]

theorem present_set (entry : Word) : present (entry ||| 2) = present entry := by
  rw [present_eq, present_eq, BitVec.getLsbD_or, show (2 : Word).getLsbD 0 = false from rfl, Bool.or_false]

theorem writable_set (entry : Word) : writable (entry ||| 2) = true := by
  rw [writable_eq, BitVec.getLsbD_or, show (2 : Word).getLsbD 1 = true from rfl, Bool.or_true]

theorem readOnly_iff (entry : Word) : 3 &&& entry = 1 ↔ present entry = true ∧ writable entry = false := by
  rw [present_eq, writable_eq]
  constructor
  . intro h
    have h0 := congrArg (fun w => w.getLsbD 0) h
    have h1 := congrArg (fun w => w.getLsbD 1) h
    simp only [BitVec.getLsbD_and] at h0 h1
    exact ⟨by simpa using h0, by simpa using h1⟩
  . intro ⟨h0, h1⟩
    apply BitVec.eq_of_getLsbD_eq
    intro i hi
    rw [BitVec.getLsbD_and]
    match i with
    | 0 =>
      rw [h0]
      rfl
    | 1 =>
      rw [h1]
      rfl
    | i + 2 =>
      have h3 : ∀ i < 30, (3 : Word).getLsbD (i + 2) = false := by decide
      have hone : ∀ i < 30, (1 : Word).getLsbD (i + 2) = false := by decide
      rw [h3 i (by omega), hone i (by omega), Bool.false_and]

theorem mapNr_eq {entry : Word} (h : lowFrame ≤ frame entry) : mapNr entry = frame entry - lowFrame := by
  unfold lowFrame at h ⊢
  rw [frame_eq, BitVec.toNat_ushiftRight, Nat.shiftRight_eq_div_pow] at h ⊢
  unfold mapNr
  have hlt := entry.isLt
  rw [BitVec.toNat_ushiftRight, Nat.shiftRight_eq_div_pow, BitVec.toNat_sub_of_le]
  . rw [show LOW_MEM.toNat = 0x100000 from rfl]
    omega
  . rw [BitVec.le_def, show LOW_MEM.toNat = 0x100000 from rfl]
    omega

theorem low_lt {entry : Word} (h : lowFrame ≤ frame entry) (hp : present entry = true) : LOW_MEM < entry := by
  unfold lowFrame at h
  rw [frame_eq, BitVec.toNat_ushiftRight, Nat.shiftRight_eq_div_pow] at h
  rw [BitVec.lt_def, show LOW_MEM.toNat = 0x100000 from rfl]
  have hodd : entry.toNat % 2 = 1 := by
    rw [present_eq, ← BitVec.testBit_toNat, Nat.testBit_zero, decide_eq_true_eq] at hp
    exact hp
  omega

theorem present_zero : present 0 = false := by
  rw [present_eq]
  rfl

theorem writable_zero : writable 0 = false := by
  rw [writable_eq]
  rfl

def target (entry : Word) : Option Nat :=
  if present entry then some (frame entry) else none

theorem target_eq_some {entry : Word} {f : Nat} (h : target entry = some f)
    : present entry = true ∧ frame entry = f := by
  unfold target at h
  split at h
  . next hp => exact ⟨hp, Option.some.inj h⟩
  . simp at h

theorem target_of_present {entry : Word} (h : present entry = true) : target entry = some (frame entry) := by
  unfold target
  rw [if_pos h]

theorem target_zero : target 0 = none := by
  unfold target
  rw [present_zero]
  rfl

theorem target_make {f : Nat} (h : f < 2 ^ 20) : target (make f) = some f := by
  rw [target_of_present (present_make f), frame_make h]

theorem target_clear (entry : Word) : target (entry &&& ~~~2) = target entry := by
  unfold target
  rw [present_clear, frame_clear]

theorem target_set (entry : Word) : target (entry ||| 2) = target entry := by
  unfold target
  rw [present_set, frame_set]

end Entry

inductive PageKey where
  | table (d : PageIndex)
  | page (k : PageIndex × PageIndex)
  deriving DecidableEq

@[irreducible, instance]
def PageKey.fintype : Fintype PageKey :=
  Fintype.ofEquiv (PageIndex ⊕ PageIndex × PageIndex)
    {
      toFun := Sum.elim .table .page
      invFun := fun
        | .table d => .inl d
        | .page k => .inr k
      left_inv := by rintro (d | k) <;> rfl
      right_inv := by rintro (d | k) <;> rfl
    }

namespace Memory

def userTable (m : Memory) (d : PageIndex) : Option Nat :=
  if 16 ≤ d.val then Entry.target (m.dir d) else none

def lookup (m : Memory) (k : PageIndex × PageIndex) : Option Word :=
  (m.userTable k.fst).map fun table => m.ram table k.snd

def mapping (m : Memory) : Sharing.Mapping PageKey Nat :=
  {
    frame := fun
      | .table d => m.userTable d
      | .page k => (m.lookup k).bind Entry.target
    writable := fun
      | .table d => (m.userTable d).isSome
      | .page k => (m.lookup k).any Entry.writable
    count := fun f => if f < lowFrame then 0 else (m.memMap (f - lowFrame)).toNat
  }

def view (m : Memory) (k : PageIndex × PageIndex) : Option Contents :=
  m.mapping.view m.ram (.page k)

structure Sane (m : Memory) : Prop where
  sound : m.mapping.Sound
  range : ∀ k f, m.mapping.frame k = some f → lowFrame ≤ f ∧ f < m.highMemory
  free : ∀ nr, nr < PAGING_PAGES → m.memMap nr = 0 → lowFrame + nr < m.highMemory
  high : m.highMemory ≤ lowFrame + PAGING_PAGES
  aligned : ∀ d i d' i' f, m.mapping.frame (.page (d, i)) = some f → m.mapping.frame (.page (d', i')) = some f →
    d.val % 16 = d'.val % 16 ∧ i = i'

theorem lookup_of_table (m : Memory) {d : PageIndex} {t : Nat} (ht : m.userTable d = some t) (i : PageIndex)
    : m.lookup (d, i) = some (m.ram t i) := by
  unfold lookup
  rw [ht, Option.map_some]

theorem frame_page (m : Memory) {d : PageIndex} {t : Nat} (ht : m.userTable d = some t) (i : PageIndex)
    : m.mapping.frame (.page (d, i)) = Entry.target (m.ram t i) := by
  dsimp only [mapping]
  rw [m.lookup_of_table ht, Option.bind_some]

theorem writable_page (m : Memory) {d : PageIndex} {t : Nat} (ht : m.userTable d = some t) (i : PageIndex)
    : m.mapping.writable (.page (d, i)) = Entry.writable (m.ram t i) := by
  dsimp only [mapping]
  rw [m.lookup_of_table ht, Option.any_some]

theorem writable_table {m : Memory} {d : PageIndex} {t : Nat} (ht : m.userTable d = some t)
    : m.mapping.writable (.table d) = true := by
  dsimp only [mapping]
  rw [ht]
  rfl

namespace Sane

variable {m : Memory}

theorem table_ne_zero (h : m.Sane) {d : PageIndex} {t : Nat} (ht : m.userTable d = some t) : t ≠ 0 := by
  have hlow := (h.range (.table d) t ht).left
  unfold lowFrame at hlow
  omega

theorem table_inj (h : m.Sane) {d e : PageIndex} {t : Nat} (hd : m.userTable d = some t) (he : m.userTable e = some t)
    : e = d := by
  exact PageKey.table.inj (h.sound.exclusive (.table d) (.table e) t (writable_table hd) hd he)

theorem page_ne_table (h : m.Sane) {d e i : PageIndex} {t f : Nat} (ht : m.userTable d = some t)
    (hf : m.mapping.frame (.page (e, i)) = some f)
    : f ≠ t := by
  intro heq
  subst heq
  have hkey := h.sound.exclusive (.table d) (.page (e, i)) f (writable_table ht) ht hf
  simp at hkey

end Sane

theorem mapping_setMap (m : Memory) {f : Nat} (h : lowFrame ≤ f) (c : BitVec 8)
    : (m.setMap (f - lowFrame) c).mapping
        = { m.mapping with count := Function.update m.mapping.count f c.toNat } := by
  unfold mapping
  simp only [Sharing.Mapping.mk.injEq]
  refine ⟨rfl, rfl, ?_⟩
  funext g
  by_cases hg : g = f
  . subst hg
    simp [setMap, Nat.not_lt.mpr h]
  . rw [Function.update_of_ne hg]
    by_cases hlow : g < lowFrame
    . rw [if_pos hlow, if_pos hlow]
    . have hne : g - lowFrame ≠ f - lowFrame := by omega
      rw [if_neg hlow, if_neg hlow]
      simp [setMap, hne]

theorem userTable_setPage (m : Memory) {f : Nat} (h : f ≠ 0) (c : Contents)
    : (m.setPage f c).userTable = m.userTable := by
  have hdir : (m.setPage f c).ram 0 = m.ram 0 := Function.update_of_ne (Ne.symm h) _ _
  funext d
  unfold userTable dir
  rw [hdir]

theorem mapping_setPage {m : Memory} {f : Nat} (h : f ≠ 0) (hnot : ∀ d, m.userTable d ≠ some f) (c : Contents)
    : (m.setPage f c).mapping = m.mapping := by
  have hlookup : (m.setPage f c).lookup = m.lookup := by
    funext k
    unfold lookup
    rw [userTable_setPage m h]
    apply Option.map_congr
    intro t ht
    have hne : t ≠ f := by
      intro heq
      exact hnot k.fst (heq ▸ ht)
    exact congrFun (Function.update_of_ne hne _ _) k.snd
  unfold mapping
  rw [userTable_setPage m h, hlookup]
  rfl

theorem mapping_setEntry {m : Memory} {d : PageIndex} {t : Nat} (ht : m.userTable d = some t) (h : t ≠ 0)
    (hinj : ∀ e, m.userTable e = some t → e = d) (i : PageIndex) (entry : Word)
    : (m.setEntry t i entry).mapping
        = { m.mapping with
            frame := Function.update m.mapping.frame (.page (d, i)) (Entry.target entry)
            writable := Function.update m.mapping.writable (.page (d, i)) (Entry.writable entry) } := by
  have htable : (m.setEntry t i entry).userTable = m.userTable := userTable_setPage m h _
  have hlookup : (m.setEntry t i entry).lookup = Function.update m.lookup (d, i) (some entry) := by
    funext ⟨e, j⟩
    unfold lookup
    rw [htable]
    by_cases hk : e = d
    . subst hk
      rw [ht, Option.map_some, show (m.setEntry t i entry).ram t = _ from Function.update_self _ _ _]
      by_cases hj : j = i
      . subst hj
        rw [Function.update_self, Function.update_self]
      . rw [Function.update_of_ne hj, Function.update_of_ne (by simp [hj])]
        dsimp only
        rw [ht, Option.map_some]
    . rw [Function.update_of_ne (by simp [hk])]
      apply Option.map_congr
      intro t' ht'
      have hne : t' ≠ t := by
        intro heq
        exact hk (hinj e (heq ▸ ht'))
      exact congrFun (Function.update_of_ne hne _ _) j
  unfold mapping
  rw [htable, hlookup]
  simp only [Sharing.Mapping.mk.injEq]
  refine ⟨?_, ?_, rfl⟩
  all_goals
    funext k
    by_cases hk : k = .page (d, i)
    . subst hk
      simp
    . rw [Function.update_of_ne hk]
      cases k with
      | table e => rfl
      | page k =>
        dsimp only
        rw [Function.update_of_ne]
        intro heq
        exact hk (congrArg PageKey.page heq)

def Blank (m : Memory) (table : Option Nat) : Prop :=
  ∀ t, table = some t → t ≠ 0 ∧ ∀ i, m.ram t i = 0

theorem Blank.lookup {m : Memory} {table : Option Nat} (h : m.Blank table) (i : PageIndex)
    : (table.map fun t => m.ram t i).bind Entry.target = none
        ∧ (table.map fun t => m.ram t i).any Entry.writable = false := by
  cases table with
  | none => exact ⟨rfl, rfl⟩
  | some t =>
    rw [Option.map_some, (h t rfl).right i]
    exact ⟨Entry.target_zero, Entry.writable_zero⟩

theorem mapping_setDir {m : Memory} {d : PageIndex} (hd : 16 ≤ d.val) (entry : Word)
    (hzero : ∀ e t, m.userTable e = some t → t ≠ 0) (hold : m.Blank (m.userTable d))
    (hnew : m.Blank (Entry.target entry))
    : (m.setEntry 0 d entry).mapping
        = { m.mapping with
            frame := Function.update m.mapping.frame (.table d) (Entry.target entry)
            writable := Function.update m.mapping.writable (.table d) (Entry.target entry).isSome } := by
  have htable : (m.setEntry 0 d entry).userTable = Function.update m.userTable d (Entry.target entry) := by
    have hdir : (m.setEntry 0 d entry).ram 0 = Function.update (m.ram 0) d entry := by simp [setEntry]
    funext e
    unfold userTable dir
    rw [hdir]
    by_cases he : e = d
    . subst he
      rw [if_pos hd, Function.update_self, Function.update_self]
    . rw [Function.update_of_ne he, Function.update_of_ne he]
  have hram : ∀ t, t ≠ 0 → (m.setEntry 0 d entry).ram t = m.ram t := by
    intro t ht
    exact Function.update_of_ne ht _ _
  have hself : ∀ i, (m.setEntry 0 d entry).lookup (d, i) = (Entry.target entry).map fun t => m.ram t i := by
    intro i
    unfold lookup
    rw [htable]
    dsimp only
    rw [Function.update_self]
    apply Option.map_congr
    intro t ht
    rw [hram t (hnew t ht).left]
  have hother : ∀ e i, e ≠ d → (m.setEntry 0 d entry).lookup (e, i) = m.lookup (e, i) := by
    intro e i he
    unfold lookup
    rw [htable]
    dsimp only
    rw [Function.update_of_ne he]
    apply Option.map_congr
    intro t ht
    rw [hram t (hzero e t ht)]
  unfold mapping
  simp only [Sharing.Mapping.mk.injEq]
  refine ⟨?_, ?_, rfl⟩
  . funext k
    match k with
    | .table e =>
      by_cases he : e = d
      . subst he
        simp [htable]
      . simp [htable, he]
    | .page (e, j) =>
      rw [Function.update_of_ne (by simp)]
      dsimp only
      by_cases he : e = d
      . subst he
        rw [hself, (hnew.lookup j).left]
        exact (hold.lookup j).left.symm
      . rw [hother e j he]
  . funext k
    match k with
    | .table e =>
      by_cases he : e = d
      . subst he
        simp [htable]
      . simp [htable, he]
    | .page (e, j) =>
      rw [Function.update_of_ne (by simp)]
      dsimp only
      by_cases he : e = d
      . subst he
        rw [hself, (hnew.lookup j).right]
        exact (hold.lookup j).right.symm
      . rw [hother e j he]

end Memory
end OS
