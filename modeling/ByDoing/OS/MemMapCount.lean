import ByDoing.Lib.References
import ByDoing.OS.MemMap
import ByDoing.OS.PageOps

namespace OS

def PageKey.IsTable : PageKey → Prop
  | .table _ => True
  | .page _ => False

namespace Memory

def counted (m : Memory) : Sharing.Mapping PageKey Nat :=
  { m.mapping with frame := fun k => (m.mapping.frame k).filter fun f => lowFrame ≤ f }

structure Counted (m : Memory) (held : List Nat) (managed : Nat → Prop) : Prop where
  exact : m.counted.Exact held PageKey.IsTable managed
  range : ∀ f, managed f → lowFrame ≤ f ∧ f < m.highMemory
  high : m.highMemory ≤ lowFrame + PAGING_PAGES
  free : ∀ nr, nr < PAGING_PAGES → m.memMap nr = 0 → managed (lowFrame + nr)
  tables : ∀ d t, m.userTable d = some t → lowFrame ≤ t
  aligned : Aligned m.counted.frame
  pgDir : m.dir 0 = Entry.make 1
  pg0 : ∀ i : PageIndex, i.val < 0xA0 → m.ram 1 i = Entry.make i.val

theorem counted_frame {m : Memory} {k : PageKey} {f : Nat}
    : m.counted.frame k = some f ↔ m.mapping.frame k = some f ∧ lowFrame ≤ f := by
  unfold counted
  simp [Option.filter_eq_some_iff]

theorem counted_none {m : Memory} {k : PageKey} (h : ∀ f, m.mapping.frame k = some f → f < lowFrame)
    : m.counted.frame k = none := by
  rw [Option.eq_none_iff_forall_ne_some]
  intro f hf
  obtain ⟨hframe, hlow⟩ := counted_frame.mp hf
  have hlt := h f hframe
  omega

theorem Aligned.shrink {frame frame' : PageKey → Option Nat} (h : Aligned frame)
    (hsub : ∀ k f, frame' k = some f → frame k = some f)
    : Aligned frame' := by
  intro d i d' i' f hd hd'
  exact h d i d' i' f (hsub _ f hd) (hsub _ f hd')

theorem Aligned.grow {frame frame' : PageKey → Option Nat} (h : Aligned frame) {k : PageKey} {f : Nat}
    (hcases : ∀ j g, frame' j = some g → j = k ∧ g = f ∨ frame j = some g)
    (hplace : ∀ d i, k = .page (d, i) → ∀ e j, frame (.page (e, j)) = some f → e.val % 16 = d.val % 16 ∧ j = i)
    : Aligned frame' := by
  intro e j e' j' g he he'
  rcases hcases _ g he with ⟨hk, rfl⟩ | he
  . rcases hcases _ g he' with ⟨hk', _⟩ | he'
    . have hsame := hk.trans hk'.symm
      rw [PageKey.page.injEq, Prod.mk.injEq] at hsame
      rw [hsame.left, hsame.right]
      exact ⟨rfl, rfl⟩
    . obtain ⟨hmod, heq⟩ := hplace e j hk.symm e' j' he'
      exact ⟨hmod.symm, heq.symm⟩
  . rcases hcases _ g he' with ⟨hk', rfl⟩ | he'
    . exact hplace e' j' hk'.symm e j he
    . exact h e j e' j' g he he'

theorem counted_count (m : Memory) : m.counted.count = m.mapping.count :=
  rfl

theorem counted_update {m m' : Memory} {k : PageKey} {v : Option Nat}
    (h : m'.mapping.frame = Function.update m.mapping.frame k v)
    : m'.counted.frame = Function.update m.counted.frame k (v.filter fun f => lowFrame ≤ f) := by
  funext j
  show (m'.mapping.frame j).filter _ = _
  rw [h]
  by_cases hj : j = k
  . rw [hj, Function.update_self, Function.update_self]
  . rw [Function.update_of_ne hj, Function.update_of_ne hj]
    rfl

section counted

variable {m : Memory} {held : List Nat} {managed : Nat → Prop}

namespace Counted

theorem table_frame (h : m.Counted held managed) {d : PageIndex} {t : Nat} (ht : m.userTable d = some t)
    : m.counted.frame (.table d) = some t :=
  counted_frame.mpr ⟨ht, h.tables d t ht⟩

theorem table_ne_zero (h : m.Counted held managed) {d : PageIndex} {t : Nat} (ht : m.userTable d = some t)
    : t ≠ 0 :=
  ne_zero_of_low (h.tables d t ht)

theorem table_ne_one (h : m.Counted held managed) {d : PageIndex} {t : Nat} (ht : m.userTable d = some t)
    : t ≠ 1 := by
  have hlow := h.tables d t ht
  unfold lowFrame at hlow
  omega

theorem table_inj (h : m.Counted held managed) {d e : PageIndex} {t : Nat} (hd : m.userTable d = some t)
    (he : m.userTable e = some t)
    : e = d :=
  PageKey.table.inj (h.exact.exclusive (.table d) (.table e) t trivial (h.table_frame hd) (h.table_frame he))

theorem page_ne_table (h : m.Counted held managed) {d e i : PageIndex} {t f : Nat} (ht : m.userTable d = some t)
    (hf : m.counted.frame (.page (e, i)) = some f)
    : f ≠ t := by
  intro heq
  subst heq
  have hkey := h.exact.exclusive (.table d) (.page (e, i)) f trivial (h.table_frame ht) hf
  simp at hkey

theorem keep {m' : Memory} {held' : List Nat} (h : m.Counted held managed)
    (hexact : m'.counted.Exact held' PageKey.IsTable managed) (haligned : Aligned m'.counted.frame)
    (hhigh : m'.highMemory = m.highMemory)
    (hfree : ∀ nr, nr < PAGING_PAGES → m'.memMap nr = 0 → managed (lowFrame + nr))
    (htables : ∀ d t, m'.userTable d = some t → lowFrame ≤ t) (hdir : m'.ram 0 0 = m.ram 0 0)
    (hpg0 : m'.ram 1 = m.ram 1)
    : m'.Counted held' managed := by
  constructor
  . exact hexact
  . rw [hhigh]
    exact h.range
  . rw [hhigh]
    exact h.high
  . exact hfree
  . exact htables
  . exact haligned
  . exact hdir.trans h.pgDir
  . rw [hpg0]
    exact h.pg0

theorem free_setMap (h : m.Counted held managed) {f : Nat} (hf : managed f) (c : BitVec 8) {nr : Nat}
    (hnr : nr < PAGING_PAGES) (hzero : (m.setMap (f - lowFrame) c).memMap nr = 0)
    : managed (lowFrame + nr) := by
  have hlow := (h.range f hf).left
  by_cases heq : nr = f - lowFrame
  . rw [heq, Nat.add_sub_cancel' hlow]
    exact hf
  . apply h.free nr hnr
    rw [← hzero]
    exact (Function.update_of_ne heq _ _).symm

theorem userTable_of_ram {m₁ : Memory} (hram : m₁.ram = m.ram) : m₁.userTable = m.userTable := by
  funext d
  unfold userTable dir
  rw [hram]

theorem mapping_frame_of_ram {m₁ : Memory} (hram : m₁.ram = m.ram) : m₁.mapping.frame = m.mapping.frame := by
  funext k
  cases k with
  | table d => exact congrFun (userTable_of_ram hram) d
  | page k =>
    show (m₁.lookup k).bind Entry.target = (m.lookup k).bind Entry.target
    unfold lookup
    rw [userTable_of_ram hram, hram]

theorem frame_setEntry {n : Memory} (h : m.Counted held managed) {d : PageIndex} {t : Nat}
    (ht : m.userTable d = some t) (hram : n.ram = m.ram) (i : PageIndex) (entry : Word)
    : (n.setEntry t i entry).counted.frame
        = Function.update m.counted.frame (.page (d, i)) ((Entry.target entry).filter fun f => lowFrame ≤ f) := by
  have htable := userTable_of_ram hram
  apply counted_update
  rw [mapping_setEntry (m := n) (htable ▸ ht) (h.table_ne_zero ht) (fun e he => h.table_inj ht (htable ▸ he)) i entry]
  dsimp only
  rw [mapping_frame_of_ram hram]

theorem setEntry {n : Memory} {held' : List Nat} (h : m.Counted held managed) {d : PageIndex} {t : Nat}
    (ht : m.userTable d = some t) (hram : n.ram = m.ram) (hhigh : n.highMemory = m.highMemory)
    (hfree : ∀ nr, nr < PAGING_PAGES → n.memMap nr = 0 → managed (lowFrame + nr)) {i : PageIndex} {entry : Word}
    (hexact : (n.setEntry t i entry).counted.Exact held' PageKey.IsTable managed)
    (haligned : Aligned (n.setEntry t i entry).counted.frame)
    : (n.setEntry t i entry).Counted held' managed ∧ (n.setEntry t i entry).userTable = m.userTable
        ∧ (n.setEntry t i entry).ram t = Function.update (m.ram t) i entry := by
  have hzero := h.table_ne_zero ht
  have htable : (n.setEntry t i entry).userTable = m.userTable :=
    (userTable_setPage n hzero _).trans (userTable_of_ram hram)
  refine ⟨?_, htable, by rw [ram_setEntry, hram]⟩
  apply h.keep hexact haligned hhigh hfree
  . rw [htable]
    exact h.tables
  . rw [ram_setEntry_of_ne n (Ne.symm hzero), hram]
  . rw [ram_setEntry_of_ne n (Ne.symm (h.table_ne_one ht)), hram]

theorem setEntry_same (h : m.Counted held managed) {d : PageIndex} {t : Nat} (ht : m.userTable d = some t)
    (i : PageIndex) (entry : Word)
    (hsame : (Entry.target entry).filter (fun f => lowFrame ≤ f) = m.counted.frame (.page (d, i)))
    : (m.setEntry t i entry).Counted held managed ∧ (m.setEntry t i entry).userTable = m.userTable
        ∧ (m.setEntry t i entry).ram t = Function.update (m.ram t) i entry := by
  have hframe : (m.setEntry t i entry).counted.frame = m.counted.frame := by
    rw [h.frame_setEntry ht rfl, hsame, Function.update_eq_self]
  apply h.setEntry ht rfl rfl h.free
  . exact h.exact.congr hframe rfl
  . rw [hframe]
    exact h.aligned

theorem freePage (h : m.Counted held managed) {f : Nat} (hf : managed f) (hpos : 0 < m.counted.count f)
    : m.freePage f = .ok (m.setMap (f - lowFrame) (m.memMap (f - lowFrame) - 1))
        ∧ (m.setMap (f - lowFrame) (m.memMap (f - lowFrame) - 1)).counted.count
          = Function.update m.counted.count f (m.counted.count f - 1) := by
  obtain ⟨hlow, hhigh⟩ := h.range f hf
  rw [counted_count, count_eq hlow] at hpos
  constructor
  . unfold Memory.freePage
    rw [if_neg (Nat.not_lt.mpr hlow), if_neg (Nat.not_le.mpr hhigh), if_pos]
    intro hzero
    rw [hzero] at hpos
    simp at hpos
  . rw [counted_count, counted_count, m.mapping_setMap hlow, toNat_sub_one hpos, count_eq hlow]

theorem freeEntry (h : m.Counted held managed) {d : PageIndex} {t : Nat} (ht : m.userTable d = some t)
    (i : PageIndex)
    : ∃ m', Memory.freeEntry t m i = .ok m' ∧ m'.Counted held managed ∧ m'.userTable = m.userTable
        ∧ m'.ram t = Function.update (m.ram t) i 0 := by
  have hfilter : (Entry.target 0).filter (fun f => lowFrame ≤ f) = none := by
    rw [Entry.target_zero]
    rfl
  have htarget := m.frame_page ht i
  unfold Memory.freeEntry
  by_cases hp : Entry.present (m.ram t i) = true
  . rw [Entry.target_of_present hp] at htarget
    rw [if_pos hp]
    generalize Entry.frame (m.ram t i) = f at htarget
    by_cases hlow : lowFrame ≤ f
    . have hframe : m.counted.frame (.page (d, i)) = some f := counted_frame.mpr ⟨htarget, hlow⟩
      have hmanaged := h.exact.managed_of_frame _ f hframe
      obtain ⟨hok, hcount⟩ := h.freePage hmanaged (h.exact.count_pos hframe)
      rw [hok]
      refine ⟨_, rfl, ?_⟩
      have hset := h.frame_setEntry ht (n := m.setMap (f - lowFrame) (m.memMap (f - lowFrame) - 1)) rfl i 0
      rw [hfilter] at hset
      apply h.setEntry ht
      . rfl
      . rfl
      . intro nr hnr
        exact h.free_setMap hmanaged _ hnr
      . exact h.exact.unmap hframe hset hcount
      . rw [hset]
        exact h.aligned.shrink fun k g hk => (Sharing.Mapping.frame_clear hk).right
    . -- A page below `LOW_MEM` is not counted, and `free_page` does nothing.
      have hok : m.freePage f = .ok m := if_pos (Nat.not_le.mp hlow)
      rw [hok]
      refine ⟨_, rfl, h.setEntry_same ht _ _ ?_⟩
      rw [hfilter]
      symm
      apply counted_none
      intro g hg
      rw [htarget, Option.some.injEq] at hg
      omega
  . rw [if_neg hp]
    refine ⟨_, rfl, h.setEntry_same ht _ _ ?_⟩
    rw [hfilter]
    symm
    apply counted_none
    intro g hg
    rw [htarget, Entry.target, if_neg hp] at hg
    cases hg

theorem freeEntries (h : m.Counted held managed) {d : PageIndex} {t : Nat} (ht : m.userTable d = some t)
    (l : List PageIndex)
    : ∃ m', l.foldlM (Memory.freeEntry t) m = .ok m' ∧ m'.Counted held managed ∧ m'.userTable = m.userTable
        ∧ ∀ i, m'.ram t i = if i ∈ l then 0 else m.ram t i := by
  induction l generalizing m with
  | nil => exact ⟨m, rfl, h, rfl, by simp⟩
  | cons j l ih =>
    obtain ⟨m₁, hok, hcounted, htable, hram⟩ := h.freeEntry ht j
    obtain ⟨m', hok', hcounted', htable', hram'⟩ := ih hcounted (htable ▸ ht)
    refine ⟨m', ?_, hcounted', htable'.trans htable, ?_⟩
    . rw [List.foldlM_cons, hok]
      exact hok'
    . intro i
      rw [hram', hram]
      by_cases hi : i = j <;> by_cases hl : i ∈ l <;> simp [hi, hl]

structure Handed (m : Memory) (held : List Nat) (managed : Nat → Prop) (f : Nat) (m' : Memory) : Prop where
  managed_page : managed f
  count_eq : m.counted.count f = 0
  counted : m'.Counted (f :: held) managed
  frame_eq : m'.mapping.frame = m.mapping.frame
  memMap_eq : m'.memMap = Function.update m.memMap (f - lowFrame) 1
  ram_eq : m'.ram = Function.update m.ram f fun _ => 0

theorem getFreePage {m' : Memory} {f : Nat} (h : m.Counted held managed) (hfree : m.getFreePage = some (f, m'))
    : Handed m held managed f m' := by
  obtain ⟨nr, hnr, hzero, rfl, rfl⟩ := getFreePage_eq_some hfree
  have hlow : lowFrame ≤ lowFrame + nr := Nat.le_add_right _ _
  have hindex : lowFrame + nr - lowFrame = nr := Nat.add_sub_cancel_left _ _
  have hmanaged := h.free nr hnr hzero
  have hcount : m.counted.count (lowFrame + nr) = 0 := by
    rw [counted_count, count_eq hlow, hindex, hzero]
    rfl
  obtain ⟨hunused, _⟩ := h.exact.unreferenced hmanaged hcount
  have hnot : ∀ d, m.userTable d ≠ some (lowFrame + nr) := by
    intro d hd
    exact hunused (.table d) (h.table_frame hd)
  have hmap : (m.setMap nr 1).mapping
      = { m.mapping with count := Function.update m.mapping.count (lowFrame + nr) 1 } := by
    have hset := m.mapping_setMap hlow 1
    rw [hindex] at hset
    exact hset
  have hmapping : ((m.setMap nr 1).setPage (lowFrame + nr) fun _ => 0).mapping
      = { m.mapping with count := Function.update m.mapping.count (lowFrame + nr) 1 } := by
    rw [mapping_setPage, hmap]
    . exact ne_zero_of_low hlow
    . exact hnot
  have hframe : ((m.setMap nr 1).setPage (lowFrame + nr) fun _ => 0).mapping.frame = m.mapping.frame := by
    rw [hmapping]
  have hcframe : ((m.setMap nr 1).setPage (lowFrame + nr) fun _ => 0).counted.frame = m.counted.frame := by
    funext k
    show Option.filter _ (Sharing.Mapping.frame _ k) = _
    rw [hframe]
    rfl
  refine ⟨hmanaged, hcount, ?_, hframe, by rw [hindex]; rfl, rfl⟩
  apply h.keep
  . apply h.exact.get hmanaged hcount hcframe
    rw [counted_count, hmapping]
    rfl
  . rw [hcframe]
    exact h.aligned
  . rfl
  . intro nr' hnr' hzero'
    by_cases heq : nr' = nr
    . rw [heq]
      exact hmanaged
    . apply h.free nr' hnr'
      rw [← hzero']
      exact (Function.update_of_ne heq _ _).symm
  . intro d t ht
    apply h.tables d t
    rw [← ht]
    exact (congrFun hframe (.table d)).symm
  . exact congrFun (Function.update_of_ne (Ne.symm (ne_zero_of_low hlow)) _ _) 0
  . apply Function.update_of_ne
    unfold lowFrame
    omega

theorem counted_congr {m' : Memory} (h : m'.mapping.frame = m.mapping.frame) : m'.counted.frame = m.counted.frame := by
  funext k
  show Option.filter _ (m'.mapping.frame k) = _
  rw [h]
  rfl

theorem newTable {m₁ : Memory} (h : m.Counted held managed) {d : PageIndex} (hd : 16 ≤ d.val)
    (hnone : m.userTable d = none) {t : Nat} (hnew : Handed m held managed t m₁)
    : (m₁.setEntry 0 d (Entry.make t)).Counted held managed
        ∧ (m₁.setEntry 0 d (Entry.make t)).userTable = Function.update m.userTable d (some t)
        ∧ (∀ i, (m₁.setEntry 0 d (Entry.make t)).ram t i = 0)
        ∧ ∀ f, f ≠ 0 → f ≠ t → (m₁.setEntry 0 d (Entry.make t)).ram f = m.ram f := by
  obtain ⟨hlow, hhigh⟩ := h.range t hnew.managed_page
  have hzero := ne_zero_of_low hlow
  have hbound : t < 2 ^ 20 := by
    have hlt := Nat.lt_of_lt_of_le hhigh h.high
    unfold lowFrame PAGING_PAGES at hlt
    omega
  have htable : m₁.userTable = m.userTable := by
    funext e
    exact congrFun hnew.frame_eq (.table e)
  have hram : m₁.ram t = fun _ => 0 := by
    rw [hnew.ram_eq, Function.update_self]
  have hmapping : (m₁.setEntry 0 d (Entry.make t)).mapping
      = { m₁.mapping with
          frame := Function.update m₁.mapping.frame (.table d) (some t)
          writable := Function.update m₁.mapping.writable (.table d) true } := by
    rw [mapping_setDir hd, Entry.target_make hbound]
    . rfl
    . intro e t' ht'
      exact hnew.counted.table_ne_zero ht'
    . rw [htable, hnone]
      simp [Blank]
    . rw [Entry.target_make hbound]
      intro t' ht'
      cases ht'
      exact ⟨hzero, fun i => congrFun hram i⟩
  have hframe : (m₁.setEntry 0 d (Entry.make t)).counted.frame
      = Function.update m₁.counted.frame (.table d) (some t) := by
    rw [counted_update (m := m₁) (v := some t) (by rw [hmapping])]
    simp [Option.filter, hlow]
  have htables : (m₁.setEntry 0 d (Entry.make t)).userTable = Function.update m.userTable d (some t) := by
    rw [userTable_setDir m₁ hd, Entry.target_make hbound, htable]
  have hfirst : m₁.counted.frame (.table d) = none := by
    apply counted_none
    intro f hf
    rw [hnew.frame_eq] at hf
    exact absurd (hnone.symm.trans hf) (by simp)
  refine ⟨?_, htables, ?_, ?_⟩
  . apply hnew.counted.keep
    . have hexact := hnew.counted.exact.install List.mem_cons_self hfirst hframe (by
        rw [counted_count, hmapping]
        rfl)
      rwa [List.erase_cons_head] at hexact
    . apply hnew.counted.aligned.grow (k := .table d) (f := t)
      . intro j g hj
        rw [hframe] at hj
        exact Sharing.Mapping.frame_attach hj
      . intro e i hk
        cases hk
    . rfl
    . exact hnew.counted.free
    . intro e t' ht'
      rw [htables] at ht'
      by_cases he : e = d
      . rw [he, Function.update_self, Option.some.injEq] at ht'
        exact ht' ▸ hlow
      . rw [Function.update_of_ne he] at ht'
        exact h.tables e t' ht'
    . have hd0 : (0 : PageIndex) ≠ d := by
        intro heq
        rw [← heq] at hd
        simp at hd
      rw [ram_setEntry, Function.update_of_ne hd0]
    . exact ram_setEntry_of_ne m₁ Nat.one_ne_zero _ _
  . intro i
    rw [ram_setEntry_of_ne m₁ hzero, hram]
  . intro f hf hft
    rw [ram_setEntry_of_ne m₁ hf, hnew.ram_eq, Function.update_of_ne hft]

theorem freeTable (h : m.Counted held managed) {d : PageIndex} (hd : 16 ≤ d.val)
    : ∃ m', m.freeTable d = .ok m' ∧ m'.Counted held managed := by
  unfold Memory.freeTable
  by_cases hp : Entry.present (m.dir d) = true
  . have ht : m.userTable d = some (m.table d) := userTable_eq_some hd hp
    obtain ⟨m₁, hok, hcounted, htable, hram⟩ := h.freeEntries ht (List.finRange 1024)
    have ht₁ : m₁.userTable d = some (m.table d) := htable ▸ ht
    have hdir : m₁.table d = m.table d := by
      unfold userTable at ht₁
      rw [if_pos hd] at ht₁
      exact (Entry.target_eq_some ht₁).right
    generalize m.table d = t at ht hok hram ht₁ hdir
    have hframe := hcounted.table_frame ht₁
    have hmanaged := hcounted.exact.managed_of_frame _ t hframe
    obtain ⟨hfree, hcount⟩ := hcounted.freePage hmanaged (hcounted.exact.count_pos hframe)
    have hmapping : ((m₁.setMap (t - lowFrame) (m₁.memMap (t - lowFrame) - 1)).setEntry 0 d 0).mapping.frame
        = Function.update m₁.mapping.frame (.table d) none := by
      rw [mapping_setDir hd, Entry.target_zero]
      . rfl
      . intro e t' ht'
        exact hcounted.table_ne_zero ht'
      . intro t' ht'
        have heq : t' = t := Option.some.inj (ht'.symm.trans ht₁)
        subst heq
        refine ⟨hcounted.table_ne_zero ht₁, ?_⟩
        intro i
        exact (hram i).trans (if_pos (List.mem_finRange i))
      . rw [Entry.target_zero]
        simp [Blank]
    have hset := counted_update hmapping
    rw [show (none : Option Nat).filter (fun f => lowFrame ≤ f) = none from rfl] at hset
    refine ⟨(m₁.setMap (t - lowFrame) (m₁.memMap (t - lowFrame) - 1)).setEntry 0 d 0, ?_, ?_⟩
    . simp only [hp, Bool.not_true, Bool.false_eq_true, if_false]
      rw [hok]
      show (m₁.freePage (m₁.table d) >>= fun m => pure (m.setEntry 0 d 0)) = _
      rw [hdir, hfree]
      rfl
    . apply hcounted.keep
      . exact hcounted.exact.unmap hframe hset hcount
      . rw [hset]
        exact hcounted.aligned.shrink fun k g hk => (Sharing.Mapping.frame_clear hk).right
      . rfl
      . intro nr hnr
        exact hcounted.free_setMap hmanaged _ hnr
      . intro e t' ht'
        rw [userTable_setDir _ hd, Entry.target_zero] at ht'
        by_cases he : e = d
        . rw [he, Function.update_self] at ht'
          cases ht'
        . rw [Function.update_of_ne he] at ht'
          exact hcounted.tables e t' ht'
      . have hd0 : (0 : PageIndex) ≠ d := by
          intro heq
          rw [← heq] at hd
          simp at hd
        rw [ram_setEntry, Function.update_of_ne hd0]
        rfl
      . exact ram_setEntry_of_ne _ Nat.one_ne_zero _ _
  . refine ⟨m, ?_, h⟩
    simp only [hp, Bool.not_false, if_true]
    rfl

theorem count_le (h : m.Counted held managed) {k : PageIndex × PageIndex} {f : Nat}
    (hk : m.counted.frame (.page k) = some f)
    : m.counted.count f ≤ 64 := by
  rw [h.exact.count_eq f (h.exact.managed_of_frame _ f hk), List.count_eq_zero.mpr (h.exact.notMem_held hk)]
  apply card_sharers_le h.aligned
  intro d hd
  have hkey := h.exact.exclusive (.table d) (.page k) f trivial hd hk
  cases hkey

theorem setEntry_comm (m : Memory) {t t' : Nat} (h : t ≠ t') (i j : PageIndex) (w w' : Word)
    : (m.setEntry t' i w).setEntry t j w' = (m.setEntry t j w').setEntry t' i w := by
  unfold Memory.setEntry
  dsimp only
  rw [Function.update_of_ne h, Function.update_of_ne (Ne.symm h), Function.update_comm h]

theorem shareEntry {m' : Memory} (h : m.Counted held managed) {d d' : PageIndex} {t t' : Nat}
    (ht : m.userTable d = some t) (ht' : m.userTable d' = some t') (hplace : d.val % 16 = d'.val % 16) {i : PageIndex}
    {w : Word} {f : Nat} (hframe : m.counted.frame (.page (d, i)) = some f)
    (hnone : m.counted.frame (.page (d', i)) = none) (htarget : Entry.target w = some f)
    (hm' : m' = ((m.setEntry t i w).setMap (f - lowFrame) (m.memMap (f - lowFrame) + 1)).setEntry t' i w)
    : m'.Counted held managed ∧ m'.userTable = m.userTable
        ∧ m'.ram t' = Function.update ((m.setEntry t i w).ram t') i w := by
  have hmanaged := h.exact.managed_of_frame _ f hframe
  have hlow := (h.range f hmanaged).left
  have hfilter : (Entry.target w).filter (fun f => lowFrame ≤ f) = some f := by
    rw [htarget]
    simp [Option.filter, hlow]
  obtain ⟨h₁, htable₁, _⟩ := h.setEntry_same ht i w (hfilter.trans hframe.symm)
  have hframe₁ : (m.setEntry t i w).counted.frame = m.counted.frame := by
    rw [h.frame_setEntry ht rfl, hfilter, ← hframe, Function.update_eq_self]
  have hset : m'.counted.frame = Function.update (m.setEntry t i w).counted.frame (.page (d', i)) (some f) := by
    have hentry := h₁.frame_setEntry (htable₁ ▸ ht')
      (n := (m.setEntry t i w).setMap (f - lowFrame) (m.memMap (f - lowFrame) + 1)) rfl i w
    rw [hfilter] at hentry
    rw [hm']
    exact hentry
  have hcount : m'.counted.count
      = Function.update (m.setEntry t i w).counted.count f ((m.setEntry t i w).counted.count f + 1) := by
    have hle := h.count_le hframe
    rw [counted_count, count_eq hlow] at hle
    have hmap := (m.setEntry t i w).mapping_setMap hlow (m.memMap (f - lowFrame) + 1)
    rw [toNat_add_one hle] at hmap
    rw [hm', counted_count, counted_count, show (m.setEntry t i w).mapping.count f = _ from count_eq hlow]
    exact congrArg Sharing.Mapping.count hmap
  have hexact : m'.counted.Exact held PageKey.IsTable managed :=
    h₁.exact.share (hframe₁ ▸ hframe) (hframe₁ ▸ hnone) id id hset hcount
  have haligned : Aligned m'.counted.frame := by
    apply h₁.aligned.grow (k := .page (d', i)) (f := f)
    . intro j g hj
      rw [hset] at hj
      exact Sharing.Mapping.frame_attach hj
    . intro e j hk e' j' he'
      rw [PageKey.page.injEq, Prod.mk.injEq] at hk
      rw [hframe₁] at he'
      rw [← hk.left, ← hk.right, ← hplace]
      exact h.aligned e' j' d i f he' hframe
  subst hm'
  rw [← htable₁]
  apply h₁.setEntry (htable₁ ▸ ht')
  . rfl
  . rfl
  . intro nr hnr
    exact h₁.free_setMap hmanaged _ hnr
  . exact hexact
  . exact haligned

theorem frame_of_blank {d : PageIndex} {t : Nat} (ht : m.userTable d = some t) {i : PageIndex}
    (hblank : m.ram t i = 0)
    : m.counted.frame (.page (d, i)) = none := by
  apply counted_none
  intro f hf
  rw [m.frame_page ht, hblank, Entry.target_zero] at hf
  cases hf

theorem not_low_lt {entry : Word} (h : Entry.frame entry < lowFrame) : ¬LOW_MEM < entry := by
  unfold lowFrame at h
  rw [Entry.frame_eq, BitVec.toNat_ushiftRight, Nat.shiftRight_eq_div_pow] at h
  rw [BitVec.lt_def, show LOW_MEM.toNat = 0x100000 from rfl]
  omega

theorem copyEntry_low (h : m.Counted held managed) {d' : PageIndex} {t t' : Nat} (ht' : m.userTable d' = some t')
    {i : PageIndex} (hblank : m.ram t' i = 0)
    (hlow : Entry.present (m.ram t i) = true → Entry.frame (m.ram t i) < lowFrame)
    : (Memory.copyEntry t t' m i).Counted held managed ∧ (Memory.copyEntry t t' m i).userTable = m.userTable
        ∧ ∀ j, j ≠ i → (Memory.copyEntry t t' m i).ram t' j = m.ram t' j := by
  unfold Memory.copyEntry
  split
  . next hp =>
    have hframe := Entry.frame_clear (m.ram t i)
    have hlt : Entry.frame (m.ram t i &&& ~~~2) < lowFrame := hframe ▸ hlow hp
    dsimp only
    rw [if_neg (not_low_lt hlt)]
    obtain ⟨hcounted, htable, hram⟩ := h.setEntry_same ht' i (m.ram t i &&& ~~~2) (by
      rw [frame_of_blank ht' hblank, Entry.target_clear, Entry.target_of_present hp]
      rw [hframe] at hlt
      simp [Option.filter, Nat.not_le.mpr hlt])
    refine ⟨hcounted, htable, ?_⟩
    intro j hj
    rw [hram, Function.update_of_ne hj]
  . exact ⟨h, rfl, fun _ _ => rfl⟩

theorem copyEntry (h : m.Counted held managed) {d d' : PageIndex} {t t' : Nat} (ht : m.userTable d = some t)
    (ht' : m.userTable d' = some t') (hne : d ≠ d') (hplace : d.val % 16 = d'.val % 16) {i : PageIndex}
    (hblank : m.ram t' i = 0)
    : (Memory.copyEntry t t' m i).Counted held managed ∧ (Memory.copyEntry t t' m i).userTable = m.userTable
        ∧ ∀ j, j ≠ i → (Memory.copyEntry t t' m i).ram t' j = m.ram t' j := by
  by_cases hcase : Entry.present (m.ram t i) = true ∧ lowFrame ≤ Entry.frame (m.ram t i)
  . obtain ⟨hp, hlow⟩ := hcase
    have htt : t ≠ t' := by
      intro heq
      subst heq
      exact hne (h.table_inj ht' ht)
    have hframe : m.counted.frame (.page (d, i)) = some (Entry.frame (m.ram t i)) :=
      counted_frame.mpr ⟨by rw [m.frame_page ht, Entry.target_of_present hp], hlow⟩
    have htarget : Entry.target (m.ram t i &&& ~~~2) = some (Entry.frame (m.ram t i)) := by
      rw [Entry.target_clear, Entry.target_of_present hp]
    have hfr := Entry.frame_clear (m.ram t i)
    have hpr : Entry.present (m.ram t i &&& ~~~2) = true := (Entry.present_clear (m.ram t i)).trans hp
    unfold Memory.copyEntry
    rw [if_pos hp]
    dsimp only
    rw [if_pos (Entry.low_lt (hfr ▸ hlow) hpr), Entry.mapNr_eq (hfr ▸ hlow), hfr, setEntry_comm m htt]
    obtain ⟨hcounted, htable, hram⟩ :=
      h.shareEntry ht ht' hplace hframe (frame_of_blank ht' hblank) htarget rfl
    refine ⟨hcounted, htable, ?_⟩
    intro j hj
    refine (congrFun hram j).trans ?_
    rw [Function.update_of_ne hj, ram_setEntry_of_ne m (Ne.symm htt)]
  . apply h.copyEntry_low ht' hblank
    intro hp
    exact Nat.not_le.mp fun hlow => hcase ⟨hp, hlow⟩

def Source (m : Memory) (t : Nat) (d' : PageIndex) (l : List PageIndex) : Prop :=
  (∃ d, m.userTable d = some t ∧ d ≠ d' ∧ d.val % 16 = d'.val % 16) ∨ t = 1 ∧ ∀ i ∈ l, i.val < 0xA0

theorem copySource (h : m.Counted held managed) {d' : PageIndex} {t t' : Nat} (ht' : m.userTable d' = some t')
    {l : List PageIndex} (hsource : Source m t d' l) {i : PageIndex} (hi : i ∈ l) (hblank : m.ram t' i = 0)
    : (Memory.copyEntry t t' m i).Counted held managed ∧ (Memory.copyEntry t t' m i).userTable = m.userTable
        ∧ ∀ j, j ≠ i → (Memory.copyEntry t t' m i).ram t' j = m.ram t' j := by
  rcases hsource with ⟨d, ht, hne, hplace⟩ | ⟨rfl, hsmall⟩
  . exact h.copyEntry ht ht' hne hplace hblank
  . apply h.copyEntry_low ht' hblank
    intro _
    have hlt := hsmall i hi
    rw [h.pg0 i hlt, Entry.frame_make (by omega)]
    unfold lowFrame
    omega

theorem Source.tail {m' : Memory} {t : Nat} {d' j : PageIndex} {l : List PageIndex} (h : Source m t d' (j :: l))
    (htable : m'.userTable = m.userTable)
    : Source m' t d' l := by
  rcases h with ⟨d, ht, hne, hplace⟩ | ⟨rfl, hsmall⟩
  . exact .inl ⟨d, htable ▸ ht, hne, hplace⟩
  . exact .inr ⟨rfl, fun i hi => hsmall i (List.mem_cons_of_mem j hi)⟩

theorem copyEntries (h : m.Counted held managed) {d' : PageIndex} {t t' : Nat} (ht' : m.userTable d' = some t')
    {l : List PageIndex} (hsource : Source m t d' l) (hnodup : l.Nodup) (hblank : ∀ i ∈ l, m.ram t' i = 0)
    : (l.foldl (Memory.copyEntry t t') m).Counted held managed := by
  induction l generalizing m with
  | nil => exact h
  | cons j l ih =>
    rw [List.nodup_cons] at hnodup
    obtain ⟨hcounted, htable, hram⟩ := h.copySource ht' hsource List.mem_cons_self (hblank j List.mem_cons_self)
    apply ih hcounted (htable ▸ ht') (hsource.tail htable) hnodup.right
    intro i hi
    have hij : i ≠ j := by
      intro heq
      exact hnodup.left (heq ▸ hi)
    rw [hram i hij]
    exact hblank i (List.mem_cons_of_mem j hi)

theorem lt_of_mem_take {nr : Nat} {i : PageIndex} (h : i ∈ (List.finRange 1024).take nr) : i.val < nr := by
  obtain ⟨j, hj, rfl⟩ := List.mem_take_iff_getElem.mp h
  rw [List.getElem_finRange]
  exact Nat.lt_of_lt_of_le hj (Nat.min_le_left _ _)

theorem copyTable {m' : Memory} {nr : Nat} (h : m.Counted held managed) {d d' : PageIndex} (hd' : 16 ≤ d'.val)
    (hsource : 16 ≤ d.val ∧ d.val % 16 = d'.val % 16 ∨ d = 0 ∧ nr = 0xA0)
    (hok : Memory.copyTable nr m d d' = .ok m')
    : m'.Counted held managed := by
  unfold Memory.copyTable at hok
  split at hok
  . cases hok
  . next hto =>
    rw [Bool.not_eq_true] at hto
    have hnone := userTable_eq_none hto
    split at hok
    . next hfrom =>
      dsimp only at hok
      split at hok
      . cases hok
      . next t' m₁ hfree =>
        have hnew := h.getFreePage hfree
        obtain ⟨hcounted, htable, hblank, _⟩ := h.newTable hd' hnone hnew
        rw [Except.ok.injEq] at hok
        rw [← hok]
        apply hcounted.copyEntries
        . rw [htable, Function.update_self]
        . rcases hsource with ⟨hd, hplace⟩ | ⟨rfl, rfl⟩
          . have hne : d ≠ d' := by
              intro heq
              rw [heq, hto] at hfrom
              cases hfrom
            refine .inl ⟨d, ?_, hne, hplace⟩
            rw [htable, Function.update_of_ne hne]
            exact userTable_eq_some hd hfrom
          . refine .inr ⟨?_, fun i hi => lt_of_mem_take hi⟩
            unfold Memory.table
            rw [h.pgDir, Entry.frame_make (by omega)]
        . exact (List.nodup_finRange 1024).sublist (List.take_sublist _ _)
        . intro i _
          exact hblank i
    . rw [Except.ok.injEq] at hok
      exact hok ▸ h

theorem copyTables {nr : Nat} (h : m.Counted held managed) {from_ to_ : Word} {js : List Nat}
    (hdirs : ∀ j ∈ js, ∀ d d', dirAt ((dirOf from_).val + j) = .ok d → dirAt ((dirOf to_).val + j) = .ok d' →
      16 ≤ d'.val ∧ (16 ≤ d.val ∧ d.val % 16 = d'.val % 16 ∨ d = 0 ∧ nr = 0xA0))
    : (Memory.copyTables nr from_ to_ js m).fst.Counted held managed := by
  induction js generalizing m with
  | nil => exact h
  | cons j js ih =>
    unfold Memory.copyTables
    split
    . next d d' hd hd' =>
      obtain ⟨hto, hsource⟩ := hdirs j List.mem_cons_self d d' hd hd'
      split
      . next m₁ hok =>
        apply ih (h.copyTable hto hsource hok)
        intro j' hj'
        exact hdirs j' (List.mem_cons_of_mem j hj')
      . exact h
    . exact h

end Counted
end counted
end Memory
end OS
