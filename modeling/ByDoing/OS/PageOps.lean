import ByDoing.Lib.Abstraction
import ByDoing.OS.EagerCopy
import ByDoing.OS.Paging

namespace OS

namespace Memory

theorem count_eq {m : Memory} {f : Nat} (h : lowFrame ≤ f)
    : m.mapping.count f = (m.memMap (f - lowFrame)).toNat :=
  if_neg (Nat.not_lt.mpr h)

theorem Sane.shrink {m m' : Memory} (h : m.Sane) (hsound : m'.mapping.Sound)
    (hframe : ∀ k f, m'.mapping.frame k = some f → m.mapping.frame k = some f)
    (hfree : ∀ nr, nr < PAGING_PAGES → m'.memMap nr = 0 → lowFrame + nr < m.highMemory)
    (hhigh : m'.highMemory = m.highMemory)
    : m'.Sane := by
  constructor
  . exact hsound
  . intro k f hk
    rw [hhigh]
    exact h.range k f (hframe k f hk)
  . intro nr hnr hzero
    rw [hhigh]
    exact hfree nr hnr hzero
  . rw [hhigh]
    exact h.high
  . intro d i d' i' f hd hd'
    exact h.aligned d i d' i' f (hframe _ f hd) (hframe _ f hd')

theorem Sane.grow {m m' : Memory} (h : m.Sane) {k : PageKey} {f : Nat} (hsound : m'.mapping.Sound)
    (hframe : ∀ j g, m'.mapping.frame j = some g → j = k ∧ g = f ∨ m.mapping.frame j = some g)
    (hlow : lowFrame ≤ f) (hhigh : f < m.highMemory)
    (hfree : ∀ nr, nr < PAGING_PAGES → m'.memMap nr = 0 → lowFrame + nr < m.highMemory)
    (hhigh' : m'.highMemory = m.highMemory)
    (hplace : ∀ d i, k = .page (d, i) → ∀ e j, m.mapping.frame (.page (e, j)) = some f →
      e.val % 16 = d.val % 16 ∧ j = i)
    : m'.Sane := by
  constructor
  . exact hsound
  . intro j g hj
    rw [hhigh']
    rcases hframe j g hj with ⟨_, rfl⟩ | hj
    . exact ⟨hlow, hhigh⟩
    . exact h.range j g hj
  . intro nr hnr hzero
    rw [hhigh']
    exact hfree nr hnr hzero
  . rw [hhigh']
    exact h.high
  . intro e j e' j' g he he'
    rcases hframe _ g he with ⟨hk, rfl⟩ | he
    . rcases hframe _ g he' with ⟨hk', _⟩ | he'
      . have hsame := hk.trans hk'.symm
        rw [PageKey.page.injEq, Prod.mk.injEq] at hsame
        rw [hsame.left, hsame.right]
        exact ⟨rfl, rfl⟩
      . obtain ⟨hmod, heq⟩ := hplace e j hk.symm e' j' he'
        exact ⟨hmod.symm, heq.symm⟩
    . rcases hframe _ g he' with ⟨hk', rfl⟩ | he'
      . exact hplace e' j' hk'.symm e j he
      . exact h.aligned e j e' j' g he he'

theorem lt_of_high {m : Memory} (h : m.Sane) {f : Nat} (hf : f < m.highMemory) : f < 2 ^ 20 := by
  have hhigh := Nat.lt_of_lt_of_le hf h.high
  unfold lowFrame PAGING_PAGES at hhigh
  omega

theorem ne_zero_of_low {f : Nat} (hf : lowFrame ≤ f) : f ≠ 0 := by
  unfold lowFrame at hf
  omega

theorem freePages_mono {m m' : Memory} (h : ∀ nr, m.memMap nr = 0 → m'.memMap nr = 0)
    : m.freePages ≤ m'.freePages := by
  unfold freePages
  exact Finset.card_le_card (Finset.monotone_filter_right _ fun nr _ hnr => h nr hnr)

theorem freePages_congr {m m' : Memory} (h : ∀ nr, m'.memMap nr = 0 ↔ m.memMap nr = 0)
    : m'.freePages = m.freePages :=
  Nat.le_antisymm (freePages_mono fun nr => (h nr).mp) (freePages_mono fun nr => (h nr).mpr)

theorem freePages_setEntry (m : Memory) (t : Nat) (i : PageIndex) (entry : Word)
    : (m.setEntry t i entry).freePages = m.freePages :=
  freePages_congr fun _ => Iff.rfl

theorem freePages_setPage (m : Memory) (f : Nat) (c : Contents) : (m.setPage f c).freePages = m.freePages :=
  freePages_congr fun _ => Iff.rfl

theorem freePages_of_update {m m' : Memory} {nr : Nat} (hnr : nr < PAGING_PAGES) (hzero : m.memMap nr = 0)
    (hmap : m'.memMap = Function.update m.memMap nr 1)
    : m.freePages = m'.freePages + 1 := by
  unfold freePages
  have hmem : nr ∈ (Finset.range PAGING_PAGES).filter fun nr => m.memMap nr = 0 := by
    simp [hnr, hzero]
  have herase : (Finset.range PAGING_PAGES).filter (fun nr => m'.memMap nr = 0)
      = ((Finset.range PAGING_PAGES).filter fun nr => m.memMap nr = 0).erase nr := by
    ext nr'
    by_cases heq : nr' = nr
    . simp [heq, hmap]
    . simp [heq, hmap]
  rw [herase, Finset.card_erase_add_one hmem]

theorem freePages_of_none {m : Memory} (h : m.getFreePage = none) : m.freePages = 0 := by
  unfold getFreePage at h
  split at h
  . next hfind =>
    unfold freePages
    rw [Finset.card_eq_zero, Finset.eq_empty_iff_forall_notMem]
    intro nr hnr
    rw [Finset.mem_filter, Finset.mem_range] at hnr
    rw [List.find?_eq_none] at hfind
    have hused := hfind nr (by rw [List.mem_reverse, List.mem_range]; exact hnr.left)
    simp [hnr.right] at hused
  . simp at h

theorem getFreePage_eq_some {m m' : Memory} {f : Nat} (h : m.getFreePage = some (f, m'))
    : ∃ nr, nr < PAGING_PAGES ∧ m.memMap nr = 0 ∧ f = lowFrame + nr
        ∧ m' = (m.setMap nr 1).setPage (lowFrame + nr) fun _ => 0 := by
  unfold getFreePage at h
  split at h
  . cases h
  . next nr hfind =>
    rw [Option.some.injEq, Prod.mk.injEq] at h
    have hmem := List.mem_of_find?_eq_some hfind
    rw [List.mem_reverse, List.mem_range] at hmem
    have hfound := List.find?_some hfind
    exact ⟨nr, hmem, by simpa using hfound, h.left.symm, h.right.symm⟩

structure Fresh (m : Memory) (f : Nat) (m' : Memory) : Prop where
  unused : m.mapping.Unused f
  low : lowFrame ≤ f
  high : f < m.highMemory
  zero : m.memMap (f - lowFrame) = 0
  mapping : m'.mapping = m.mapping.reserve f
  memMap : m'.memMap = Function.update m.memMap (f - lowFrame) 1
  ram : m'.ram = Function.update m.ram f fun _ => 0
  highMemory : m'.highMemory = m.highMemory
  freePages : m.freePages = m'.freePages + 1
  sane : m'.Sane

theorem Fresh.userTable {m m' : Memory} {f : Nat} (h : m.Fresh f m') : m'.userTable = m.userTable := by
  funext e
  exact congrFun (congrArg Sharing.Mapping.frame h.mapping) (.table e)

theorem Fresh.ram_of_ne {m m' : Memory} {f g : Nat} (h : m.Fresh f m') (hg : g ≠ f) : m'.ram g = m.ram g := by
  rw [h.ram, Function.update_of_ne hg]

theorem Fresh.ne {m m' : Memory} {f g : Nat} (h : m.Fresh f m') {k : PageKey} (hk : m.mapping.frame k = some g)
    : g ≠ f := by
  intro heq
  exact h.unused k (heq ▸ hk)

theorem Sane.getFreePage {m m' : Memory} {f : Nat} (h : m.Sane) (hfree : m.getFreePage = some (f, m'))
    : m.Fresh f m' := by
  obtain ⟨nr, hnr, hzero, rfl, rfl⟩ := getFreePage_eq_some hfree
  have hlow : lowFrame ≤ lowFrame + nr := Nat.le_add_right _ _
  have hindex : lowFrame + nr - lowFrame = nr := Nat.add_sub_cancel_left _ _
  have hcount : m.mapping.count (lowFrame + nr) = 0 := by
    rw [count_eq hlow, hindex, hzero]
    rfl
  have hunused := h.sound.unused hcount
  have hmap : (m.setMap nr 1).mapping = m.mapping.reserve (lowFrame + nr) := by
    have hset := m.mapping_setMap hlow 1
    rw [hindex] at hset
    exact hset
  have hmapping : ((m.setMap nr 1).setPage (lowFrame + nr) fun _ => 0).mapping
      = m.mapping.reserve (lowFrame + nr) := by
    rw [mapping_setPage, hmap]
    . unfold lowFrame
      omega
    . intro d
      exact hunused (.table d)
  refine ⟨hunused, hlow, h.free nr hnr hzero, by rw [hindex, hzero], hmapping, by rw [hindex]; rfl, rfl, rfl,
    freePages_of_update hnr hzero rfl, ?_⟩
  apply h.shrink
  . rw [hmapping]
    exact h.sound.reserve hunused
  . rw [hmapping]
    exact fun _ _ hk => hk
  . intro nr' hnr' hzero'
    apply h.free nr' hnr'
    by_cases heq : nr' = nr
    . rw [heq]
      exact hzero
    . rw [← hzero']
      exact (Function.update_of_ne heq _ _).symm
  . rfl

theorem view_of_ram {m m' : Memory} (hsane : m'.Sane) {d d' : PageIndex} {t t' : Nat} (ht : m'.userTable d = some t)
    (ht' : m'.userTable d' = some t') (hram : ∀ f, f ≠ t → f ≠ t' → m'.ram f = m.ram f) (k : PageIndex × PageIndex)
    : m'.view k = m'.mapping.view m.ram (.page k) := by
  apply Sharing.Mapping.view_congr
  intro f hf
  exact hram f (hsane.page_ne_table ht hf) (hsane.page_ne_table ht' hf)

theorem view_update {m : Memory} {k : PageIndex × PageIndex} {v : Option Contents} (j : PageIndex × PageIndex)
    : Function.update (m.mapping.view m.ram) (.page k) v (.page j) = Function.update m.view k v j := by
  by_cases hj : j = k
  . subst hj
    rw [Function.update_self, Function.update_self]
  . rw [Function.update_of_ne hj, Function.update_of_ne]
    . rfl
    . intro heq
      exact hj (PageKey.page.inj heq)

theorem toNat_sub_one {c : BitVec 8} (h : 0 < c.toNat) : (c - 1).toNat = c.toNat - 1 :=
  BitVec.toNat_sub_of_le (BitVec.le_def.mpr h)

theorem Sane.freePage {m : Memory} (h : m.Sane) {k : PageKey} {f : Nat} (hk : m.mapping.frame k = some f)
    : m.freePage f = .ok (m.setMap (f - lowFrame) (m.memMap (f - lowFrame) - 1))
        ∧ (m.setMap (f - lowFrame) (m.memMap (f - lowFrame) - 1)).mapping
          = { m.mapping with count := Function.update m.mapping.count f (m.mapping.count f - 1) } := by
  obtain ⟨hlow, hhigh⟩ := h.range k f hk
  have hpos := h.sound.count_pos hk
  rw [count_eq hlow] at hpos
  constructor
  . unfold Memory.freePage
    rw [if_neg (Nat.not_lt.mpr hlow), if_neg (Nat.not_le.mpr hhigh), if_pos]
    intro hzero
    rw [hzero] at hpos
    simp at hpos
  . rw [m.mapping_setMap hlow, toNat_sub_one hpos, count_eq hlow]

theorem Sane.free_setMap {m : Memory} (h : m.Sane) {f : Nat} (hlow : lowFrame ≤ f) (hhigh : f < m.highMemory)
    {c : BitVec 8} {nr : Nat} (hnr : nr < PAGING_PAGES) (hzero : (m.setMap (f - lowFrame) c).memMap nr = 0)
    : lowFrame + nr < m.highMemory := by
  by_cases heq : nr = f - lowFrame
  . omega
  . apply h.free nr hnr
    rw [← hzero]
    exact (Function.update_of_ne heq _ _).symm

theorem Sane.zero_setMap {m : Memory} (h : m.Sane) {k : PageKey} {f : Nat} (hk : m.mapping.frame k = some f)
    (c : BitVec 8) {nr : Nat} (hzero : m.memMap nr = 0)
    : (m.setMap (f - lowFrame) c).memMap nr = 0 := by
  have hne : nr ≠ f - lowFrame := by
    intro heq
    have hpos := h.sound.count_pos hk
    rw [count_eq (h.range k f hk).left, ← heq, hzero] at hpos
    simp at hpos
  rw [← hzero]
  exact Function.update_of_ne hne _ _

theorem Sane.mapping_entry {m : Memory} (h : m.Sane) {d : PageIndex} {t : Nat} (ht : m.userTable d = some t)
    (i : PageIndex) (entry : Word)
    : (m.setEntry t i entry).mapping
        = { m.mapping with
            frame := Function.update m.mapping.frame (.page (d, i)) (Entry.target entry)
            writable := Function.update m.mapping.writable (.page (d, i)) (Entry.writable entry) } :=
  mapping_setEntry ht (h.table_ne_zero ht) (fun _ he => h.table_inj ht he) i entry

theorem ram_setEntry (m : Memory) (t : Nat) (i : PageIndex) (entry : Word)
    : (m.setEntry t i entry).ram t = Function.update (m.ram t) i entry := by
  simp [setEntry]

theorem ram_setEntry_of_ne (m : Memory) {t f : Nat} (h : f ≠ t) (i : PageIndex) (entry : Word)
    : (m.setEntry t i entry).ram f = m.ram f :=
  Function.update_of_ne h _ _

theorem ram_setPage (m : Memory) (f : Nat) (c : Contents) : (m.setPage f c).ram f = c :=
  Function.update_self _ _ _

theorem ram_setPage_of_ne (m : Memory) {f g : Nat} (h : g ≠ f) (c : Contents) : (m.setPage f c).ram g = m.ram g :=
  Function.update_of_ne h _ _

theorem Sane.cleared {m m₁ : Memory} (h : m.Sane) {d : PageIndex} {t : Nat} (ht : m.userTable d = some t)
    {i : PageIndex} (hram : m₁.ram = m.ram) (hhigh : m₁.highMemory = m.highMemory)
    (hsound : (m₁.setEntry t i 0).mapping.Sound)
    (hframe : (m₁.setEntry t i 0).mapping.frame = Function.update m.mapping.frame (.page (d, i)) none)
    (hfree : ∀ nr, nr < PAGING_PAGES → m₁.memMap nr = 0 → lowFrame + nr < m.highMemory)
    (hmem : ∀ nr, m.memMap nr = 0 → m₁.memMap nr = 0)
    : (m₁.setEntry t i 0).Sane ∧ (m₁.setEntry t i 0).userTable = m.userTable
        ∧ (m₁.setEntry t i 0).view = Function.update m.view (d, i) none
        ∧ (m₁.setEntry t i 0).ram t = Function.update (m.ram t) i 0
        ∧ ∀ nr, m.memMap nr = 0 → (m₁.setEntry t i 0).memMap nr = 0 := by
  have htable : (m₁.setEntry t i 0).userTable = m.userTable := by
    rw [show (m₁.setEntry t i 0).userTable = m₁.userTable from userTable_setPage m₁ (h.table_ne_zero ht) _]
    funext e
    unfold userTable dir
    rw [hram]
  have hsane : (m₁.setEntry t i 0).Sane := by
    apply h.shrink hsound
    . intro k f hk
      rw [hframe] at hk
      by_cases heq : k = .page (d, i)
      . simp [heq] at hk
      . rwa [Function.update_of_ne heq] at hk
    . exact hfree
    . exact hhigh
  refine ⟨hsane, htable, ?_, by rw [ram_setEntry, hram], hmem⟩
  funext j
  rw [view_of_ram (m := m) hsane (htable ▸ ht) (htable ▸ ht)]
  . rw [← view_update]
    unfold Sharing.Mapping.view
    rw [hframe]
    by_cases hj : (.page j : PageKey) = .page (d, i)
    . rw [hj, Function.update_self, Function.update_self]
      rfl
    . rw [Function.update_of_ne hj, Function.update_of_ne hj]
  . intro f hf _
    rw [ram_setEntry_of_ne m₁ hf, hram]

theorem Sane.freeEntry {m : Memory} (h : m.Sane) {d : PageIndex} {t : Nat} (ht : m.userTable d = some t)
    (i : PageIndex)
    : ∃ m', Memory.freeEntry t m i = .ok m' ∧ m'.Sane ∧ m'.userTable = m.userTable
        ∧ m'.view = Function.update m.view (d, i) none ∧ m'.ram t = Function.update (m.ram t) i 0
        ∧ ∀ nr, m.memMap nr = 0 → m'.memMap nr = 0 := by
  have hzero := h.table_ne_zero ht
  unfold Memory.freeEntry
  by_cases hp : Entry.present (m.ram t i) = true
  . have hframe : m.mapping.frame (.page (d, i)) = some (Entry.frame (m.ram t i)) := by
      rw [m.frame_page ht, Entry.target_of_present hp]
    obtain ⟨hlow, hhigh⟩ := h.range _ _ hframe
    obtain ⟨hok, hmapping⟩ := h.freePage hframe
    generalize Entry.frame (m.ram t i) = f at hframe hlow hhigh hok hmapping ⊢
    refine ⟨(m.setMap (f - lowFrame) (m.memMap (f - lowFrame) - 1)).setEntry t i 0, ?_, ?_⟩
    . rw [if_pos hp, hok]
      rfl
    . have hset : ((m.setMap (f - lowFrame) (m.memMap (f - lowFrame) - 1)).setEntry t i 0).mapping
          = m.mapping.drop (.page (d, i)) f := by
        rw [mapping_setEntry (m := m.setMap _ _) ht hzero (fun e he => h.table_inj ht he), hmapping,
          Entry.target_zero, Entry.writable_zero]
        rfl
      apply h.cleared ht
      . rfl
      . rfl
      . rw [hset]
        exact h.sound.drop hframe
      . rw [hset]
        rfl
      . intro nr hnr
        exact h.free_setMap hlow hhigh hnr
      . intro nr hnr
        exact h.zero_setMap hframe _ hnr
  . have hframe : m.mapping.frame (.page (d, i)) = none := by
      rw [m.frame_page ht, Entry.target, if_neg hp]
    have hset : (m.setEntry t i 0).mapping = m.mapping.clear (.page (d, i)) := by
      rw [h.mapping_entry ht, Entry.target_zero, Entry.writable_zero]
      rfl
    refine ⟨m.setEntry t i 0, ?_, ?_⟩
    . rw [if_neg hp]
      rfl
    . apply h.cleared ht
      . rfl
      . rfl
      . rw [hset]
        exact h.sound.clear hframe
      . rw [hset]
        rfl
      . exact h.free
      . exact fun _ hnr => hnr

theorem Sane.freeEntries {m : Memory} (h : m.Sane) {d : PageIndex} {t : Nat} (ht : m.userTable d = some t)
    (l : List PageIndex)
    : ∃ m', l.foldlM (Memory.freeEntry t) m = .ok m' ∧ m'.Sane ∧ m'.userTable = m.userTable
        ∧ (∀ e i, m'.view (e, i) = if e = d ∧ i ∈ l then none else m.view (e, i))
        ∧ (∀ i, m'.ram t i = if i ∈ l then 0 else m.ram t i)
        ∧ ∀ nr, m.memMap nr = 0 → m'.memMap nr = 0 := by
  induction l generalizing m with
  | nil => exact ⟨m, rfl, h, rfl, by simp, by simp, fun _ hnr => hnr⟩
  | cons j l ih =>
    obtain ⟨m₁, hok, hsane, htable, hview, hram, hmem⟩ := h.freeEntry ht j
    obtain ⟨m', hok', hsane', htable', hview', hram', hmem'⟩ := ih hsane (htable ▸ ht)
    refine ⟨m', ?_, hsane', htable'.trans htable, ?_, ?_, fun nr hnr => hmem' nr (hmem nr hnr)⟩
    . rw [List.foldlM_cons, hok]
      exact hok'
    . intro e i
      rw [hview', hview]
      by_cases he : e = d <;> by_cases hi : i = j <;> by_cases hl : i ∈ l <;> simp [he, hi, hl]
    . intro i
      rw [hram', hram]
      by_cases hi : i = j <;> by_cases hl : i ∈ l <;> simp [hi, hl]

theorem lookup_of_none {m : Memory} {d : PageIndex} (h : m.userTable d = none) (i : PageIndex)
    : m.mapping.frame (.page (d, i)) = none := by
  dsimp only [mapping, lookup]
  rw [h]
  rfl

theorem view_of_frame {m : Memory} {k : PageIndex × PageIndex} {f : Nat} (h : m.mapping.frame (.page k) = some f)
    : m.view k = some (m.ram f) := by
  unfold view Sharing.Mapping.view
  rw [h, Option.map_some]

theorem view_of_no_frame {m : Memory} {k : PageIndex × PageIndex} (h : m.mapping.frame (.page k) = none)
    : m.view k = none := by
  unfold view Sharing.Mapping.view
  rw [h, Option.map_none]

theorem view_of_none {m : Memory} {d : PageIndex} (h : m.userTable d = none) (i : PageIndex)
    : m.view (d, i) = none :=
  view_of_no_frame (lookup_of_none h i)

theorem userTable_setDir (m : Memory) {d : PageIndex} (hd : 16 ≤ d.val) (entry : Word)
    : (m.setEntry 0 d entry).userTable = Function.update m.userTable d (Entry.target entry) := by
  funext e
  unfold userTable dir
  rw [ram_setEntry]
  by_cases he : e = d
  . subst he
    rw [if_pos hd, Function.update_self, Function.update_self]
  . rw [Function.update_of_ne he, Function.update_of_ne he]

theorem Sane.page_ne_zero {m : Memory} (h : m.Sane) {k : PageKey} {f : Nat} (hk : m.mapping.frame k = some f)
    : f ≠ 0 := by
  have hlow := (h.range k f hk).left
  unfold lowFrame at hlow
  omega

def space (m : Memory) : Space :=
  {
    mapped := fun d => (m.userTable d).isSome
    page := m.view
  }

def paging : Abstraction Memory Space :=
  {
    inv := Sane
    abs := space
    left := freePages
  }

theorem paging_left (m : Memory) : paging.left m = m.freePages :=
  rfl

theorem short_of_none {m : Memory} (h : m.freePages = 0) {n : Nat} (hn : 0 < n) (e : MemError)
    (r : Except MemError Space)
    : paging.Agree n m (.error e) r := by
  apply Abstraction.Agree.short
  rw [paging_left, h]
  exact hn

theorem space_eq {m : Memory} {s : Space} (hmapped : ∀ d, (m.userTable d).isSome = s.mapped d)
    (hpage : ∀ d i, m.view (d, i) = s.page (d, i))
    : m.space = s := by
  unfold space
  cases s with
  | mk mapped page =>
    rw [Space.mk.injEq]
    exact ⟨funext hmapped, funext fun k => hpage k.fst k.snd⟩

theorem userTable_eq_none {m : Memory} {d : PageIndex} (h : Entry.present (m.dir d) = false)
    : m.userTable d = none := by
  unfold userTable Entry.target
  rw [h]
  split <;> rfl

theorem userTable_eq_some {m : Memory} {d : PageIndex} (hd : 16 ≤ d.val) (h : Entry.present (m.dir d) = true)
    : m.userTable d = some (m.table d) := by
  unfold userTable
  rw [if_pos hd, Entry.target_of_present h]
  rfl

theorem Sane.freeTable {m : Memory} (h : m.Sane) {d : PageIndex} (hd : 16 ≤ d.val)
    : ∃ m', m.freeTable d = .ok m' ∧ m'.Sane ∧ m'.userTable = Function.update m.userTable d none
        ∧ (∀ e i, m'.view (e, i) = if e = d then none else m.view (e, i))
        ∧ ∀ nr, m.memMap nr = 0 → m'.memMap nr = 0 := by
  unfold Memory.freeTable
  by_cases hp : Entry.present (m.dir d) = true
  . have ht : m.userTable d = some (m.table d) := userTable_eq_some hd hp
    obtain ⟨m₁, hok, hsane, htable, hview, hram, hmem⟩ := h.freeEntries ht (List.finRange 1024)
    have ht₁ : m₁.userTable d = some (m.table d) := htable ▸ ht
    have hdir : m₁.table d = m.table d := by
      unfold userTable at ht₁
      rw [if_pos hd] at ht₁
      exact (Entry.target_eq_some ht₁).right
    obtain ⟨hfree, hmap⟩ := hsane.freePage (k := .table d) ht₁
    obtain ⟨hlow, hhigh⟩ := hsane.range (.table d) _ ht₁
    generalize m.table d = t at ht hok hram ht₁ hdir hfree hmap hlow hhigh ⊢
    have hset : ((m₁.setMap (t - lowFrame) (m₁.memMap (t - lowFrame) - 1)).setEntry 0 d 0).mapping
        = m₁.mapping.drop (.table d) t := by
      rw [mapping_setDir hd, hmap, Entry.target_zero]
      . rfl
      . intro e t' ht'
        exact hsane.table_ne_zero ht'
      . intro t' ht'
        have heq : t' = t := Option.some.inj (ht'.symm.trans ht₁)
        subst heq
        refine ⟨hsane.table_ne_zero ht₁, ?_⟩
        intro i
        exact (hram i).trans (if_pos (List.mem_finRange i))
      . rw [Entry.target_zero]
        simp [Blank]
    refine ⟨(m₁.setMap (t - lowFrame) (m₁.memMap (t - lowFrame) - 1)).setEntry 0 d 0, ?_, ?_, ?_, ?_, ?_⟩
    . simp only [hp, Bool.not_true, Bool.false_eq_true, if_false]
      rw [hok]
      show (m₁.freePage (m₁.table d) >>= fun m => pure (m.setEntry 0 d 0)) = _
      rw [hdir, hfree]
      rfl
    . apply hsane.shrink
      . rw [hset]
        exact hsane.sound.drop ht₁
      . intro k f hk
        rw [hset] at hk
        exact (Sharing.Mapping.frame_clear hk).right
      . intro nr hnr
        exact hsane.free_setMap hlow hhigh hnr
      . rfl
    . rw [userTable_setDir _ hd, Entry.target_zero, ← htable]
      rfl
    . intro e i
      have hpage : ∀ k f, m₁.mapping.frame (.page k) = some f →
          ((m₁.setMap (t - lowFrame) (m₁.memMap (t - lowFrame) - 1)).setEntry 0 d 0).ram f = m₁.ram f := by
        intro k f hk
        exact ram_setEntry_of_ne _ (hsane.page_ne_zero hk) _ _
      have hsame : ((m₁.setMap (t - lowFrame) (m₁.memMap (t - lowFrame) - 1)).setEntry 0 d 0).view (e, i)
          = m₁.view (e, i) := by
        unfold view
        rw [hset, Sharing.Mapping.view_drop, Function.update_of_ne (by simp)]
        exact Sharing.Mapping.view_congr (hpage (e, i))
      rw [hsame, hview]
      by_cases he : e = d <;> simp [he]
    . intro nr hnr
      exact hsane.zero_setMap (k := .table d) ht₁ _ (hmem nr hnr)
  . have hnone : m.userTable d = none := userTable_eq_none ((Bool.not_eq_true _).mp hp)
    refine ⟨m, ?_, h, ?_, ?_, fun _ hnr => hnr⟩
    . simp only [hp, Bool.not_false, if_true]
      rfl
    . rw [← hnone, Function.update_eq_self]
    . intro e i
      split
      . next he => rw [he, view_of_none hnone]
      . rfl

theorem freeTable_refines {d : PageIndex} (hd : 16 ≤ d.val)
    : paging.Refines 0 (Memory.freeTable · d) (Space.freeBlock · d) := by
  intro m h
  obtain ⟨m', hok, hsane, htable, hview, hmem⟩ := Sane.freeTable h hd
  dsimp only
  rw [hok]
  apply Abstraction.Agree.ok hsane
  . apply space_eq
    . intro e
      rw [htable]
      dsimp only
      by_cases he : e = d
      . rw [he, Function.update_self, Function.update_self]
        rfl
      . rw [Function.update_of_ne he, Function.update_of_ne he]
        rfl
    . exact hview
  . rw [paging_left, paging_left, Nat.add_zero]
    exact freePages_mono hmem

def slotOf : PageKey → Nat
  | .table _ => 0
  | .page k => k.fst.val / 16

def Aligned (frame : PageKey → Option Nat) : Prop :=
  ∀ d i d' i' f, frame (.page (d, i)) = some f → frame (.page (d', i')) = some f →
    d.val % 16 = d'.val % 16 ∧ i = i'

theorem card_sharers_le {M : Sharing.Mapping PageKey Nat} (haligned : Aligned M.frame) {f : Nat}
    (htable : ∀ d, M.frame (.table d) ≠ some f)
    : (M.sharers f).card ≤ 64 := by
  have hpage : ∀ j ∈ M.sharers f, ∃ d i, j = .page (d, i) ∧ M.frame (.page (d, i)) = some f := by
    intro j hj
    rw [Sharing.Mapping.mem_sharers] at hj
    cases j with
    | table d => exact absurd hj (htable d)
    | page k => exact ⟨k.fst, k.snd, rfl, hj⟩
  have hcard : (M.sharers f).card ≤ (Finset.range 64).card := by
    apply Finset.card_le_card_of_injOn slotOf
    . intro j hj
      rw [Finset.mem_coe] at hj
      obtain ⟨d, i, rfl, _⟩ := hpage j hj
      rw [Finset.coe_range, Set.mem_Iio, slotOf]
      omega
    . intro j hj j' hj' heq
      rw [Finset.mem_coe] at hj hj'
      obtain ⟨d, i, rfl, hd⟩ := hpage j hj
      obtain ⟨d', i', rfl, hd'⟩ := hpage j' hj'
      obtain ⟨hplace, rfl⟩ := haligned d i d' i' f hd hd'
      simp only [slotOf] at heq
      have hdd : d = d' := Fin.ext (by omega)
      rw [hdd]
  rwa [Finset.card_range] at hcard

theorem Sane.count_le {m : Memory} (h : m.Sane) {k : PageIndex × PageIndex} {f : Nat}
    (hk : m.mapping.frame (.page k) = some f)
    : m.mapping.count f ≤ 64 := by
  rw [h.sound.count_eq (.page k) f hk]
  apply card_sharers_le h.aligned
  intro d hd
  exact h.page_ne_table hd hk rfl

theorem toNat_add_one {c : BitVec 8} (h : c.toNat ≤ 64) : (c + 1).toNat = c.toNat + 1 := by
  rw [BitVec.toNat_add, show (1 : BitVec 8).toNat = 1 from rfl]
  omega

theorem Sane.mapping_shared {m m' : Memory} (h : m.Sane) {d d' : PageIndex} {t t' : Nat}
    (ht : m.userTable d = some t) (ht' : m.userTable d' = some t') (hne : d ≠ d') {i : PageIndex} {w : Word} {f : Nat}
    (hframe : m.mapping.frame (.page (d, i)) = some f) (htarget : Entry.target w = some f)
    (hwritable : Entry.writable w = false) (hlow : lowFrame ≤ f)
    (hm' : m' = ((m.setEntry t' i w).setEntry t i w).setMap (f - lowFrame) (m.memMap (f - lowFrame) + 1))
    : m'.userTable = m.userTable ∧ m'.mapping = m.mapping.share (.page (d, i)) (.page (d', i)) f := by
  have htable : (m.setEntry t' i w).userTable = m.userTable := userTable_setPage m (h.table_ne_zero ht') _
  have htable' : ((m.setEntry t' i w).setEntry t i w).userTable = (m.setEntry t' i w).userTable :=
    userTable_setPage _ (h.table_ne_zero ht) _
  subst hm'
  refine ⟨htable'.trans htable, ?_⟩
  have hkey : (.page (d, i) : PageKey) ≠ .page (d', i) := by simp [hne]
  have hcount := h.count_le hframe
  rw [count_eq hlow] at hcount
  rw [mapping_setMap _ hlow, mapping_setEntry (m := m.setEntry t' i w) (htable ▸ ht) (h.table_ne_zero ht),
    h.mapping_entry ht', htarget, hwritable, toNat_add_one hcount]
  . unfold Sharing.Mapping.share
    simp only [Sharing.Mapping.mk.injEq]
    refine ⟨?_, ?_, ?_⟩
    . rw [Function.update_comm hkey.symm, ← hframe, Function.update_eq_self]
    . exact Function.update_comm hkey.symm _ _ _
    . rw [count_eq hlow]
  . intro e he
    rw [htable] at he
    exact h.table_inj ht he

theorem Sane.copyEntry {m : Memory} (h : m.Sane) {d d' : PageIndex} {t t' : Nat} (ht : m.userTable d = some t)
    (ht' : m.userTable d' = some t') (hne : d ≠ d') (hplace : d.val % 16 = d'.val % 16) {i : PageIndex}
    (hblank : m.ram t' i = 0)
    : (Memory.copyEntry t t' m i).Sane ∧ (Memory.copyEntry t t' m i).userTable = m.userTable
        ∧ (Memory.copyEntry t t' m i).view = Function.update m.view (d', i) (m.view (d, i))
        ∧ (∀ j, j ≠ i → (Memory.copyEntry t t' m i).ram t' j = m.ram t' j)
        ∧ ∀ nr, m.memMap nr = 0 → (Memory.copyEntry t t' m i).memMap nr = 0 := by
  have hnone : m.mapping.frame (.page (d', i)) = none := by
    rw [m.frame_page ht', hblank, Entry.target_zero]
  have htt : t ≠ t' := by
    intro heq
    subst heq
    exact hne (h.table_inj ht' ht)
  unfold Memory.copyEntry
  by_cases hp : Entry.present (m.ram t i) = true
  . rw [if_pos hp]
    have hframe : m.mapping.frame (.page (d, i)) = some (Entry.frame (m.ram t i)) := by
      rw [m.frame_page ht, Entry.target_of_present hp]
    obtain ⟨hlow, hhigh⟩ := h.range _ _ hframe
    have htarget : Entry.target (m.ram t i &&& ~~~2) = some (Entry.frame (m.ram t i)) := by
      rw [Entry.target_clear, Entry.target_of_present hp]
    have hwritable := Entry.writable_clear (m.ram t i)
    have hfr := Entry.frame_clear (m.ram t i)
    have hpr : Entry.present (m.ram t i &&& ~~~2) = true := (Entry.present_clear (m.ram t i)).trans hp
    generalize m.ram t i &&& ~~~2 = w at htarget hwritable hfr hpr ⊢
    generalize Entry.frame (m.ram t i) = f at hframe hlow hhigh htarget hfr ⊢
    have hlt : LOW_MEM < w := Entry.low_lt (hfr ▸ hlow) hpr
    have hnr : mapNr w = f - lowFrame := by
      rw [Entry.mapNr_eq (hfr ▸ hlow), hfr]
    dsimp only
    rw [if_pos hlt, hnr]
    rw [show (m.setEntry t' i w).memMap = m.memMap from rfl]
    generalize hM : ((m.setEntry t' i w).setEntry t i w).setMap (f - lowFrame) (m.memMap (f - lowFrame) + 1) = m'
    obtain ⟨htable, hmapping⟩ := h.mapping_shared ht ht' hne hframe htarget hwritable hlow hM.symm
    have hcases : ∀ k g, m'.mapping.frame k = some g → k = .page (d', i) ∧ g = f ∨ m.mapping.frame k = some g := by
      intro k g hk
      rw [hmapping] at hk
      exact Sharing.Mapping.frame_attach hk
    have hsane : m'.Sane := by
      apply h.grow (hmapping ▸ h.sound.share hframe hnone) hcases hlow hhigh
      . intro nr hnr hzero
        rw [← hM] at hzero
        exact h.free_setMap hlow hhigh hnr hzero
      . rw [← hM]
        rfl
      . intro e j hk e' j' he'
        rw [PageKey.page.injEq, Prod.mk.injEq] at hk
        rw [← hk.left, ← hk.right, ← hplace]
        exact h.aligned e' j' d i f he' hframe
    refine ⟨hsane, htable, ?_, ?_, ?_⟩
    . funext j
      rw [view_of_ram (m := m) hsane (htable ▸ ht) (htable ▸ ht')]
      . rw [hmapping, Sharing.Mapping.view_share hframe, view_update]
        rfl
      . intro g hg hg'
        rw [← hM]
        exact (ram_setEntry_of_ne (m.setEntry t' i w) hg i w).trans (ram_setEntry_of_ne m hg' i w)
    . intro j hj
      rw [← hM]
      have hram : ((m.setEntry t' i w).setEntry t i w).ram t' = Function.update (m.ram t') i w :=
        (ram_setEntry_of_ne (m.setEntry t' i w) (Ne.symm htt) i w).trans (ram_setEntry m t' i w)
      exact (congrFun hram j).trans (Function.update_of_ne hj _ _)
    . intro nr hnr
      rw [← hM]
      exact h.zero_setMap hframe _ hnr
  . rw [if_neg hp]
    have hnone' : m.mapping.frame (.page (d, i)) = none := by
      rw [m.frame_page ht, Entry.target, if_neg hp]
    refine ⟨h, rfl, ?_, fun _ _ => rfl, fun _ hnr => hnr⟩
    rw [view_of_no_frame hnone', ← view_of_no_frame hnone, Function.update_eq_self]

theorem Sane.copyEntries {m : Memory} (h : m.Sane) {d d' : PageIndex} {t t' : Nat} (ht : m.userTable d = some t)
    (ht' : m.userTable d' = some t') (hne : d ≠ d') (hplace : d.val % 16 = d'.val % 16) {l : List PageIndex}
    (hnodup : l.Nodup) (hblank : ∀ i ∈ l, m.ram t' i = 0)
    : (l.foldl (Memory.copyEntry t t') m).Sane ∧ (l.foldl (Memory.copyEntry t t') m).userTable = m.userTable
        ∧ (∀ e i, (l.foldl (Memory.copyEntry t t') m).view (e, i)
          = if e = d' ∧ i ∈ l then m.view (d, i) else m.view (e, i))
        ∧ ∀ nr, m.memMap nr = 0 → (l.foldl (Memory.copyEntry t t') m).memMap nr = 0 := by
  induction l generalizing m with
  | nil => exact ⟨h, rfl, by simp, fun _ hnr => hnr⟩
  | cons j l ih =>
    rw [List.nodup_cons] at hnodup
    obtain ⟨hsane, htable, hview, hram, hmem⟩ := h.copyEntry ht ht' hne hplace (hblank j List.mem_cons_self)
    obtain ⟨hsane', htable', hview', hmem'⟩ := ih hsane (htable ▸ ht) (htable ▸ ht') hnodup.right (by
      intro i hi
      have hij : i ≠ j := by
        intro heq
        exact hnodup.left (heq ▸ hi)
      rw [hram i hij]
      exact hblank i (List.mem_cons_of_mem j hi))
    refine ⟨hsane', htable'.trans htable, ?_, fun nr hnr => hmem' nr (hmem nr hnr)⟩
    intro e i
    rw [List.foldl_cons, hview', hview]
    have hfrom : Function.update m.view (d', j) (m.view (d, j)) (d, i) = m.view (d, i) :=
      Function.update_of_ne (by simp [hne]) _ _
    rw [hfrom]
    by_cases he : e = d' <;> by_cases hi : i = j <;> by_cases hl : i ∈ l <;> simp [he, hi, hl]

theorem Sane.newTable {m m₁ : Memory} (h : m.Sane) {d : PageIndex} (hd : 16 ≤ d.val) (hnone : m.userTable d = none)
    {t : Nat} (hfresh : m.Fresh t m₁)
    : (m₁.setEntry 0 d (Entry.make t)).Sane
        ∧ (m₁.setEntry 0 d (Entry.make t)).userTable = Function.update m.userTable d (some t)
        ∧ (m₁.setEntry 0 d (Entry.make t)).view = m.view
        ∧ (m₁.setEntry 0 d (Entry.make t)).mapping = (m.mapping.reserve t).attach (.table d) t := by
  have hzero : t ≠ 0 := ne_zero_of_low hfresh.low
  have hbound : t < 2 ^ 20 := lt_of_high h hfresh.high
  have htable : m₁.userTable = m.userTable := hfresh.userTable
  have hmapping : (m₁.setEntry 0 d (Entry.make t)).mapping = (m.mapping.reserve t).attach (.table d) t := by
    rw [mapping_setDir hd, hfresh.mapping, Entry.target_make hbound]
    . rfl
    . intro e t' ht'
      exact hfresh.sane.table_ne_zero ht'
    . rw [htable, hnone]
      simp [Blank]
    . rw [Entry.target_make hbound]
      intro t' ht'
      cases ht'
      refine ⟨hzero, ?_⟩
      intro i
      rw [hfresh.ram, Function.update_self]
  have hcases : ∀ j g, (m₁.setEntry 0 d (Entry.make t)).mapping.frame j = some g →
      j = .table d ∧ g = t ∨ m.mapping.frame j = some g := by
    intro j g hj
    rw [hmapping] at hj
    exact Sharing.Mapping.frame_attach hj
  refine ⟨?_, ?_, ?_, hmapping⟩
  . apply h.grow _ hcases hfresh.low hfresh.high
    . intro nr hnr hmem
      rw [← hfresh.highMemory]
      exact hfresh.sane.free nr hnr hmem
    . exact hfresh.highMemory
    . intro e i hk
      cases hk
    . rw [hmapping]
      apply (h.sound.reserve hfresh.unused).attach
      . exact hnone
      . exact hfresh.unused
      . exact Function.update_self _ _ _
  . rw [userTable_setDir m₁ hd, Entry.target_make hbound, htable]
  . funext k
    unfold view
    rw [hmapping, Sharing.Mapping.view_attach, Function.update_of_ne (by simp)]
    apply Sharing.Mapping.view_congr
    intro f hreserve
    have hf : m.mapping.frame (.page k) = some f := hreserve
    rw [ram_setEntry_of_ne m₁ (h.page_ne_zero hf), hfresh.ram_of_ne (hfresh.ne hf)]

theorem copyTable_refines {d d' : PageIndex} (hd : 16 ≤ d.val) (hd' : 16 ≤ d'.val)
    (hplace : d.val % 16 = d'.val % 16)
    : paging.Refines 1 (Memory.copyTable 1024 · d d') (Space.copyBlock · d d') := by
  intro m h
  have hsane : m.Sane := h
  unfold Memory.copyTable Space.copyBlock
  have hmapped : (paging.abs m).mapped d' = Entry.present (m.dir d') := by
    cases hto : Entry.present (m.dir d') with
    | false => exact congrArg Option.isSome (userTable_eq_none hto)
    | true => exact congrArg Option.isSome (userTable_eq_some hd' hto)
  dsimp only
  rw [hmapped]
  cases hto : Entry.present (m.dir d') with
  | true => exact .error _
  | false =>
    have hnone := userTable_eq_none hto
    simp only [Bool.false_eq_true, if_false]
    split
    . next hfrom =>
      cases hfree : m.getFreePage with
      | none => exact short_of_none (freePages_of_none hfree) Nat.one_pos _ _
      | some new =>
        obtain ⟨t', m₁⟩ := new
        have hfresh := hsane.getFreePage hfree
        obtain ⟨hsane₁, htable, hview, _⟩ := hsane.newTable hd' hnone hfresh
        have hne : d ≠ d' := by
          intro heq
          rw [heq, hto] at hfrom
          simp at hfrom
        have ht : (m₁.setEntry 0 d' (Entry.make t')).userTable d = some (m.table d) := by
          rw [htable, Function.update_of_ne hne]
          exact userTable_eq_some hd hfrom
        have ht' : (m₁.setEntry 0 d' (Entry.make t')).userTable d' = some t' := by
          rw [htable, Function.update_self]
        have hram : ∀ i ∈ List.finRange 1024, (m₁.setEntry 0 d' (Entry.make t')).ram t' i = 0 := by
          intro i _
          rw [ram_setEntry_of_ne m₁ (hsane₁.table_ne_zero ht'), hfresh.ram, Function.update_self]
        obtain ⟨hsane', htable', hview', hmem⟩ :=
          hsane₁.copyEntries ht ht' hne hplace (List.nodup_finRange 1024) hram
        dsimp only
        rw [List.take_of_length_le (by rw [List.length_finRange])]
        apply Abstraction.Agree.ok hsane'
        . apply space_eq
          . intro e
            rw [htable', htable]
            dsimp only
            by_cases he : e = d'
            . rw [he, Function.update_self, Function.update_self]
              exact (congrArg Option.isSome (userTable_eq_some hd hfrom)).symm
            . rw [Function.update_of_ne he, Function.update_of_ne he]
              rfl
          . intro e i
            rw [hview', hview]
            by_cases he : e = d' <;> simp [he] <;> rfl
        . rw [paging_left, paging_left, hfresh.freePages]
          apply Nat.add_le_add_right
          exact freePages_mono hmem
    . next hfrom =>
      have hnone' := userTable_eq_none ((Bool.not_eq_true _).mp hfrom)
      apply Abstraction.Agree.ok hsane
      . apply space_eq
        . intro e
          dsimp only
          by_cases he : e = d'
          . rw [he, Function.update_self, hnone]
            exact (congrArg Option.isSome hnone').symm
          . rw [Function.update_of_ne he]
            rfl
        . intro e i
          by_cases he : e = d'
          . rw [he, view_of_none hnone]
            simp only [if_true]
            exact (view_of_none hnone' i).symm
          . simp only [he, if_false]
            rfl
      . exact Nat.le_succ _

theorem Sane.putEntry {m : Memory} (h : m.Sane) {d : PageIndex} {t : Nat} (ht : m.userTable d = some t)
    {i : PageIndex} (hnone : m.mapping.frame (.page (d, i)) = none) {page : Nat} (hunused : m.mapping.Unused page)
    (hlow : lowFrame ≤ page) (hhigh : page < m.highMemory) (hone : m.mapping.count page = 1)
    : (m.setEntry t i (Entry.make page)).Sane
        ∧ (m.setEntry t i (Entry.make page)).view = Function.update m.view (d, i) (some (m.ram page)) := by
  have htable : (m.setEntry t i (Entry.make page)).userTable = m.userTable :=
    userTable_setPage m (h.table_ne_zero ht) _
  have hmapping : (m.setEntry t i (Entry.make page)).mapping = m.mapping.attach (.page (d, i)) page := by
    rw [h.mapping_entry ht, Entry.target_make (lt_of_high h hhigh), Entry.writable_make]
    rfl
  have hsane : (m.setEntry t i (Entry.make page)).Sane := by
    refine h.grow (k := .page (d, i)) (f := page) ?_ ?_ hlow hhigh ?_ ?_ ?_
    . rw [hmapping]
      exact h.sound.attach hnone hunused hone
    . intro j g hj
      rw [hmapping] at hj
      exact Sharing.Mapping.frame_attach hj
    . exact h.free
    . rfl
    . intro e j _ e' j' he'
      exact absurd he' (hunused _)
  refine ⟨hsane, ?_⟩
  funext j
  rw [view_of_ram (m := m) hsane (htable ▸ ht) (htable ▸ ht)]
  . rw [hmapping, Sharing.Mapping.view_attach, view_update]
  . intro f hf _
    exact ram_setEntry_of_ne m hf i _

theorem Sane.ownEntry {m : Memory} (h : m.Sane) {d : PageIndex} {t : Nat} (ht : m.userTable d = some t)
    {i : PageIndex} {f : Nat} (hframe : m.mapping.frame (.page (d, i)) = some f) (hone : m.mapping.count f = 1)
    : (m.setEntry t i (m.ram t i ||| 2)).Sane ∧ (m.setEntry t i (m.ram t i ||| 2)).userTable = m.userTable
        ∧ (m.setEntry t i (m.ram t i ||| 2)).view = m.view
        ∧ (m.setEntry t i (m.ram t i ||| 2)).mapping.writable (.page (d, i)) = true := by
  have htable : (m.setEntry t i (m.ram t i ||| 2)).userTable = m.userTable :=
    userTable_setPage m (h.table_ne_zero ht) _
  have hmapping : (m.setEntry t i (m.ram t i ||| 2)).mapping = m.mapping.own (.page (d, i)) := by
    rw [h.mapping_entry ht, Entry.target_set, Entry.writable_set, ← m.frame_page ht, Function.update_eq_self]
    rfl
  have hsane : (m.setEntry t i (m.ram t i ||| 2)).Sane := by
    apply h.shrink
    . rw [hmapping]
      exact h.sound.own hframe hone
    . rw [hmapping]
      exact fun _ _ hk => hk
    . exact h.free
    . rfl
  refine ⟨hsane, htable, ?_, ?_⟩
  . funext j
    rw [view_of_ram (m := m) hsane (htable ▸ ht) (htable ▸ ht), hmapping]
    . rfl
    . intro g hg _
      exact ram_setEntry_of_ne m hg i _
  . rw [hmapping]
    exact Function.update_self _ _ _

end Memory
end OS
