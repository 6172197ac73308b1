import ByDoing.OS.MemMapCount
import ByDoing.OS.UserRanges

namespace OS

namespace Memory
namespace Counted

variable {m : Memory} {held : List Nat} {managed : Nat → Prop}

theorem setPage (h : m.Counted held managed) {f : Nat} (hlow : lowFrame ≤ f) (hnot : ∀ d, m.userTable d ≠ some f)
    (c : Contents)
    : (m.setPage f c).Counted held managed := by
  have hzero := ne_zero_of_low hlow
  have hmapping := mapping_setPage hzero hnot c
  have hframe := @counted_congr m (m.setPage f c) (congrArg Sharing.Mapping.frame hmapping)
  have hone : 1 ≠ f := by
    unfold lowFrame at hlow
    omega
  apply h.keep
  . exact h.exact.congr hframe rfl
  . rw [hframe]
    exact h.aligned
  . rfl
  . exact h.free
  . rw [userTable_setPage m hzero]
    exact h.tables
  . rw [ram_setPage_of_ne m (Ne.symm hzero)]
  . exact ram_setPage_of_ne m hone c

theorem page_bound (h : m.Counted held managed) {page : Nat} (hpage : page ∈ held)
    : lowFrame ≤ page ∧ page < 2 ^ 20 := by
  obtain ⟨hlow, hhigh⟩ := h.range page (h.exact.managed_of_held page hpage)
  have hlt := Nat.lt_of_lt_of_le hhigh h.high
  unfold lowFrame PAGING_PAGES at hlt
  exact ⟨hlow, by omega⟩

theorem putEntry (h : m.Counted held managed) {d : PageIndex} {t : Nat} (ht : m.userTable d = some t)
    {i : PageIndex} (hnone : m.counted.frame (.page (d, i)) = none) {page : Nat} (hpage : page ∈ held)
    : (m.setEntry t i (Entry.make page)).Counted (held.erase page) managed
        ∧ (m.setEntry t i (Entry.make page)).userTable = m.userTable := by
  obtain ⟨hlow, hbound⟩ := h.page_bound hpage
  have hset := h.frame_setEntry ht rfl i (Entry.make page)
  rw [Entry.target_make hbound, show (some page).filter (fun f => lowFrame ≤ f) = some page by
    simp [Option.filter, hlow]] at hset
  have hresult := h.setEntry (n := m) ht rfl rfl h.free (h.exact.install hpage hnone hset rfl) (by
    apply h.aligned.grow (k := .page (d, i)) (f := page)
    . intro j g hj
      rw [hset] at hj
      exact Sharing.Mapping.frame_attach hj
    . intro e j _ e' j' he'
      exact absurd he' (h.exact.unused_of_held page hpage _))
  exact ⟨hresult.left, hresult.right.left⟩

theorem moveEntry (h : m.Counted held managed) {d : PageIndex} {t : Nat} (ht : m.userTable d = some t)
    {i : PageIndex} {f page : Nat} (hframe : m.counted.frame (.page (d, i)) = some f) (hpage : page ∈ held)
    : ((m.setMap (f - lowFrame) (m.memMap (f - lowFrame) - 1)).setEntry t i (Entry.make page)).Counted
          (held.erase page) managed
        ∧ ((m.setMap (f - lowFrame) (m.memMap (f - lowFrame) - 1)).setEntry t i (Entry.make page)).userTable
          = m.userTable := by
  have hmanaged := h.exact.managed_of_frame _ f hframe
  obtain ⟨hlow, hbound⟩ := h.page_bound hpage
  obtain ⟨_, hcount⟩ := h.freePage hmanaged (h.exact.count_pos hframe)
  have hset := h.frame_setEntry ht (n := m.setMap (f - lowFrame) (m.memMap (f - lowFrame) - 1)) rfl i
    (Entry.make page)
  rw [Entry.target_make hbound, show (some page).filter (fun f => lowFrame ≤ f) = some page by
    simp [Option.filter, hlow]] at hset
  have hexact : ((m.setMap (f - lowFrame) (m.memMap (f - lowFrame) - 1)).setEntry t i
      (Entry.make page)).counted.Exact (held.erase page) PageKey.IsTable managed :=
    h.exact.move hframe hpage hset hcount
  have haligned : Aligned ((m.setMap (f - lowFrame) (m.memMap (f - lowFrame) - 1)).setEntry t i
      (Entry.make page)).counted.frame := by
    apply h.aligned.grow (k := .page (d, i)) (f := page)
    . intro j g hj
      rw [hset] at hj
      exact Sharing.Mapping.frame_attach hj
    . intro e j _ e' j' he'
      exact absurd he' (h.exact.unused_of_held page hpage _)
  have hresult := h.setEntry ht (n := m.setMap (f - lowFrame) (m.memMap (f - lowFrame) - 1)) rfl rfl
    (fun nr hnr => h.free_setMap hmanaged _ hnr) hexact haligned
  exact ⟨hresult.left, hresult.right.left⟩

theorem unWpPage {m' : Memory} (h : m.Counted held managed) {d : PageIndex} {t : Nat}
    (ht : m.userTable d = some t) {i : PageIndex} (hp : Entry.present (m.ram t i) = true)
    (hok : m.unWpPage t i = .ok m')
    : m'.Counted held managed := by
  have htarget : m.mapping.frame (.page (d, i)) = some (Entry.frame (m.ram t i)) := by
    rw [m.frame_page ht, Entry.target_of_present hp]
  unfold Memory.unWpPage at hok
  dsimp only at hok
  split at hok
  . rw [Except.ok.injEq] at hok
    rw [← hok]
    refine (h.setEntry_same ht i _ ?_).left
    rw [Entry.target_set, ← m.frame_page ht]
    rfl
  . split at hok
    . cases hok
    . next new m₁ hfree =>
      have hnew := h.getFreePage hfree
      have hmem : new ∈ new :: held := List.mem_cons_self
      have ht₁ : m₁.userTable d = some t := (congrFun hnew.frame_eq (.table d)).trans ht
      have hframe₁ := counted_congr hnew.frame_eq
      have hlow' := (hnew.counted.page_bound hmem).left
      have hnot : ∀ e, m₁.userTable e ≠ some new := by
        intro e he
        exact hnew.counted.exact.unused_of_held new hmem _ (hnew.counted.table_frame he)
      rw [Except.ok.injEq] at hok
      rw [← hok]
      generalize Entry.frame (m.ram t i) = f at htarget
      by_cases hlow : lowFrame ≤ f
      . rw [if_pos hlow]
        have hframe : m₁.counted.frame (.page (d, i)) = some f := by
          rw [hframe₁]
          exact counted_frame.mpr ⟨htarget, hlow⟩
        obtain ⟨hcounted, htable⟩ := hnew.counted.moveEntry ht₁ hframe hmem
        rw [List.erase_cons_head] at hcounted
        exact hcounted.setPage hlow' (htable ▸ hnot) _
      . rw [if_neg hlow]
        have hnone : m₁.counted.frame (.page (d, i)) = none := by
          rw [hframe₁]
          apply counted_none
          intro g hg
          rw [htarget, Option.some.injEq] at hg
          omega
        obtain ⟨hcounted, htable⟩ := hnew.counted.putEntry ht₁ hnone hmem
        rw [List.erase_cons_head] at hcounted
        exact hcounted.setPage hlow' (htable ▸ hnot) _

theorem putPage {m' : Memory} (h : m.Counted held managed) {address : UserAddress}
    (hnone : m.mapping.frame (.page address.key) = none) {page : Nat} (hpage : page ∈ held)
    (hok : m.putPage page address.val = .ok m')
    : m'.Counted (held.erase page) managed := by
  unfold Memory.putPage at hok
  split at hok
  . next hdir =>
    have ht := userTable_eq_some address.le_dirOf hdir
    rw [Except.ok.injEq] at hok
    rw [← hok]
    refine (h.putEntry ht (counted_none ?_) hpage).left
    intro f hf
    exact absurd (hnone.symm.trans hf) (by simp)
  . next hdir =>
    have htable := userTable_eq_none ((Bool.not_eq_true _).mp hdir)
    split at hok
    . cases hok
    . next t m₁ hfree =>
      have hnew := h.getFreePage hfree
      obtain ⟨hcounted, htable₁, hblank, _⟩ := h.newTable address.le_dirOf htable hnew
      have ht : (m₁.setEntry 0 (dirOf address.val) (Entry.make t)).userTable (dirOf address.val) = some t := by
        rw [htable₁, Function.update_self]
      rw [Except.ok.injEq] at hok
      rw [← hok]
      exact (hcounted.putEntry ht (frame_of_blank ht (hblank _)) hpage).left

theorem trySharing {m' : Memory} {b : Bool} (h : m.Counted held managed) {d d' : PageIndex} {t t' : Nat}
    (ht : m.userTable d = some t) (ht' : m.userTable d' = some t') (hplace : d.val % 16 = d'.val % 16)
    {i : PageIndex} (hp : Entry.present (m.ram t i) = true) (hlow : lowFrame ≤ Entry.frame (m.ram t i))
    (hok : m.shareEntry t t' i = .ok (b, m'))
    : m'.Counted held managed := by
  unfold Memory.shareEntry at hok
  split at hok
  . cases hok
  . next hto =>
    dsimp only at hok
    rw [Except.ok.injEq, Prod.mk.injEq] at hok
    rw [← hok.right, Entry.frame_clear]
    have hframe : m.counted.frame (.page (d, i)) = some (Entry.frame (m.ram t i)) :=
      counted_frame.mpr ⟨by rw [m.frame_page ht, Entry.target_of_present hp], hlow⟩
    refine (h.shareEntry ht ht' hplace hframe (counted_none ?_) ?_ rfl).left
    . intro f hf
      rw [m.frame_page ht', Entry.target, if_neg hto] at hf
      cases hf
    . rw [Entry.target_clear, Entry.target_of_present hp]

theorem present_of_clean {entry : Word} (h : entry &&& 0x41 = 0x01) : Entry.present entry = true := by
  rw [Entry.present_eq]
  have hbit := congrArg (fun w => w.getLsbD 0) h
  simp only [BitVec.getLsbD_and] at hbit
  simpa using hbit

theorem dirOf_data (address : DataAddress) : (dirOf address.val).val < 16 := by
  have hlt := BitVec.lt_def.mp address.property
  rw [show TASK_SIZE.toNat = 0x4000000 from rfl] at hlt
  unfold dirOf
  simp only [Fin.ofNat, BitVec.toNat_ushiftRight, Nat.shiftRight_eq_div_pow]
  omega

theorem tryToShare {m' : Memory} {b : Bool} (h : m.Counted held managed) (address : DataAddress)
    {p current : UserSlot} (hne : p ≠ current) (hok : m.tryToShare address.val p.base current.base = .ok (b, m'))
    : m'.Counted held managed := by
  have hlt := dirOf_data address
  have hplace : (p.block (dirOf address.val).val).val % 16 = (current.block (dirOf address.val).val).val % 16 := by
    rw [p.block_val hlt, current.block_val hlt]
    omega
  have hdirs : p.block (dirOf address.val).val ≠ current.block (dirOf address.val).val := by
    intro heq
    have hval := congrArg Fin.val heq
    rw [p.block_val hlt, current.block_val hlt] at hval
    exact hne (Subtype.ext (Fin.ext (by omega)))
  have hfrom := p.le_block hlt
  have hto := current.le_block hlt
  unfold Memory.tryToShare at hok
  rw [Nat.add_comm, p.dirAt_base hlt, Nat.add_comm, current.dirAt_base hlt] at hok
  generalize p.block (dirOf address.val).val = d at hok hplace hdirs hfrom
  generalize current.block (dirOf address.val).val = d' at hok hplace hdirs hto
  simp only [bind, Except.bind, pure, Except.pure] at hok
  have hsame : ∀ {b'}, (.ok (b', m) : Except MemError (Bool × Memory)) = .ok (b, m') → m'.Counted held managed := by
    intro b' heq
    rw [Except.ok.injEq, Prod.mk.injEq] at heq
    exact heq.right ▸ h
  split at hok
  . exact hsame hok
  . next hdir =>
    have hdir : Entry.present (m.dir d) = true := by simpa using hdir
    have ht := userTable_eq_some hfrom hdir
    split at hok
    . exact hsame hok
    . next hclean =>
      have hp := present_of_clean (Decidable.not_not.mp hclean)
      split at hok
      . exact hsame hok
      . next hrange =>
        have hlow : lowFrame ≤ Entry.frame (m.ram (m.table d) (entryOf address.val)) := by omega
        split at hok
        . next hdir' => exact h.trySharing ht (userTable_eq_some hto hdir') hplace hp hlow hok
        . next hdir' =>
          have hnone := userTable_eq_none ((Bool.not_eq_true _).mp hdir')
          split at hok
          . cases hok
          . next t' m₁ hfree =>
            have hnew := h.getFreePage hfree
            obtain ⟨hcounted, htable, _, hram⟩ := h.newTable hto hnone hnew
            have hram' : (m₁.setEntry 0 d' (Entry.make t')).ram (m.table d) = m.ram (m.table d) := by
              apply hram
              . exact h.table_ne_zero ht
              . intro heq
                exact (h.exact.unreferenced hnew.managed_page hnew.count_eq).left _ (heq ▸ h.table_frame ht)
            apply hcounted.trySharing _ _ hplace _ _ hok
            . rw [htable, Function.update_of_ne hdirs]
              exact ht
            . rw [htable, Function.update_self]
            . rw [hram']
              exact hp
            . rw [hram']
              exact hlow

theorem freeHeld (h : m.Counted held managed) {page : Nat} (hpage : page ∈ held)
    : ∃ m', m.freePage page = .ok m' ∧ m'.Counted (held.erase page) managed := by
  have hmanaged := h.exact.managed_of_held page hpage
  have hone := h.exact.count_held hpage
  obtain ⟨hok, hcount⟩ := h.freePage hmanaged (by omega)
  have hframe : (m.setMap (page - lowFrame) (m.memMap (page - lowFrame) - 1)).counted.frame = m.counted.frame := rfl
  refine ⟨_, hok, ?_⟩
  apply h.keep
  . exact h.exact.put hpage hframe hcount
  . exact h.aligned
  . rfl
  . intro nr hnr
    exact h.free_setMap hmanaged _ hnr
  . exact h.tables
  . rfl
  . rfl

theorem freePageTables (h : m.Counted held managed) (nr : UserSlot) (size : RangeSize)
    : ∃ m', m.freePageTables nr.base size.val = .ok m' ∧ m'.Counted held managed := by
  unfold Memory.freePageTables
  simp only [nr.base_aligned, nr.base_ne_zero, ne_eq, not_true_eq_false, if_false]
  have hlt : ∀ j ∈ List.range (Memory.tables size.val), j < 16 := by
    intro j hj
    exact Nat.lt_of_lt_of_le (List.mem_range.mp hj) size.tables_le
  generalize List.range (Memory.tables size.val) = js at hlt
  induction js generalizing m with
  | nil => exact ⟨m, rfl, h⟩
  | cons j js ih =>
    have hj := hlt j List.mem_cons_self
    obtain ⟨m₁, hok, h₁⟩ := h.freeTable (nr.le_block hj)
    obtain ⟨m', hok', h'⟩ := ih h₁ fun j' hj' => hlt j' (List.mem_cons_of_mem j hj')
    refine ⟨m', ?_, h'⟩
    rw [List.foldlM_cons, nr.dirAt_base hj]
    show (m.freeTable (nr.block j) >>= _) = _
    rw [hok]
    exact hok'

theorem copyPart (h : m.Counted held managed) (from_ to_ : UserSlot) (size : RangeSize)
    : (m.copyPageTablesPart from_.base to_.base size.val).fst.Counted held managed := by
  unfold copyPageTablesPart
  split
  . exact h
  . apply h.copyTables
    intro j hj d d' hd hd'
    have hlt : j < 16 := Nat.lt_of_lt_of_le (List.mem_range.mp hj) size.tables_le
    rw [from_.dirAt_base hlt, Except.ok.injEq] at hd
    rw [to_.dirAt_base hlt, Except.ok.injEq] at hd'
    rw [← hd, ← hd']
    refine ⟨to_.le_block hlt, .inl ⟨from_.le_block hlt, ?_⟩⟩
    rw [from_.block_val hlt, to_.block_val hlt]
    omega

theorem copyFirst (h : m.Counted held managed) (to_ : UserSlot)
    : (m.copyPageTablesPart 0 to_.base 0xa0000).fst.Counted held managed := by
  unfold copyPageTablesPart
  split
  . exact h
  . apply h.copyTables
    intro j hj d d' hd hd'
    rw [show Memory.tables 0xa0000 = 1 from rfl, List.mem_range] at hj
    have hzero : j = 0 := by omega
    subst hzero
    rw [to_.dirAt_base (by omega), Except.ok.injEq] at hd'
    rw [show dirAt ((dirOf 0).val + 0) = .ok 0 from rfl, Except.ok.injEq] at hd
    rw [← hd, ← hd']
    exact ⟨to_.le_block (by omega), .inr ⟨rfl, rfl⟩⟩

end Counted

theorem copyTables_error {nr : Nat} {from_ to_ : Word} {js : List Nat} {m : Memory} {e : MemError}
    (h : (copyTables nr from_ to_ js m).snd = some e)
    : e ≠ .freePage := by
  induction js generalizing m with
  | nil => cases h
  | cons j js ih =>
    unfold copyTables at h
    split at h
    . split at h
      . exact ih h
      . next herror =>
        cases h
        intro heq
        subst heq
        unfold copyTable at herror
        split at herror
        . cases herror
        . split at herror
          . dsimp only at herror
            split at herror <;> cases herror
          . cases herror
    . cases h
      intro heq
      cases heq

theorem target_mark (entry : Word) : Entry.target (entry ||| 0x60) = Entry.target entry := by
  have hpresent : Entry.present (entry ||| 0x60) = Entry.present entry := by
    rw [Entry.present_eq, Entry.present_eq, BitVec.getLsbD_or, show (0x60 : Word).getLsbD 0 = false from rfl,
      Bool.or_false]
  have hframe : Entry.frame (entry ||| 0x60) = Entry.frame entry := by
    rw [Entry.frame_eq, Entry.frame_eq]
    congr 1
    apply BitVec.eq_of_getLsbD_eq
    intro i hi
    rw [BitVec.getLsbD_ushiftRight, BitVec.getLsbD_ushiftRight, BitVec.getLsbD_or]
    have hmask : ∀ i < 32, (0x60 : Word).getLsbD (12 + i) = false := by decide
    rw [hmask i hi, Bool.or_false]
  unfold Entry.target
  rw [hpresent, hframe]

theorem card_sharers (m : Memory) {f : Nat} (hlow : lowFrame ≤ f)
    : (m.counted.sharers f).card = m.entryRefs f + m.tableRefs f := by
  unfold entryRefs tableRefs
  apply Sharing.Mapping.card_sharers_of_kinds (a := PageKey.page) (b := PageKey.table)
  . intro k k' h
    exact PageKey.page.inj h
  . intro d d' h
    exact PageKey.table.inj h
  . intro k d h
    cases h
  . intro k
    cases k with
    | table d => exact .inr ⟨d, rfl⟩
    | page k => exact .inl ⟨k, rfl⟩
  . intro k
    rw [counted_frame, Finset.mem_filter_univ]
    exact ⟨fun h => ⟨h, hlow⟩, And.left⟩
  . intro d
    rw [counted_frame, Finset.mem_filter_univ]
    exact ⟨fun h => ⟨h, hlow⟩, And.left⟩

end Memory

namespace KernelBoot

-- The pages that `mem_init` marks as free.
def Managed (b : KernelBoot) (f : Nat) : Prop :=
  let i := (b.startMem - LOW_MEM.toNat) / 4096
  lowFrame + i ≤ f ∧ f < lowFrame + i + (b.endMem - b.startMem) / 4096

theorem counted_frame_eq_none (b : KernelBoot) (k : PageKey) : b.toBoot.memory.counted.frame k = none := by
  apply Memory.counted_none
  intro f hf
  rw [b.frame_eq_none] at hf
  cases hf

theorem managed_bound (b : KernelBoot) {f : Nat} (h : b.Managed f)
    : lowFrame ≤ f ∧ f < b.endMem / 4096 := by
  unfold Managed at h
  obtain ⟨hlow, hlt⟩ := h
  refine ⟨by omega, ?_⟩
  have hstart := b.low_le
  have hend := b.boundary
  rw [show lowFrame = 256 by unfold lowFrame; rfl] at hlow hlt
  rw [show LOW_MEM.toNat = 0x100000 from rfl] at hlow hlt hstart
  omega

theorem counted_init (b : KernelBoot) : b.toBoot.memory.Counted [] b.Managed := by
  have hnone := b.counted_frame_eq_none
  constructor
  . constructor
    . intro f hf
      have hsharers : b.toBoot.memory.counted.sharers f = ∅ := by
        apply Finset.eq_empty_of_forall_notMem
        intro k hk
        rw [Sharing.Mapping.mem_sharers, hnone] at hk
        cases hk
      have hlow := (b.managed_bound hf).left
      rw [hsharers, Finset.card_empty, List.count_nil]
      show (if f < lowFrame then 0 else (b.toBoot.memory.memMap (f - lowFrame)).toNat) = 0
      rw [if_neg (by omega)]
      obtain ⟨hle, hlt⟩ := hf
      unfold Boot.memory Memory.memInit
      dsimp only at hle hlt ⊢
      rw [if_pos ⟨by omega, by omega⟩]
      rfl
    . intro k f hf
      rw [hnone] at hf
      cases hf
    . intro f hf
      cases hf
    . intro f hf
      cases hf
    . exact List.nodup_nil
    . intro k k' f _ hf
      rw [hnone] at hf
      cases hf
  . intro f hf
    exact b.managed_bound hf
  . have hend := b.le_high
    show b.endMem / 4096 ≤ lowFrame + PAGING_PAGES
    unfold lowFrame PAGING_PAGES
    omega
  . intro nr _ hzero
    unfold Boot.memory Memory.memInit at hzero
    dsimp only at hzero
    split at hzero
    . next h => exact ⟨by omega, by omega⟩
    . exact absurd hzero (by decide)
  . intro d t ht
    have hframe := b.frame_eq_none (.table d)
    exact absurd (hframe.symm.trans ht) (by simp)
  . intro d i d' i' f hf
    rw [hnone] at hf
    cases hf
  . exact b.pgDir 0 (by decide)
  . intro i _
    have hpage := b.identity 0 i (by decide)
    rw [show (0 : PageIndex).val = 0 from rfl, Nat.mul_zero, Nat.zero_add, Nat.zero_add] at hpage
    exact hpage

end KernelBoot

namespace PageRun

theorem copied_counted {b : KernelBoot} {s s' : PageRun} {r : Memory × Option MemError}
    (h : r.fst.Counted s.held b.Managed) (hstep : s.copied r = .ok s')
    : s'.memory.Counted s'.held b.Managed := by
  unfold copied at hstep
  split at hstep
  . cases hstep
    exact h
  . cases hstep
    exact h
  . cases hstep

theorem present_of_translate {m : Memory} {address : UserAddress} (h : (m.translate address.val).isSome)
    : m.userTable (Memory.dirOf address.val) = some (m.table (Memory.dirOf address.val))
        ∧ Entry.present (m.ram (m.table (Memory.dirOf address.val)) (Memory.entryOf address.val)) = true := by
  unfold Memory.translate at h
  split at h
  . next hdir =>
    refine ⟨Memory.userTable_eq_some address.le_dirOf hdir, ?_⟩
    dsimp only at h
    split at h
    . assumption
    . cases h
  . cases h

theorem tryToShare_ok {s s' : PageRun} {address p current : Word} (h : s.tryToShare address p current = .ok s')
    : s' = s
        ∨ ∃ shared m, s.memory.tryToShare address p current = .ok (shared, m) ∧ s' = { s with memory := m } := by
  unfold PageRun.tryToShare at h
  split at h
  . next shared m hok =>
    cases h
    exact .inr ⟨shared, m, hok, rfl⟩
  . cases h
    exact .inl rfl
  . cases h

theorem step_counted {b : KernelBoot} {s s' : PageRun} {a : MapAct} (h : s.memory.Counted s.held b.Managed)
    (hallowed : s.Allowed a) (hstep : s.step a = .ok s')
    : s'.memory.Counted s'.held b.Managed := by
  cases a with
  | getFreePage =>
    rw [step, Except.ok.injEq] at hstep
    rw [← hstep]
    unfold PageRun.getFreePage
    split
    . exact h
    . next page m hfree => exact (h.getFreePage hfree).counted
  | freePage page =>
    obtain ⟨m, hok, hcounted⟩ := h.freeHeld hallowed
    simp only [step, hok] at hstep
    cases hstep
    exact hcounted
  | putPage page address =>
    rw [step, Except.ok.injEq] at hstep
    rw [← hstep]
    unfold PageRun.putPage
    split
    . next m hok =>
      apply h.putPage _ hallowed.left hok
      rcases s.memory.translate_cases address with ⟨_, hframe⟩ | ⟨entry, htranslate, _⟩
      . exact hframe
      . rw [hallowed.right] at htranslate
        cases htranslate
    . exact h
  | copyFirst to_ => exact copied_counted (h.copyFirst to_) hstep
  | copy from_ to_ size => exact copied_counted (h.copyPart from_ to_ size) hstep
  | unWpPage address =>
    rw [step, Except.ok.injEq] at hstep
    rw [← hstep]
    unfold PageRun.unWpPage
    split
    . next m hok =>
      obtain ⟨ht, hp⟩ := present_of_translate hallowed
      exact h.unWpPage ht hp hok
    . exact h
  | tryToShare address p current =>
    rcases tryToShare_ok hstep with rfl | ⟨shared, m, hok, rfl⟩
    . exact h
    . exact h.tryToShare address hallowed hok
  | freePageTables nr size =>
    obtain ⟨m, hok, hcounted⟩ := h.freePageTables nr size
    simp only [step, hok] at hstep
    cases hstep
    exact hcounted
  | mark address =>
    rw [step, Except.ok.injEq] at hstep
    rw [← hstep]
    obtain ⟨ht, _⟩ := present_of_translate hallowed
    refine (h.setEntry_same ht _ _ ?_).left
    rw [Memory.target_mark, ← s.memory.frame_page ht]
    rfl
  | store page contents =>
    rw [step, Except.ok.injEq] at hstep
    rw [← hstep]
    exact h.setPage hallowed.left hallowed.right contents

theorem copied_error {s : PageRun} {r : Memory × Option MemError} (h : ∀ e, r.snd = some e → e ≠ .freePage)
    : s.copied r ≠ .error .freePage := by
  intro herror
  unfold copied at herror
  split at herror
  . cases herror
  . cases herror
  . next e _ =>
    exact h e rfl (Except.error.inj herror)

theorem copyPart_error {m : Memory} {from_ to_ size : Word} {e : MemError}
    (h : (m.copyPageTablesPart from_ to_ size).snd = some e)
    : e ≠ .freePage := by
  unfold Memory.copyPageTablesPart at h
  split at h
  . cases h
    intro heq
    cases heq
  . exact Memory.copyTables_error h

theorem dirAt_error {d : Nat} {e : MemError} (h : Memory.dirAt d = .error e) : e = .pastDirectory := by
  unfold Memory.dirAt at h
  split at h
  . cases h
  . exact (Except.error.inj h).symm

theorem shareEntry_error {m : Memory} {fromTable toTable : Nat} {i : PageIndex} {e : MemError}
    (h : m.shareEntry fromTable toTable i = .error e)
    : e = .alreadyExist := by
  unfold Memory.shareEntry at h
  split at h
  . exact (Except.error.inj h).symm
  . cases h

theorem tryToShare_error {m : Memory} {address p current : Word}
    : m.tryToShare address p current ≠ .error .freePage := by
  intro h
  unfold Memory.tryToShare at h
  simp only [bind, Except.bind, pure, Except.pure] at h
  split at h
  . next herror =>
    rw [Except.error.inj h] at herror
    cases dirAt_error herror
  . split at h
    . next herror =>
      rw [Except.error.inj h] at herror
      cases dirAt_error herror
    . split at h
      . cases h
      . split at h
        . cases h
        . split at h
          . cases h
          . split at h
            . cases shareEntry_error h
            . split at h
              . cases h
              . cases shareEntry_error h

theorem step_error {b : KernelBoot} {s : PageRun} {a : MapAct} (h : s.memory.Counted s.held b.Managed)
    (hallowed : s.Allowed a)
    : s.step a ≠ .error .freePage := by
  intro herror
  cases a with
  | freePage page =>
    obtain ⟨m, hok, _⟩ := h.freeHeld hallowed
    simp only [step, hok] at herror
    cases herror
  | copyFirst to_ => exact copied_error (fun _ => copyPart_error) herror
  | copy from_ to_ size => exact copied_error (fun _ => copyPart_error) herror
  | tryToShare address p current =>
    rw [step, PageRun.tryToShare] at herror
    split at herror
    . cases herror
    . cases herror
    . next hshare =>
      cases herror
      exact tryToShare_error hshare
  | freePageTables nr size =>
    obtain ⟨m, hok, _⟩ := h.freePageTables nr size
    simp only [step, hok] at herror
    cases herror
  | _ =>
    rw [step] at herror
    exact absurd herror (by simp)

theorem counted_of_reaches {b : KernelBoot} {s : PageRun}
    (h : Run.Reaches (fun s a => (s.step a).toOption) Allowed (init b) s)
    : s.memory.Counted s.held b.Managed := by
  apply h.invariant (fun s => s.memory.Counted s.held b.Managed)
  . exact b.counted_init
  . intro s s' a hcounted hallowed hstep
    exact step_counted hcounted hallowed (Run.ok_of_toOption hstep)

/--
In every state of every run `mem_map` holds the number of the references to each page, so that no count has wrapped,
`free_page` never panics, and `get_free_page` returns only pages without a reference.
-/
theorem refs_counted {b : KernelBoot} {s : PageRun}
    (h : Run.Reaches (fun s a => (s.step a).toOption) Allowed (init b) s)
    : (∀ f, b.Managed f →
          (s.memory.memMap (f - lowFrame)).toNat = s.memory.entryRefs f + s.memory.tableRefs f + s.held.count f)
        ∧ (∀ a, s.Allowed a → s.step a ≠ .error .freePage)
        ∧ ∀ page m, s.memory.getFreePage = some (page, m) →
          b.Managed page ∧ s.memory.entryRefs page = 0 ∧ s.memory.tableRefs page = 0 ∧ page ∉ s.held := by
  have hcounted := counted_of_reaches h
  have hcount : ∀ f, b.Managed f → s.memory.counted.count f = (s.memory.memMap (f - lowFrame)).toNat := by
    intro f hf
    have hlow := (b.managed_bound hf).left
    exact if_neg (by omega)
  have hrefs : ∀ f, b.Managed f →
      (s.memory.memMap (f - lowFrame)).toNat = s.memory.entryRefs f + s.memory.tableRefs f + s.held.count f := by
    intro f hf
    have hlow := (b.managed_bound hf).left
    rw [← hcount f hf, hcounted.exact.count_eq f hf, Memory.card_sharers _ hlow]
  refine ⟨hrefs, ?_, ?_⟩
  . intro a
    exact step_error hcounted
  . intro page m hfree
    have hnew := hcounted.getFreePage hfree
    have hsum := hrefs page hnew.managed_page
    rw [← hcount page hnew.managed_page, hnew.count_eq] at hsum
    exact ⟨hnew.managed_page, by omega, by omega, List.count_eq_zero.mp (by omega)⟩

end PageRun

namespace KernelBoot

def plain : KernelBoot :=
  {
    ram := fun f i =>
      if f = 0 then
        if i.val < 4 then Entry.make (i.val + 1) else 0
      else
        if f ≤ 4 then Entry.make (1024 * (f - 1) + i.val) else 0
    startMem := 0x100000
    endMem := 0x1000000
    low_le := Boot.blank.low_le
    le_high := Boot.blank.le_high
    boundary := Boot.blank.boundary
    unmapped := by
      intro d hd
      rw [if_pos rfl, if_neg (by omega)]
    pgDir := by
      intro d hd
      rw [if_pos rfl, if_pos hd]
    identity := by
      intro d i hd
      rw [if_neg (by omega), if_pos (by omega), Nat.add_sub_cancel]
  }

theorem managed_plain : plain.Managed 512 := by
  unfold Managed lowFrame
  decide

theorem managed_plain_last : plain.Managed 4095 := by
  unfold Managed lowFrame
  decide

end KernelBoot

namespace PageRun

instance (s : PageRun) (a : MapAct) : Decidable (s.Allowed a) :=
  match a with
  | .freePage page => inferInstanceAs (Decidable (page ∈ s.held))
  | .putPage page address => inferInstanceAs (Decidable (page ∈ s.held ∧ s.memory.translate address.val = none))
  | .unWpPage address | .mark address => inferInstanceAs (Decidable ((s.memory.translate address.val).isSome))
  | .tryToShare _ p current => inferInstanceAs (Decidable (p ≠ current))
  | .store page _ => inferInstanceAs (Decidable (lowFrame ≤ page ∧ ∀ d, s.memory.userTable d ≠ some page))
  | .getFreePage | .copyFirst _ | .copy _ _ _ | .freePageTables _ _ => isTrue trivial

def sharedRun : List MapAct :=
  [.getFreePage, .putPage 4095 ⟨3 * TASK_SIZE, by decide⟩, .tryToShare ⟨0, by decide⟩ ⟨3, by decide⟩ ⟨4, by decide⟩]

theorem refs_counted_sharedRun
    : ∃ s, Run.Reaches (fun s a => (s.step a).toOption) Allowed (init .plain) s
        ∧ s.memory.entryRefs 4095 + s.memory.tableRefs 4095 + s.held.count 4095 = 2 := by
  have hcount : (Run.exec (fun s a => (s.step a).toOption) (init .plain) sharedRun).map
      (fun s => (s.memory.memMap (4095 - lowFrame)).toNat) = some 2 := by
    decide +kernel
  obtain ⟨s, hexec, hcount⟩ := Option.map_eq_some_iff.mp hcount
  have hreaches : Run.Reaches (fun s a => (s.step a).toOption) Allowed (init .plain) s := by
    apply Run.Reaches.of_exec _ hexec
    decide +kernel
  have hrefs := (refs_counted hreaches).left 4095 KernelBoot.managed_plain_last
  exact ⟨s, hreaches, by omega⟩

-- The page tables of the kernel map every page, and these entries are not counted.
theorem refs_identity
    : ∃ s f, Run.Reaches (fun s a => (s.step a).toOption) Allowed (init .plain) s ∧ KernelBoot.plain.Managed f
        ∧ (s.memory.memMap (f - lowFrame)).toNat
          ≠ s.memory.allEntryRefs f + s.memory.allTableRefs f + s.held.count f := by
  refine ⟨init .plain, 512, .refl, KernelBoot.managed_plain, ?_⟩
  have hzero : ((init .plain).memory.memMap (512 - lowFrame)).toNat = 0 := by
    unfold lowFrame
    decide
  have hpos : 0 < (init .plain).memory.allEntryRefs 512 := by
    apply Finset.card_pos.mpr
    refine ⟨(0, ⟨512, by decide⟩), ?_⟩
    rw [Finset.mem_filter_univ]
    decide
  omega

end PageRun
end OS
