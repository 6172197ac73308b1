import ByDoing.OS.CopyOnWrite

namespace OS

namespace Memory

theorem Fresh.fill {m m₁ : Memory} {page : Nat} (hfresh : m.Fresh page m₁) (contents : Contents)
    : (m₁.setPage page contents).Sane ∧ (m₁.setPage page contents).userTable = m.userTable
        ∧ (m₁.setPage page contents).view = m.view
        ∧ (m₁.setPage page contents).mapping = m.mapping.reserve page := by
  have hzero : page ≠ 0 := ne_zero_of_low hfresh.low
  have hmapping : (m₁.setPage page contents).mapping = m₁.mapping := by
    apply mapping_setPage hzero
    intro d
    rw [hfresh.userTable]
    exact hfresh.unused (.table d)
  refine ⟨?_, ?_, ?_, hmapping.trans hfresh.mapping⟩
  . apply hfresh.sane.shrink
    . rw [hmapping]
      exact hfresh.sane.sound
    . rw [hmapping]
      exact fun _ _ hk => hk
    . exact hfresh.sane.free
    . rfl
  . rw [userTable_setPage m₁ hzero, hfresh.userTable]
  . funext k
    unfold view
    rw [hmapping, hfresh.mapping]
    apply Sharing.Mapping.view_congr
    intro f hreserved
    have hf : m.mapping.frame (.page k) = some f := hreserved
    rw [ram_setPage_of_ne m₁ (hfresh.ne hf), hfresh.ram_of_ne (hfresh.ne hf)]

theorem Sane.putPage {m : Memory} (h : m.Sane) {address : UserAddress}
    (hnone : m.mapping.frame (.page address.key) = none) {page : Nat} (hunused : m.mapping.Unused page)
    (hlow : lowFrame ≤ page) (hhigh : page < m.highMemory) (hone : m.mapping.count page = 1)
    : (m.putPage page address.val = .error .outOfMemory ∧ m.freePages = 0)
        ∨ ∃ m', m.putPage page address.val = .ok m' ∧ m'.Sane
          ∧ (∀ d, (m'.userTable d).isSome = Function.update m.space.mapped address.key.fst true d)
          ∧ m'.view = Function.update m.view address.key (some (m.ram page))
          ∧ m.freePages ≤ m'.freePages + 1 := by
  unfold Memory.putPage
  cases hdir : Entry.present (m.dir (dirOf address.val)) with
  | true =>
    have ht := userTable_eq_some address.le_dirOf hdir
    obtain ⟨hsane, hview⟩ := h.putEntry ht hnone hunused hlow hhigh hone
    refine .inr ⟨_, rfl, hsane, ?_, hview, ?_⟩
    . intro d
      rw [show (m.setEntry _ _ _).userTable = m.userTable from userTable_setPage m (h.table_ne_zero ht) _]
      by_cases hd : d = address.key.fst
      . rw [hd, Function.update_self]
        exact congrArg Option.isSome ht
      . rw [Function.update_of_ne hd]
        rfl
    . rw [freePages_setEntry]
      exact Nat.le_succ _
  | false =>
    have htable := userTable_eq_none hdir
    cases hfree : m.getFreePage with
    | none => exact .inl ⟨rfl, freePages_of_none hfree⟩
    | some new =>
      obtain ⟨t, m₁⟩ := new
      have hfresh := h.getFreePage hfree
      obtain ⟨hsane₁, htable₁, hview₁, hmapping₁⟩ := h.newTable address.le_dirOf htable hfresh
      -- The page is in use, so it is not the new page table.
      have hne : page ≠ t := by
        intro heq
        rw [count_eq hlow, heq, hfresh.zero] at hone
        simp at hone
      have ht : (m₁.setEntry 0 (dirOf address.val) (Entry.make t)).userTable (dirOf address.val) = some t := by
        rw [htable₁, Function.update_self]
      have hnone₁ : (m₁.setEntry 0 (dirOf address.val) (Entry.make t)).mapping.frame
          (.page (dirOf address.val, entryOf address.val)) = none := by
        rw [hmapping₁]
        exact hnone
      have hunused₁ : (m₁.setEntry 0 (dirOf address.val) (Entry.make t)).mapping.Unused page := by
        intro k hk
        rw [hmapping₁] at hk
        rcases Sharing.Mapping.frame_attach hk with ⟨_, heq⟩ | hold
        . exact hne heq
        . exact hunused k hold
      have hone₁ : (m₁.setEntry 0 (dirOf address.val) (Entry.make t)).mapping.count page = 1 := by
        rw [hmapping₁, ← hone]
        exact Function.update_of_ne hne _ _
      have hram₁ : (m₁.setEntry 0 (dirOf address.val) (Entry.make t)).ram page = m.ram page := by
        rw [ram_setEntry_of_ne m₁ (ne_zero_of_low hlow), hfresh.ram_of_ne hne]
      obtain ⟨hsane, hview⟩ :=
        hsane₁.putEntry ht hnone₁ hunused₁ hlow (Nat.lt_of_lt_of_eq hhigh hfresh.highMemory.symm) hone₁
      refine .inr ⟨_, rfl, hsane, ?_, ?_, ?_⟩
      . intro d
        rw [show (Memory.setEntry _ t _ _).userTable = _ from userTable_setPage _ (hsane₁.table_ne_zero ht) _,
          htable₁, show address.key.fst = dirOf address.val from rfl]
        by_cases hd : d = dirOf address.val
        . rw [hd, Function.update_self, Function.update_self]
          rfl
        . rw [Function.update_of_ne hd, Function.update_of_ne hd]
          rfl
      . rw [hview, hview₁, hram₁]
        rfl
      . rw [freePages_setEntry, freePages_setEntry, hfresh.freePages]

theorem noPage_refines (address : UserAddress) (contents : Contents)
    : paging.Refines 2 (noPage · address.val contents) (Space.access · address contents) := by
  intro m h
  have hsane : m.Sane := h
  unfold noPage Space.access
  dsimp only
  rcases m.translate_cases address with ⟨htranslate, hframe⟩ | ⟨entry, htranslate, ht, hentry, hframe, hwritable⟩
  . rw [htranslate, show (paging.abs m).page address.key = none from view_of_no_frame hframe]
    dsimp only
    cases hfree : m.getFreePage with
    | none => exact short_of_none (freePages_of_none hfree) Nat.two_pos _ _
    | some new =>
      obtain ⟨page, m₁⟩ := new
      have hfresh := hsane.getFreePage hfree
      have hfreePages := hfresh.freePages
      obtain ⟨hsane₁, htable₁, hview₁, hmapping₁⟩ := hfresh.fill contents
      have hnone : (m₁.setPage page contents).mapping.frame (.page address.key) = none := by
        rw [hmapping₁]
        exact hframe
      have hunused : (m₁.setPage page contents).mapping.Unused page := by
        rw [hmapping₁]
        exact hfresh.unused
      have hone : (m₁.setPage page contents).mapping.count page = 1 := by
        rw [hmapping₁]
        exact Function.update_self _ _ _
      have hhigh : page < (m₁.setPage page contents).highMemory :=
        Nat.lt_of_lt_of_eq hfresh.high hfresh.highMemory.symm
      dsimp only
      rcases hsane₁.putPage hnone hunused hfresh.low hhigh hone
        with ⟨herror, hzero⟩ | ⟨m', hok, hsane', hmapped, hview, hleft⟩
      . rw [herror]
        apply Abstraction.Agree.short
        rw [freePages_setPage] at hzero
        rw [paging_left]
        omega
      . rw [hok]
        rw [freePages_setPage] at hleft
        apply Abstraction.Agree.ok hsane'
        . apply space_eq
          . intro d
            rw [hmapped]
            unfold space
            rw [htable₁]
            rfl
          . intro d i
            rw [hview, hview₁, ram_setPage]
            rfl
        . rw [paging_left, paging_left]
          omega
  . rw [htranslate, show (paging.abs m).page address.key = _ from view_of_frame hframe]
    exact .ok h rfl (Nat.le_add_right _ _)

theorem copyPageTables_refines (from_ to_ : UserSlot) (size : RangeSize)
    : paging.Refines (tables size.val) (copyPageTables · from_.base to_.base size.val)
        (Space.copyRange · from_ to_ (tables size.val)) := by
  have hloop : paging.Refines ((List.range (tables size.val)).length * 1)
      ((List.range (tables size.val)).foldlM fun m j => do
        m.copyTable 1024 (← dirAt ((dirOf from_.base).val + j)) (← dirAt ((dirOf to_.base).val + j)))
      ((List.range (tables size.val)).foldlM fun s j => s.copyBlock (from_.block j) (to_.block j)) := by
    apply Abstraction.Refines.foldlM
    intro j hj
    have hlt : j < 16 := Nat.lt_of_lt_of_le (List.mem_range.mp hj) size.tables_le
    simp only [from_.dirAt_base hlt, to_.dirAt_base hlt]
    apply copyTable_refines (from_.le_block hlt) (to_.le_block hlt)
    rw [from_.block_val hlt, to_.block_val hlt]
    omega
  rw [List.length_range, Nat.mul_one] at hloop
  intro m h
  have hagree := hloop m h
  dsimp only at hagree ⊢
  rw [Space.foldlM_copyBlock _ _ _ size.tables_le] at hagree
  unfold copyPageTables
  simp only [from_.base_aligned, to_.base_aligned, from_.base_ne_zero, ne_eq, not_true_eq_false, or_self, if_false]
  exact hagree

theorem freePageTables_refines (nr : UserSlot) (size : RangeSize)
    : paging.Refines 0 (freePageTables · nr.base size.val) (Space.freeRange · nr (tables size.val)) := by
  have hloop : paging.Refines ((List.range (tables size.val)).length * 0)
      ((List.range (tables size.val)).foldlM fun m j => do m.freeTable (← dirAt ((dirOf nr.base).val + j)))
      ((List.range (tables size.val)).foldlM fun s j => s.freeBlock (nr.block j)) := by
    apply Abstraction.Refines.foldlM
    intro j hj
    have hlt : j < 16 := Nat.lt_of_lt_of_le (List.mem_range.mp hj) size.tables_le
    simp only [nr.dirAt_base hlt]
    exact freeTable_refines (nr.le_block hlt)
  rw [Nat.mul_zero] at hloop
  intro m h
  have hagree := hloop m h
  dsimp only at hagree ⊢
  rw [Space.foldlM_freeBlock _ _ size.tables_le] at hagree
  unfold freePageTables
  simp only [nr.base_aligned, nr.base_ne_zero, ne_eq, not_true_eq_false, if_false]
  exact hagree

theorem step_refines (act : UserAct) : paging.Refines act.pages (UserAct.step · act) (Space.step · act) := by
  cases act with
  | copy from_ to_ size => exact copyPageTables_refines from_ to_ size
  | write address byte => exact userWrite_refines address byte
  | verify address => exact writeVerify_refines address
  | kernelWrite address byte => exact kernelWrite_refines address byte
  | access address contents => exact noPage_refines address contents
  | free nr size => exact freePageTables_refines nr size

end Memory

namespace Boot

theorem frame_eq_none (b : Boot) (k : PageKey) : b.memory.mapping.frame k = none := by
  have htable : ∀ d, b.memory.userTable d = none := by
    intro d
    unfold Memory.userTable
    split
    . rw [show b.memory.dir d = 0 from b.unmapped d (by omega), Entry.target_zero]
    . rfl
  match k with
  | .table d => exact htable d
  | .page (d, i) => exact Memory.lookup_of_none (htable d) i

theorem space_memory (b : Boot) : b.memory.space = Space.empty := by
  apply Memory.space_eq
  . intro d
    exact congrArg Option.isSome (b.frame_eq_none (.table d))
  . intro d i
    exact Memory.view_of_no_frame (b.frame_eq_none (.page (d, i)))

theorem sane (b : Boot) : b.memory.Sane := by
  have hlow := b.low_le
  have hhigh := b.le_high
  rw [show LOW_MEM.toNat = 0x100000 from rfl] at hlow
  constructor
  . constructor
    . intro k f hk
      rw [b.frame_eq_none] at hk
      cases hk
    . intro k k' f _ hk
      rw [b.frame_eq_none] at hk
      cases hk
  . intro k f hk
    rw [b.frame_eq_none] at hk
    cases hk
  . intro nr _ hzero
    unfold Boot.memory Memory.memInit at hzero ⊢
    dsimp only at hzero ⊢
    split at hzero
    . next hfree =>
      rw [show LOW_MEM.toNat = 0x100000 from rfl] at hfree
      unfold lowFrame
      omega
    . exact absurd hzero (by decide)
  . unfold lowFrame PAGING_PAGES
    show b.endMem / 4096 ≤ _
    omega
  . intro d i d' i' f hd
    rw [b.frame_eq_none] at hd
    cases hd

theorem readByte_of_write {m m' : Memory} (h : m.Sane) {address : UserAddress} {byte : BitVec 8}
    {write : Memory → Except MemError Memory}
    (hrefines : Memory.paging.Refines 1 write (Space.writeByte · address byte)) (hwrite : write m = .ok m')
    (other : UserAddress)
    : m'.readByte other.val = if other = address then some byte else m.readByte other.val := by
  rcases (hrefines m h).cases with ⟨m₁, hok, hspace, _, _⟩ | ⟨e, herror, _⟩ | ⟨e, herror, _⟩
  . rw [hwrite, Except.ok.injEq] at hok
    subst hok
    rw [m'.readByte_eq, m.readByte_eq]
    exact Space.readByte_writeByte hspace other
  all_goals
    rw [hwrite] at herror
    cases herror

def PagesAvailable (b : Boot) (acts : List UserAct) : Prop :=
  Memory.paging.Provided UserAct.step UserAct.pages b.memory acts

/--
With free pages, every user address reads after a run what it would read if `copy_page_tables` copied every page,
and a write to one address is seen at no other address, so in no other range.
-/
theorem readByte_eq_eagerCopy (b : Boot) (acts : List UserAct) (hpages : b.PagesAvailable acts)
    : (b.run acts).map (fun m (address : UserAddress) => m.readByte address.val)
          = (Space.run acts).map Space.readByte
        ∧ ∀ m, b.run acts = .ok m → ∀ (address : UserAddress) byte m',
          m.userWrite address.val byte = .ok m' ∨ m.kernelWrite address.val byte = .ok m' →
            ∀ other : UserAddress,
              m'.readByte other.val = if other = address then some byte else m.readByte other.val := by
  constructor
  . have hrun := Abstraction.run_eq Memory.step_refines (s := b.memory) b.sane hpages
    rw [show Memory.paging.abs b.memory = Space.empty from b.space_memory] at hrun
    unfold Boot.run Space.run
    rw [← hrun]
    cases acts.foldlM UserAct.step b.memory with
    | error e => rfl
    | ok m =>
      show Except.ok _ = Except.ok _
      congr 1
      funext address
      exact m.readByte_eq address
  . intro m hm address byte m' hwrite
    have hsane : m.Sane := (Abstraction.run_ok Memory.step_refines (s := b.memory) b.sane hm).left
    rcases hwrite with huser | hkernel
    . exact readByte_of_write hsane (Memory.userWrite_refines address byte) huser
    . exact readByte_of_write hsane (Memory.kernelWrite_refines address byte) hkernel

def blank : Boot :=
  {
    ram := fun _ _ => 0
    startMem := 0x100000
    endMem := 0x1000000
    low_le := by decide
    le_high := by decide
    boundary := by decide
    unmapped := fun _ _ => rfl
  }

def parent : UserSlot := ⟨1, by decide⟩

def child : UserSlot := ⟨2, by decide⟩

def parentAddress : UserAddress := ⟨0x4000005, by decide⟩

def childAddress : UserAddress := ⟨0x8000005, by decide⟩

def forkAndWrite : List UserAct :=
  [.access parentAddress fun _ => 0, .copy parent child ⟨0xa0000, by decide⟩, .write childAddress 7]

theorem pagesAvailable_forkAndWrite : blank.PagesAvailable forkAndWrite := by
  apply Abstraction.provided_of_sum Memory.step_refines blank.sane
  have hsum : (forkAndWrite.map UserAct.pages).sum = 4 := by decide
  rw [hsum, Memory.paging_left]
  unfold Memory.freePages
  calc
    4 = (Finset.range 4).card := (Finset.card_range 4).symm
    _ ≤ _ := by
      apply Finset.card_le_card
      intro nr hnr
      have hlt := Finset.mem_range.mp hnr
      rw [Finset.mem_filter, Finset.mem_range]
      unfold PAGING_PAGES
      refine ⟨by omega, ?_⟩
      exact if_pos ⟨Nat.zero_le nr, Nat.lt_trans hlt (by decide)⟩

-- The child writes to a page that it shares with its parent.
theorem readByte_forkAndWrite
    : blank.PagesAvailable forkAndWrite
        ∧ (blank.run forkAndWrite).map (fun m => (m.readByte parentAddress.val, m.readByte childAddress.val))
          = .ok (some 0, some 7) := by
  refine ⟨pagesAvailable_forkAndWrite, ?_⟩
  have heager := (readByte_eq_eagerCopy blank forkAndWrite pagesAvailable_forkAndWrite).left
  have hboth : ∀ r : Except MemError Memory,
      r.map (fun m => (m.readByte parentAddress.val, m.readByte childAddress.val))
        = (r.map fun m (address : UserAddress) => m.readByte address.val).map
          fun read => (read parentAddress, read childAddress) := by
    intro r
    cases r <;> rfl
  rw [hboth, heager]
  rfl

end Boot

end OS
