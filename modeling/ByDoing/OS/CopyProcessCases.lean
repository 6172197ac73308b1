import ByDoing.OS.CopyProcess

namespace OS
namespace Processes

structure Inv (b : KernelBoot) (s : Processes) : Prop where
  counted : s.memory.Counted s.pages.held b.Managed
  clean : s.memory.Clean
  held : ∀ i p, i ≠ 0 → s.table i = some p → p.page ∈ s.pages.held
  inj : ∀ i j p q, i ≠ 0 → j ≠ 0 → s.table i = some p → s.table j = some q → p.page = q.page → i = j
  first : ∀ p, s.table 0 = some p → p.ldt = Process.initTask.ldt
  slot : ∀ (nr : UserSlot) p, s.table nr.val = some p →
    p.ldt.codeBase = nr.base ∧ p.ldt.dataBase = nr.base ∧ p.ldt.dataLimit ≤ TASK_SIZE
  -- The page tables of a task are those up to its limit, and one that has exited has none.
  vacant : ∀ (nr : UserSlot) j, j < 16 →
    (∀ p, s.table nr.val = some p → p.isZombie = true ∨ Memory.tables p.ldt.dataLimit ≤ j) →
    s.memory.dir (nr.block j) = 0

structure Forked (s : Processes) (nr : UserSlot) (current child : Process) (s' : Processes) : Prop where
  table : s'.table = Function.update s.table nr.val (some child)
  current_eq : s'.current = s.current
  held : s'.pages.held = child.page :: s.pages.held
  running : child.isZombie = false
  ldt : child.ldt = { current.ldt with codeBase := nr.base, dataBase := nr.base }
  dir : ∀ d, ¬Space.InRange nr (Memory.tables current.ldt.dataLimit) d → s'.memory.dir d = s.memory.dir d

section copyProcess

variable {b : KernelBoot} {s : Processes} {nr : UserSlot} {current : Process}

theorem Inv.ldt (h : Inv b s) {i : Slot} {p : Process} (hp : s.table i = some p)
    : p.ldt.dataBase = p.ldt.codeBase ∧ p.ldt.dataLimit ≤ TASK_SIZE := by
  by_cases hi : i = 0
  . rw [h.first p (hi ▸ hp)]
    exact ⟨rfl, by decide⟩
  . obtain ⟨hcode, hdata, hlimit⟩ := h.slot ⟨i, hi⟩ p hp
    exact ⟨hdata.trans hcode.symm, hlimit⟩

theorem Inv.parent (h : Inv b s) (hnr : s.table nr.val = none) (hcurrent : s.table s.current = some current)
    : ∃ size : RangeSize, size.val = current.ldt.dataLimit ∧ Memory.Parent current.ldt.dataBase nr size := by
  refine ⟨⟨current.ldt.dataLimit, (h.ldt hcurrent).right⟩, rfl, ?_⟩
  by_cases hzero : s.current = 0
  . have hldt := h.first current (hzero ▸ hcurrent)
    refine .inr ⟨?_, ?_⟩
    . rw [hldt]
      rfl
    . show current.ldt.dataLimit = 0xa0000
      rw [hldt]
      rfl
  . obtain ⟨_, hdata, _⟩ := h.slot ⟨s.current, hzero⟩ current hcurrent
    refine .inl ⟨⟨s.current, hzero⟩, ?_, hdata⟩
    intro heq
    rw [← heq, hcurrent] at hnr
    cases hnr

theorem Inv.taskPage (h : Inv b s) {page : Nat} {m : Memory} (hpage : s.memory.getFreePage = some (page, m))
    (hnr : s.table nr.val = none)
    : Memory.Counted.Handed s.memory s.pages.held b.Managed page m ∧ m.Clean ∧ m.dir = s.memory.dir
        ∧ ∀ j, j < 16 → m.dir (nr.block j) = 0 := by
  have hdir := Memory.dir_getFreePage hpage
  refine ⟨h.counted.getFreePage hpage, ?_, hdir, ?_⟩
  . intro d
    rw [hdir]
    exact h.clean d
  . intro j hj
    rw [hdir]
    apply h.vacant nr j hj
    intro p hp
    rw [hnr] at hp
    cases hp

theorem isFree_of_handed {m m' : Memory} {held : List Nat} {managed : Nat → Prop} {f g : Nat}
    (h : Memory.Counted.Handed m held managed f m') (hg : m'.IsFree g)
    : m.IsFree g := by
  obtain ⟨hlow, hzero⟩ := hg
  refine ⟨hlow, ?_⟩
  rw [h.memMap_eq] at hzero
  by_cases heq : g - lowFrame = f - lowFrame
  . rw [heq, Function.update_self] at hzero
    cases hzero
  . rwa [Function.update_of_ne heq] at hzero

-- The child's range in `copy_mem`.
def Process.moved (p : Process) (newBase : Word) : Process :=
  { p with startCode := newBase, ldt := { p.ldt with codeBase := newBase, dataBase := newBase } }

theorem copyMem_eq (s₁ : Processes) (p : Process) (slot : Slot) {newBase : Word} {m : Memory} {failure : Option MemError}
    (hbase : BitVec.ofNat 32 slot.val * TASK_SIZE = newBase) (hspaces : current.ldt.dataBase = current.ldt.codeBase)
    (hlimit : current.ldt.codeLimit ≤ current.ldt.dataLimit)
    (hr : s₁.memory.copyPageTablesPart current.ldt.dataBase newBase current.ldt.dataLimit = (m, failure))
    : (failure = none → s₁.copyMem slot current p = .ok (0, Process.moved p newBase, s₁.setMemory m))
        ∧ ∀ m', failure = some .outOfMemory → m.freePageTables newBase current.ldt.dataLimit = .ok m' →
          s₁.copyMem slot current p = .ok (-ENOMEM, Process.moved p newBase, s₁.setMemory m') := by
  unfold copyMem
  rw [if_neg (not_not.mpr hspaces), if_neg (BitVec.not_lt.mpr hlimit), hbase]
  dsimp only
  rw [hr]
  constructor
  . intro hnone
    rw [hnone]
    rfl
  . intro m' hsome hfree
    rw [hsome]
    dsimp only
    rw [hfree]
    rfl

theorem copyMem_cases (s₁ : Processes) {held : List Nat} {managed : Nat → Prop} {size : RangeSize} (p : Process)
    (h : s₁.memory.Counted held managed) (hclean : s₁.memory.Clean)
    (hzero : ∀ j, j < 16 → s₁.memory.dir (nr.block j) = 0) (hspaces : current.ldt.dataBase = current.ldt.codeBase)
    (hsize : size.val = current.ldt.dataLimit) (hparent : Memory.Parent current.ldt.dataBase nr size)
    (hlimit : current.ldt.codeLimit ≤ current.ldt.dataLimit)
    : let r := s₁.memory.copyPageTablesPart current.ldt.dataBase nr.base current.ldt.dataLimit
      let source := s₁.memory.RangeTable current.ldt.dataBase current.ldt.dataLimit
      let block := Space.InRange nr (Memory.tables current.ldt.dataLimit)
      (r.snd = some .outOfMemory ∧ ∃ m',
          s₁.copyMem nr.val current p = .ok (-ENOMEM, Process.moved p nr.base, s₁.setMemory m')
            ∧ Memory.Copying s₁.memory held managed source block m' ∧ m'.dir = s₁.memory.dir
            ∧ m'.memMap = s₁.memory.memMap)
        ∨ r.snd = none ∧ s₁.copyMem nr.val current p = .ok (0, Process.moved p nr.base, s₁.setMemory r.fst)
          ∧ Memory.Copying s₁.memory held managed source block r.fst := by
  dsimp only
  obtain ⟨hcopying, herror⟩ := Memory.copyPart_copying h hclean hparent hzero
  obtain ⟨m', hfree, hcopying', hdir, hmap⟩ := Memory.copyPart_undone h hclean hparent hzero
  rw [hsize] at hcopying herror hfree hcopying'
  obtain ⟨hnone, hsome⟩ := copyMem_eq s₁ p nr.val rfl hspaces hlimit rfl
  cases hfailure : (s₁.memory.copyPageTablesPart current.ldt.dataBase nr.base current.ldt.dataLimit).snd with
  | none => exact .inr ⟨rfl, hnone hfailure, hcopying⟩
  | some e =>
    have he := herror e hfailure
    subst he
    exact .inl ⟨rfl, m', hsome m' hfailure hfree, hcopying', hdir, hmap⟩

theorem isFree_of_new {m m' : Memory} {held : List Nat} {managed : Nat → Prop} {f : Nat} (h : m.Counted held managed)
    (hnew : Memory.Counted.Handed m held managed f m')
    : m.IsFree f := by
  have hlow := (h.range f hnew.managed_page).left
  have hcount := hnew.count_eq
  rw [Memory.counted_count, Memory.count_eq hlow] at hcount
  exact ⟨hlow, BitVec.eq_of_toNat_eq hcount⟩

section restored

variable {m₀ m m' m₁ : Memory} {held : List Nat} {managed source : Nat → Prop} {block : PageIndex → Prop} {page f : Nat}
  {base limit : Word}

theorem freePage_restored (h₀ : m₀.Counted held managed) (hnew : Memory.Counted.Handed m₀ held managed page m)
    (h : m'.Counted (page :: held) managed) (hmap : m'.memMap = m.memMap) (hok : m'.freePage page = .ok m₁)
    : m₁.memMap = m₀.memMap ∧ m₁.ram = m'.ram := by
  have hzero := (isFree_of_new h₀ hnew).right
  have hpos : 0 < m'.counted.count page := by
    rw [h.exact.count_held List.mem_cons_self]
    exact Nat.one_pos
  rw [(h.freePage hnew.managed_page hpos).left, Except.ok.injEq] at hok
  rw [← hok]
  refine ⟨?_, rfl⟩
  show Function.update m'.memMap (page - lowFrame) (m'.memMap (page - lowFrame) - 1) = m₀.memMap
  rw [hmap, hnew.memMap_eq, Function.update_self, Function.update_idem, Function.update_eq_self_iff, hzero]
  rfl

theorem pages_restored (h₀ : m₀.Counted held managed) (hnew : Memory.Counted.Handed m₀ held managed page m)
    (hpage : m.dir = m₀.dir) (hwithin : Memory.Within managed m.IsFree (m.RangeTable base limit) block m m')
    (hdir : m'.dir = m.dir) (hf : ¬m₀.IsFree f)
    : (¬m₀.RangeTable base limit f → m'.ram f = m₀.ram f)
        ∧ ∀ i, m'.ram f i = m₀.ram f i ∨ m'.ram f i = m₀.ram f i &&& ~~~2 := by
  by_cases hzero : f = 0
  . have hram : m'.ram f = m₀.ram f := by
      rw [hzero]
      exact hdir.trans hpage
    exact ⟨fun _ => hram, fun i => .inl (congrFun hram i)⟩
  . have hram : m.ram f = m₀.ram f := by
      rw [hnew.ram_eq]
      apply Function.update_of_ne
      intro heq
      exact hf (heq ▸ isFree_of_new h₀ hnew)
    have hfree : ¬m.IsFree f := fun hfree => hf (isFree_of_handed hnew hfree)
    rw [← hram]
    refine ⟨?_, hwithin.entry f hzero hfree⟩
    intro hrange
    apply hwithin.page f hzero hfree
    rintro ⟨d, hle, hlt, ht⟩
    apply hrange ⟨d, hle, hlt, _⟩
    unfold Memory.userTable at ht ⊢
    rwa [hpage] at ht

end restored

theorem noMemory_iff {page : Nat} {m : Memory} (hget : s.memory.getFreePage = some (page, m))
    : s.NoMemory nr.val current ↔ current.ldt.codeLimit ≤ current.ldt.dataLimit ∧
        (m.copyPageTablesPart current.ldt.dataBase nr.base current.ldt.dataLimit).snd = some .outOfMemory := by
  unfold NoMemory
  rw [hget]
  constructor
  . rintro (hnone | ⟨hlimit, page', m', heq, hfailure⟩)
    . cases hnone
    . cases heq
      exact ⟨hlimit, hfailure⟩
  . rintro ⟨hlimit, hfailure⟩
    exact .inr ⟨hlimit, page, m, rfl, hfailure⟩

-- The state and the new task at the call of `copy_mem`.
def entersCopy (s : Processes) (nr : Slot) (current : Process) (page : Nat) (m : Memory) : Process × Processes :=
  let p := s.newTask page current
  (s.addTask nr p m).saveMath p

theorem copyProcess_eq {slot : Slot} {page : Nat} {m : Memory} (hget : s.memory.getFreePage = some (page, m))
    : s.copyProcess slot current
        =
      match (s.entersCopy slot current page m).snd.copyMem slot current (s.entersCopy slot current page m).fst with
      | .error e => .error e
      | .ok (r, p, s) =>
        if r ≠ 0 then
          match s.freeTask slot page with
          | .error e => .error (.memory e)
          | .ok s => .ok (-EAGAIN, s)
        else
          .ok (s.lastPid, s.countRefs slot current p) := by
  unfold copyProcess
  rw [hget]
  rfl

theorem copyProcess_undone (h : Inv b s) (hnr : s.table nr.val = none) {page : Nat} {m m' : Memory} {p : Process}
    (hget : s.memory.getFreePage = some (page, m))
    (hok : (s.entersCopy nr.val current page m).snd.copyMem nr.val current (s.entersCopy nr.val current page m).fst
      = .ok (-ENOMEM, p, (s.entersCopy nr.val current page m).snd.setMemory m'))
    (hcopy : Memory.Copying m (page :: s.pages.held) b.Managed
      (m.RangeTable current.ldt.dataBase current.ldt.dataLimit)
      (Space.InRange nr (Memory.tables current.ldt.dataLimit)) m')
    (hdir : m'.dir = m.dir) (hmap : m'.memMap = m.memMap)
    : ∃ s', s.copyProcess nr.val current = .ok (-EAGAIN, s') ∧ s.Undone nr current s'
        ∧ (s'.math = s.math ↔ s.KeepsMath) ∧ s'.memory.Counted s'.pages.held b.Managed := by
  obtain ⟨hnew, _, hpage, hzero⟩ := h.taskPage hget hnr
  obtain ⟨m₁, hfree, hcounted⟩ := hcopy.counted.freeHeld List.mem_cons_self
  obtain ⟨hmap₁, hram₁⟩ := freePage_restored h.counted hnew hcopy.counted hmap hfree
  have hdir₁ : m₁.dir = m.dir := (Memory.dir_freePage hfree).trans hdir
  let s₁ := (s.entersCopy nr.val current page m).snd.setMemory m'
  refine ⟨{ s₁.setTask nr.val none with pages := { memory := m₁, held := s₁.pages.held.erase page } }, ?_, ?_, ?_,
    hcounted⟩
  . rw [copyProcess_eq hget, hok]
    dsimp only
    rw [if_pos (by decide)]
    unfold freeTask
    rw [show ((s.entersCopy nr.val current page m).snd.setMemory m').memory = m' from rfl, hfree]
  . have hpages := fun f hf => pages_restored (f := f) h.counted hnew hpage hcopy.within hdir hf
    constructor
    . show Function.update (Function.update s.table nr.val _) nr.val none = s.table
      rw [Function.update_idem, Function.update_eq_self_iff, hnr]
    . rfl
    . rfl
    . rfl
    . rfl
    . exact List.erase_cons_head page s.pages.held
    . exact hmap₁
    . exact hdir₁.trans hpage
    . intro j hj
      exact (congrFun hdir₁ _).trans (hzero j hj)
    . intro f hf hrange
      exact (congrFun hram₁ f).trans ((hpages f hf).left hrange)
    . intro f hf i
      have hentry := (hpages f hf).right i
      rwa [← hram₁] at hentry
  . show (if s.math.lastTask = some s.current then s.math.fnsave else s.math) = s.math ↔ s.KeepsMath
    unfold KeepsMath
    rw [hget]
    by_cases howns : s.math.lastTask = some s.current
    . simp [howns]
    . simp [howns]

theorem copyProcess_forked (h : Inv b s) (hnr : s.table nr.val = none) {page : Nat} {m m' : Memory}
    (hget : s.memory.getFreePage = some (page, m))
    (hok : (s.entersCopy nr.val current page m).snd.copyMem nr.val current (s.entersCopy nr.val current page m).fst
      = .ok (0, Process.moved (s.entersCopy nr.val current page m).fst nr.base,
        (s.entersCopy nr.val current page m).snd.setMemory m'))
    (hcopy : Memory.Copying m (page :: s.pages.held) b.Managed
      (m.RangeTable current.ldt.dataBase current.ldt.dataLimit)
      (Space.InRange nr (Memory.tables current.ldt.dataLimit)) m')
    : ∃ child s', s.copyProcess nr.val current = .ok (s.lastPid, s') ∧ s.Forked nr current child s'
        ∧ s'.memory.Counted s'.pages.held b.Managed ∧ s'.memory.Clean := by
  obtain ⟨_, _, hpage, _⟩ := h.taskPage hget hnr
  let p := Process.moved (s.entersCopy nr.val current page m).fst nr.base
  refine ⟨{ p with task := { p.task with state := .TASK_RUNNING } },
    ((s.entersCopy nr.val current page m).snd.setMemory m').countRefs nr.val current p, ?_, ?_, hcopy.counted,
    hcopy.clean⟩
  . rw [copyProcess_eq hget, hok]
    dsimp only
    rw [if_neg (by decide)]
    rfl
  . constructor
    . show Function.update (Function.update s.table nr.val _) nr.val _ = _
      rw [Function.update_idem]
    . rfl
    . rfl
    . rfl
    . rfl
    . intro d hd
      exact (hcopy.within.dir d hd).trans (congrFun hpage d)

theorem copyProcess_cases (h : Inv b s) (hnr : s.table nr.val = none) (hcurrent : s.table s.current = some current)
    : (∃ s', s.NoMemory nr.val current ∧ s.copyProcess nr.val current = .ok (-EAGAIN, s') ∧ s.Undone nr current s'
          ∧ (s'.math = s.math ↔ s.KeepsMath) ∧ s'.memory.Counted s'.pages.held b.Managed)
        ∨ (∃ child s', ¬s.NoMemory nr.val current ∧ s.copyProcess nr.val current = .ok (s.lastPid, s')
          ∧ s.Forked nr current child s' ∧ s'.memory.Counted s'.pages.held b.Managed ∧ s'.memory.Clean)
        ∨ ¬s.NoMemory nr.val current ∧ current.ldt.dataLimit < current.ldt.codeLimit
          ∧ s.copyProcess nr.val current = .error .badDataLimit := by
  have hspaces := (h.ldt hcurrent).left
  obtain ⟨size, hsize, hparent⟩ := h.parent hnr hcurrent
  cases hget : s.memory.getFreePage with
  | none =>
    refine .inl ⟨s, .inl hget, ?_, ?_, iff_of_true rfl (.inl hget), h.counted⟩
    . unfold copyProcess
      rw [hget]
    . refine ⟨rfl, rfl, rfl, rfl, rfl, rfl, rfl, rfl, ?_, fun _ _ _ => rfl, fun _ _ _ => .inl rfl⟩
      intro j hj
      apply h.vacant nr j hj
      intro p hp
      rw [hnr] at hp
      cases hp
  | some new =>
    obtain ⟨page, m⟩ := new
    rw [noMemory_iff hget]
    obtain ⟨hnew, hclean, hdir, hzero⟩ := h.taskPage hget hnr
    by_cases hlimit : current.ldt.codeLimit ≤ current.ldt.dataLimit
    . rcases copyMem_cases (s.entersCopy nr.val current page m).snd (s.entersCopy nr.val current page m).fst
        hnew.counted hclean hzero hspaces hsize hparent hlimit
        with ⟨hfailure, m', hok, hcopy, hdir', hmap⟩ | ⟨hfailure, hok, hcopy⟩
      . obtain ⟨s', hresult⟩ := copyProcess_undone h hnr hget hok hcopy hdir' hmap
        exact .inl ⟨s', ⟨hlimit, hfailure⟩, hresult⟩
      . obtain ⟨child, s', hresult⟩ := copyProcess_forked h hnr hget hok hcopy
        refine .inr (.inl ⟨child, s', ?_, hresult⟩)
        rintro ⟨_, hno⟩
        cases hfailure.symm.trans hno
    . refine .inr (.inr ⟨fun hno => hlimit hno.left, BitVec.not_le.mp hlimit, ?_⟩)
      unfold copyProcess
      rw [hget]
      dsimp only
      unfold copyMem
      rw [if_neg (not_not.mpr hspaces), if_pos (BitVec.not_le.mp hlimit)]

end copyProcess

end Processes
end OS
