import ByDoing.OS.CopyProcessCases

namespace OS
namespace Processes

section steps

variable {b : KernelBoot} {s s' : Processes}

theorem Inv.congr (h : Inv b s) (htable : s'.table = s.table) (hpages : s'.pages = s.pages) : Inv b s' := by
  have hmemory : s'.memory = s.memory := congrArg PageRun.memory hpages
  constructor
  . rw [hmemory, hpages]
    exact h.counted
  . rw [hmemory]
    exact h.clean
  . rw [htable, hpages]
    exact h.held
  . rw [htable]
    exact h.inj
  . rw [htable]
    exact h.first
  . rw [htable]
    exact h.slot
  . rw [htable, hmemory]
    exact h.vacant

theorem Inv.setTask (h : Inv b s) {i : Slot} {p q : Process} (hp : s.table i = some p) (hpage : q.page = p.page)
    (hldt : q.ldt = p.ldt) (hzombie : q.isZombie = p.isZombie)
    : Inv b (s.setTask i (some q)) := by
  have hcases : ∀ {j r}, (s.setTask i (some q)).table j = some r →
      ∃ r', s.table j = some r' ∧ r.page = r'.page ∧ r.ldt = r'.ldt ∧ r.isZombie = r'.isZombie := by
    intro j r hr
    by_cases hj : j = i
    . subst hj
      have heq : q = r := Option.some.inj ((s.table_setTask j (some q)).symm.trans hr)
      exact ⟨p, hp, heq ▸ hpage, heq ▸ hldt, heq ▸ hzombie⟩
    . exact ⟨r, (s.table_setTask_of_ne hj (some q)).symm.trans hr, rfl, rfl, rfl⟩
  constructor
  . exact h.counted
  . exact h.clean
  . intro j r hj hr
    obtain ⟨r', hr', heq, _⟩ := hcases hr
    rw [heq]
    exact h.held j r' hj hr'
  . intro j k r t hj hk hr ht heq
    obtain ⟨r', hr', hrpage, _⟩ := hcases hr
    obtain ⟨t', ht', htpage, _⟩ := hcases ht
    exact h.inj j k r' t' hj hk hr' ht' (by rw [← hrpage, ← htpage, heq])
  . intro r hr
    obtain ⟨r', hr', _, heq, _⟩ := hcases hr
    rw [heq]
    exact h.first r' hr'
  . intro nr r hr
    obtain ⟨r', hr', _, heq, _⟩ := hcases hr
    rw [heq]
    exact h.slot nr r' hr'
  . intro nr j hj hvacant
    apply h.vacant nr j hj
    intro r hr
    by_cases hnr : nr.val = i
    . rw [hnr, hp, Option.some.injEq] at hr
      have hq := hvacant q (by rw [hnr]; exact s.table_setTask i (some q))
      rwa [hldt, hzombie, hr] at hq
    . exact hvacant r ((s.table_setTask_of_ne hnr (some q)).trans hr)

theorem freePageTables_spec {m m' : Memory} {held : List Nat} {managed : Nat → Prop} (h : m.Counted held managed)
    (hclean : m.Clean) (nr : UserSlot) {size : Word} (hok : m.freePageTables nr.base size = .ok m')
    : m'.Counted held managed ∧ m'.Clean ∧ (∀ d, m'.dir d = m.dir d ∨ m'.dir d = 0)
        ∧ ∀ j, j < 16 → j < Memory.tables size → m'.dir (nr.block j) = 0 := by
  obtain ⟨hcounted, hclean', hwithin, hdirs, hcleared⟩ :
      m'.Counted held managed ∧ m'.Clean ∧ Memory.Within managed (fun _ => True) (fun _ => True) (fun _ => True) m m'
        ∧ (∀ d, m'.dir d = m.dir d ∨ m'.dir d = 0)
        ∧ ∀ j, j < Memory.tables size → ∀ d, Memory.dirAt ((Memory.dirOf nr.base).val + j) = .ok d → m'.dir d = 0 :=
    h.freePageTables_within hclean nr (by intros; trivial) (by intros; trivial) hok
  refine ⟨hcounted, hclean', hdirs, ?_⟩
  intro j hj hlt
  exact hcleared j hlt _ (nr.dirAt_base hj)

theorem freeRanges_spec {m m' : Memory} {held : List Nat} {managed : Nat → Prop} {p : Process}
    (h : m.Counted held managed) (hclean : m.Clean) (nr : UserSlot) (hcode : p.ldt.codeBase = nr.base)
    (hdata : p.ldt.dataBase = nr.base) (hok : p.freeRanges m = .ok m')
    : m'.Counted held managed ∧ m'.Clean ∧ (∀ d, m'.dir d = m.dir d ∨ m'.dir d = 0)
        ∧ ∀ j, j < 16 → j < Memory.tables p.ldt.dataLimit → m'.dir (nr.block j) = 0 := by
  unfold Process.freeRanges at hok
  rw [hcode, hdata] at hok
  obtain ⟨m₁, hfirst, hsecond⟩ := Run.bind_eq_ok_iff.mp hok
  obtain ⟨h₁, hclean₁, hdirs₁, _⟩ := freePageTables_spec h hclean nr hfirst
  obtain ⟨h₂, hclean₂, hdirs₂, hzero⟩ := freePageTables_spec h₁ hclean₁ nr hsecond
  refine ⟨h₂, hclean₂, ?_, hzero⟩
  intro d
  rcases hdirs₂ d with heq | heq
  . rw [heq]
    exact hdirs₁ d
  . exact .inr heq

theorem freeRanges_initTask {m m' : Memory} {p : Process} (h : p.ldt = Process.initTask.ldt)
    : p.freeRanges m ≠ .ok m' := by
  unfold Process.freeRanges Memory.freePageTables
  rw [h]
  intro hok
  cases hok

theorem Inv.freeRanges (h : Inv b s) {p q : Process} {m' : Memory} (hp : s.table s.current = some p)
    (hok : p.freeRanges s.memory = .ok m') (hpage : q.page = p.page) (hcode : q.ldt.codeBase = p.ldt.codeBase)
    (hdata : q.ldt.dataBase = p.ldt.codeBase) (hlimit : q.ldt.dataLimit ≤ TASK_SIZE)
    : Inv b ((s.setTask s.current (some q)).setMemory m') := by
  have hcurrent : s.current ≠ 0 := by
    intro hzero
    exact freeRanges_initTask (h.first p (hzero ▸ hp)) hok
  let c : UserSlot := ⟨s.current, hcurrent⟩
  obtain ⟨hcode', hdata', _⟩ := h.slot c p hp
  obtain ⟨hcounted, hclean, hdirs, hcleared⟩ := freeRanges_spec h.counted h.clean c hcode' hdata' hok
  have hcases : ∀ {j r}, (s.setTask s.current (some q)).table j = some r →
      j = s.current ∧ r = q ∨ j ≠ s.current ∧ s.table j = some r := by
    intro j r hr
    by_cases hj : j = s.current
    . subst hj
      exact .inl ⟨rfl, Option.some.inj (hr.symm.trans (s.table_setTask s.current (some q)))⟩
    . exact .inr ⟨hj, (s.table_setTask_of_ne hj (some q)).symm.trans hr⟩
  have hold : ∀ {j r}, (s.setTask s.current (some q)).table j = some r → ∃ r', s.table j = some r' ∧ r.page = r'.page := by
    intro j r hr
    rcases hcases hr with ⟨rfl, rfl⟩ | ⟨_, hr⟩
    . exact ⟨p, hp, hpage⟩
    . exact ⟨r, hr, rfl⟩
  have hzero : ∀ d, s.memory.dir d = 0 → m'.dir d = 0 := by
    intro d hd
    rcases hdirs d with heq | heq
    . rw [heq, hd]
    . exact heq
  constructor
  . exact hcounted
  . exact hclean
  . intro j r hj hr
    obtain ⟨r', hr', heq⟩ := hold hr
    rw [heq]
    exact h.held j r' hj hr'
  . intro j k r t hj hk hr ht heq
    obtain ⟨r', hr', hrpage⟩ := hold hr
    obtain ⟨t', ht', htpage⟩ := hold ht
    exact h.inj j k r' t' hj hk hr' ht' (by rw [← hrpage, ← htpage, heq])
  . intro r hr
    rcases hcases hr with ⟨hj, _⟩ | ⟨_, hr⟩
    . exact absurd hj.symm hcurrent
    . exact h.first r hr
  . intro nr r hr
    rcases hcases hr with ⟨hj, rfl⟩ | ⟨_, hr⟩
    . have hnr : nr = c := Subtype.ext hj
      rw [hnr, hcode, hdata, hcode']
      exact ⟨rfl, rfl, hlimit⟩
    . exact h.slot nr r hr
  . intro nr j hj hvacant
    by_cases hnr : nr.val = s.current
    . have hnr : nr = c := Subtype.ext hnr
      subst hnr
      by_cases hlt : j < Memory.tables p.ldt.dataLimit
      . exact hcleared j hj hlt
      . apply hzero
        apply h.vacant c j hj
        intro r hr
        have heq : r = p := Option.some.inj (hr.symm.trans hp)
        rw [heq]
        exact .inr (Nat.not_lt.mp hlt)
    . apply hzero
      apply h.vacant nr j hj
      intro r hr
      exact hvacant r ((s.table_setTask_of_ne hnr (some q)).trans hr)

theorem Inv.freeTask (h : Inv b s) {i : Slot} {p : Process} (hi : i ≠ 0) (hp : s.table i = some p)
    (hzombie : p.isZombie = true) (hok : s.freeTask i p.page = .ok s')
    : Inv b s' := by
  obtain ⟨m', hfree, hcounted⟩ := h.counted.freeHeld (h.held i p hi hp)
  unfold Processes.freeTask at hok
  rw [hfree] at hok
  cases hok
  have hdir := Memory.dir_freePage hfree
  have hold : ∀ {j r}, (s.setTask i none).table j = some r → j ≠ i ∧ s.table j = some r := by
    intro j r hr
    by_cases hj : j = i
    . subst hj
      rw [s.table_setTask] at hr
      cases hr
    . exact ⟨hj, (s.table_setTask_of_ne hj none).symm.trans hr⟩
  constructor
  . exact hcounted
  . intro d hd hpresent
    replace hpresent : Entry.present (m'.dir d) = false := hpresent
    show m'.dir d = 0
    rw [hdir] at hpresent ⊢
    exact h.clean d hd hpresent
  . intro j r hj hr
    obtain ⟨hne, hr⟩ := hold hr
    apply (List.mem_erase_of_ne _).mpr (h.held j r hj hr)
    intro heq
    exact hne (h.inj j i r p hj hi hr hp heq)
  . intro j k r t hj hk hr ht
    exact h.inj j k r t hj hk (hold hr).right (hold ht).right
  . intro r hr
    exact h.first r (hold hr).right
  . intro nr r hr
    exact h.slot nr r (hold hr).right
  . intro nr j hj hvacant
    refine (congrFun hdir _).trans (h.vacant nr j hj ?_)
    intro r hr
    by_cases hnr : nr.val = i
    . rw [hnr, hp, Option.some.injEq] at hr
      exact .inl (hr ▸ hzombie)
    . exact hvacant r ((s.table_setTask_of_ne hnr none).trans hr)

theorem Inv.undone (h : Inv b s) {nr : UserSlot} {current : Process} (hundone : s.Undone nr current s')
    (hcounted : s'.memory.Counted s'.pages.held b.Managed)
    : Inv b s' := by
  constructor
  . exact hcounted
  . intro d
    rw [hundone.dir]
    exact h.clean d
  . rw [hundone.table, hundone.held]
    exact h.held
  . rw [hundone.table]
    exact h.inj
  . rw [hundone.table]
    exact h.first
  . rw [hundone.table]
    exact h.slot
  . rw [hundone.table, hundone.dir]
    exact h.vacant

theorem Inv.forked (h : Inv b s) {nr : UserSlot} {current child : Process} (hnr : s.table nr.val = none)
    (hlimit : current.ldt.dataLimit ≤ TASK_SIZE) (hforked : s.Forked nr current child s')
    (hcounted : s'.memory.Counted s'.pages.held b.Managed) (hclean : s'.memory.Clean)
    : Inv b s' := by
  have hcases : ∀ {j r}, s'.table j = some r → j = nr.val ∧ r = child ∨ j ≠ nr.val ∧ s.table j = some r := by
    intro j r hr
    rw [hforked.table] at hr
    by_cases hj : j = nr.val
    . rw [hj, Function.update_self, Option.some.injEq] at hr
      exact .inl ⟨hj, hr.symm⟩
    . rw [Function.update_of_ne hj] at hr
      exact .inr ⟨hj, hr⟩
  have hfresh : ∀ {j r}, j ≠ 0 → s.table j = some r → r.page ≠ child.page := by
    intro j r hj hr heq
    have hnodup := hcounted.exact.nodup
    rw [hforked.held] at hnodup
    exact (List.nodup_cons.mp hnodup).left (heq ▸ h.held j r hj hr)
  constructor
  . exact hcounted
  . exact hclean
  . intro j r hj hr
    rw [hforked.held]
    rcases hcases hr with ⟨_, rfl⟩ | ⟨_, hr⟩
    . exact List.mem_cons_self
    . exact List.mem_cons_of_mem _ (h.held j r hj hr)
  . intro j k r t hj hk hr ht heq
    rcases hcases hr with ⟨hj', rfl⟩ | ⟨_, hr⟩
    . rcases hcases ht with ⟨hk', _⟩ | ⟨_, ht⟩
      . rw [hj', hk']
      . exact absurd heq.symm (hfresh hk ht)
    . rcases hcases ht with ⟨_, rfl⟩ | ⟨_, ht⟩
      . exact absurd heq (hfresh hj hr)
      . exact h.inj j k r t hj hk hr ht heq
  . intro r hr
    rcases hcases hr with ⟨hzero, _⟩ | ⟨_, hr⟩
    . exact absurd hzero.symm nr.property
    . exact h.first r hr
  . intro nr' r hr
    rcases hcases hr with ⟨heq, rfl⟩ | ⟨_, hr⟩
    . have hnr' : nr' = nr := Subtype.ext heq
      rw [hnr', hforked.ldt]
      exact ⟨rfl, rfl, hlimit⟩
    . exact h.slot nr' r hr
  . intro nr' j hj hvacant
    by_cases heq : nr' = nr
    . subst heq
      have hchild := hvacant child (by rw [hforked.table, Function.update_self])
      rw [hforked.running, hforked.ldt] at hchild
      have hle : Memory.tables current.ldt.dataLimit ≤ j := hchild.resolve_left Bool.false_ne_true
      rw [hforked.dir]
      . apply h.vacant nr' j hj
        intro r hr
        rw [hnr] at hr
        cases hr
      . intro hin
        unfold Space.InRange at hin
        rw [nr'.block_val hj] at hin
        omega
    . have hne : nr'.val ≠ nr.val := fun hval => heq (Subtype.ext hval)
      rw [hforked.dir]
      . apply h.vacant nr' j hj
        intro r hr
        apply hvacant r
        rw [hforked.table, Function.update_of_ne hne]
        exact hr
      . intro hin
        unfold Space.InRange at hin
        rw [nr'.block_val hj] at hin
        exact hne (Fin.ext (by omega))

theorem tables_eq {size : Word} (h : size ≤ TASK_SIZE) : Memory.tables size = (size.toNat + 0x3fffff) / 0x400000 := by
  have hle := BitVec.le_def.mp h
  rw [show TASK_SIZE.toNat = 0x4000000 from rfl] at hle
  unfold Memory.tables
  rw [BitVec.toNat_ushiftRight, Nat.shiftRight_eq_div_pow, BitVec.toNat_add,
    show (0x3fffff : Word).toNat = 0x3fffff from rfl]
  omega

theorem block_of_address {p : Process} {c : UserSlot} {address : UserAddress} (hbase : p.ldt.dataBase = c.base)
    (hlimit : p.ldt.dataLimit ≤ TASK_SIZE) (h : address.val - p.ldt.dataBase < p.ldt.dataLimit)
    : ∃ j, j < 16 ∧ j < Memory.tables p.ldt.dataLimit ∧ Memory.dirOf address.val = c.block j := by
  have hlt := BitVec.lt_def.mp h
  have hle := BitVec.le_def.mp hlimit
  have htables := tables_eq hlimit
  rw [show TASK_SIZE.toNat = 0x4000000 from rfl] at hle
  have hsum : address.val.toNat = c.base.toNat + (address.val - p.ldt.dataBase).toNat := by
    have hcancel := congrArg BitVec.toNat (BitVec.sub_add_cancel address.val p.ldt.dataBase)
    have hc := c.val.isLt
    unfold NR_TASKS at hc
    have hbound := c.base_toNat
    rw [BitVec.toNat_add, hbase] at hcancel
    rw [hbase] at hlt ⊢
    omega
  generalize (address.val - p.ldt.dataBase).toNat = n at hlt hsum
  refine ⟨n / 0x400000, by omega, by omega, ?_⟩
  apply Fin.ext
  rw [c.block_val (by omega)]
  unfold Memory.dirOf
  simp only [Fin.ofNat, BitVec.toNat_ushiftRight, Nat.shiftRight_eq_div_pow, hsum, c.base_toNat]
  have hc := c.val.isLt
  unfold NR_TASKS at hc
  omega

theorem lt_tables {p : Process} {address : DataAddress} (hlimit : p.ldt.dataLimit ≤ TASK_SIZE)
    (h : address.val < p.ldt.dataLimit)
    : (Memory.dirOf address.val).val < Memory.tables p.ldt.dataLimit := by
  have hlt := BitVec.lt_def.mp h
  have hle := BitVec.le_def.mp hlimit
  rw [show TASK_SIZE.toNat = 0x4000000 from rfl] at hle
  rw [tables_eq hlimit]
  unfold Memory.dirOf
  simp only [Fin.ofNat, BitVec.toNat_ushiftRight, Nat.shiftRight_eq_div_pow]
  omega

theorem Inv.pageDirs (h : Inv b s) {a : MapAct} {pages : PageRun} (hallowed : s.pages.Allowed a) (hown : s.Own a)
    (hstep : s.pages.step a = .ok pages)
    : pages.memory.dir = s.memory.dir ∨ ∃ (c : UserSlot) (p : Process) (j : Nat), c.val = s.current ∧ s.Runs p ∧ j < 16
        ∧ j < Memory.tables p.ldt.dataLimit ∧ Memory.Enters s.memory pages.memory (c.block j) := by
  cases a with
  | getFreePage =>
    rw [PageRun.step, Except.ok.injEq] at hstep
    rw [← hstep]
    unfold PageRun.getFreePage
    split
    . exact .inl rfl
    . next hfree => exact .inl (Memory.dir_getFreePage hfree)
  | freePage page =>
    obtain ⟨m, hfree, hpages⟩ := Run.bind_eq_ok_iff.mp hstep
    cases hpages
    exact .inl (Memory.dir_freePage hfree)
  | putPage page address =>
    rw [PageRun.step, Except.ok.injEq] at hstep
    rw [← hstep]
    unfold PageRun.putPage
    split
    . next m hok =>
      obtain ⟨_, p, hruns, haddress⟩ := hown
      have hcurrent : s.current ≠ 0 := by
        intro hzero
        have htask := hruns.left
        rw [hzero] at htask
        rw [h.first p htask, show Process.initTask.ldt.dataBase = 0#32 from rfl, BitVec.sub_zero] at haddress
        have hlt := BitVec.lt_def.mp haddress
        have hle := BitVec.le_def.mp address.property
        rw [show TASK_SIZE.toNat = 0x4000000 from rfl] at hle
        rw [show Process.initTask.ldt.dataLimit.toNat = 0xa0000 from rfl] at hlt
        omega
      obtain ⟨_, hdata, hlimit⟩ := h.slot ⟨s.current, hcurrent⟩ p hruns.left
      obtain ⟨j, hj, hlt, hdir⟩ := block_of_address hdata hlimit haddress
      exact .inr ⟨⟨s.current, hcurrent⟩, p, j, rfl, hruns, hj, hlt, hdir ▸ h.counted.putPage_enters hok⟩
    . exact .inl rfl
  | unWpPage address =>
    rw [PageRun.step, Except.ok.injEq] at hstep
    rw [← hstep]
    unfold PageRun.unWpPage
    split
    . next m hok =>
      obtain ⟨ht, _⟩ := PageRun.present_of_translate hallowed
      exact .inl (h.counted.unWpPage_dir ht hok)
    . exact .inl rfl
  | tryToShare address p current =>
    obtain ⟨hcurrent, q, hruns, haddress⟩ := hown
    obtain ⟨_, _, hlimit⟩ := h.slot current q (hcurrent ▸ hruns.left)
    have hrange := lt_tables hlimit haddress
    rcases PageRun.tryToShare_ok hstep with rfl | ⟨shared, m, hok, rfl⟩
    . exact .inl rfl
    . have henters := h.counted.tryToShare_enters address hok
      exact .inr ⟨current, q, _, hcurrent, hruns, Memory.Counted.dirOf_data address, hrange, henters⟩
  | mark address =>
    rw [PageRun.step, Except.ok.injEq] at hstep
    rw [← hstep]
    obtain ⟨ht, _⟩ := PageRun.present_of_translate hallowed
    exact .inl (Memory.dir_setEntry _ (h.counted.table_ne_zero ht) _ _)
  | store page contents =>
    rw [PageRun.step, Except.ok.injEq] at hstep
    rw [← hstep]
    exact .inl (Memory.dir_setPage _ (Memory.ne_zero_of_low hallowed.left) _)
  | copyFirst to_ => exact absurd hown id
  | copy from_ to_ size => exact absurd hown id
  | freePageTables nr size => exact absurd hown id

theorem held_of_page {a : MapAct} {pages : PageRun} (hown : s.Own a) (hstep : s.pages.step a = .ok pages) {i : Slot}
    {p : Process} (hp : s.table i = some p) (hheld : p.page ∈ s.pages.held)
    : p.page ∈ pages.held := by
  cases a with
  | getFreePage =>
    rw [PageRun.step, Except.ok.injEq] at hstep
    rw [← hstep]
    unfold PageRun.getFreePage
    split
    . exact hheld
    . exact List.mem_cons_of_mem _ hheld
  | freePage page =>
    obtain ⟨m, _, hpages⟩ := Run.bind_eq_ok_iff.mp hstep
    cases hpages
    exact (List.mem_erase_of_ne (hown i p hp)).mpr hheld
  | putPage page address =>
    rw [PageRun.step, Except.ok.injEq] at hstep
    rw [← hstep]
    unfold PageRun.putPage
    split
    . exact (List.mem_erase_of_ne (hown.left i p hp)).mpr hheld
    . exact hheld
  | unWpPage address =>
    rw [PageRun.step, Except.ok.injEq] at hstep
    rw [← hstep]
    unfold PageRun.unWpPage
    split
    . exact hheld
    . exact hheld
  | tryToShare address q current =>
    rcases PageRun.tryToShare_ok hstep with rfl | ⟨_, _, _, rfl⟩
    . exact hheld
    . exact hheld
  | mark address =>
    rw [PageRun.step, Except.ok.injEq] at hstep
    rw [← hstep]
    exact hheld
  | store page contents =>
    rw [PageRun.step, Except.ok.injEq] at hstep
    rw [← hstep]
    exact hheld
  | copyFirst to_ => exact absurd hown id
  | copy from_ to_ size => exact absurd hown id
  | freePageTables nr size => exact absurd hown id

theorem Inv.page (h : Inv b s) {a : MapAct} {pages : PageRun} (hallowed : s.pages.Allowed a) (hown : s.Own a)
    (hstep : s.pages.step a = .ok pages)
    : Inv b { s with pages } := by
  -- An entry that has changed is present, and it is none of a range without page tables.
  have hdir : ∀ d, pages.memory.dir d = s.memory.dir d ∨ Entry.present (pages.memory.dir d) = true ∧
      ∃ (c : UserSlot) (p : Process) (j : Nat), s.table c.val = some p ∧ p.isZombie = false ∧ j < 16 ∧
        j < Memory.tables p.ldt.dataLimit ∧ d = c.block j := by
    intro d
    rcases h.pageDirs hallowed hown hstep with heq | ⟨c, p, j, hc, hruns, hj, hlt, henters⟩
    . exact .inl (congrFun heq d)
    . rcases henters d with heq | ⟨hd, hpresent⟩
      . exact .inl heq
      . exact .inr ⟨hpresent, c, p, j, hc ▸ hruns.left, hruns.right, hj, hlt, hd⟩
  constructor
  . exact PageRun.step_counted h.counted hallowed hstep
  . intro d hd hpresent
    replace hpresent : Entry.present (pages.memory.dir d) = false := hpresent
    rcases hdir d with heq | ⟨hp, _⟩
    . exact heq.trans (h.clean d hd (heq ▸ hpresent))
    . rw [hp] at hpresent
      cases hpresent
  . intro i p hi hp
    exact held_of_page hown hstep hp (h.held i p hi hp)
  . exact h.inj
  . exact h.first
  . exact h.slot
  . intro nr j hj hvacant
    rcases hdir (nr.block j) with heq | ⟨_, c, p, k, hp, hzombie, hk, hlt, hblock⟩
    . exact heq.trans (h.vacant nr j hj hvacant)
    . have hval := congrArg Fin.val hblock
      rw [nr.block_val hj, c.block_val hk] at hval
      have hslot : nr.val = c.val := Fin.ext (by omega)
      rcases hvacant p (hslot ▸ hp) with hz | hle
      . rw [hzombie] at hz
        cases hz
      . omega

theorem Inv.sysFork (h : Inv b s) {current : Process} (hcurrent : s.table s.current = some current)
    (hok : s.sysFork current = some s')
    : Inv b s' := by
  unfold Processes.sysFork at hok
  split at hok
  . cases hok
  . cases hok
    exact h.congr rfl rfl
  . next lastPid nr hfind =>
    obtain ⟨hnr, hnone⟩ := (findEmptyProcess_spec hfind).right nr rfl
    have hfree : s.table (⟨nr, hnr⟩ : UserSlot).val = none := by
      cases htable : s.table nr with
      | none => rfl
      | some p =>
        unfold pids at hnone
        rw [htable] at hnone
        cases hnone
    have h₁ : Inv b { s with lastPid } := h.congr rfl rfl
    rcases copyProcess_cases h₁ hfree hcurrent with
      ⟨s₁, _, hresult, hundone, _, hcounted⟩ | ⟨child, s₁, _, hresult, hforked, hcounted, hclean⟩ | ⟨_, _, hresult⟩
    . rw [hresult] at hok
      cases hok
      exact h₁.undone hundone hcounted
    . rw [hresult] at hok
      cases hok
      exact h₁.forked hfree (h.ldt hcurrent).right hforked hcounted hclean
    . rw [hresult] at hok
      cases hok

theorem Inv.init (b : KernelBoot) : Inv b (init b) := by
  have htable : ∀ {i p}, (Processes.init b).table i = some p → i = 0 ∧ p = Process.initTask := by
    intro i p hp
    unfold Processes.init at hp
    dsimp only at hp
    by_cases hi : i = 0
    . rw [hi, Function.update_self, Option.some.injEq] at hp
      exact ⟨hi, hp.symm⟩
    . rw [Function.update_of_ne hi] at hp
      cases hp
  have hdir : ∀ d : PageIndex, 16 ≤ d.val → (Processes.init b).memory.dir d = 0 := by
    intro d hd
    exact b.unmapped d (by omega)
  constructor
  . exact b.counted_init
  . intro d hd _
    exact hdir d hd
  . intro i p hi hp
    exact absurd (htable hp).left hi
  . intro i j p q hi _ hp
    exact absurd (htable hp).left hi
  . intro p hp
    rw [(htable hp).right]
  . intro nr p hp
    exact absurd (htable hp).left nr.property
  . intro nr j hj _
    exact hdir _ (nr.le_block hj)

theorem Inv.mathStateRestore (h : Inv b s) {current : Process} (hcurrent : s.table s.current = some current)
    : Inv b (s.mathStateRestore current) := by
  have hclear : Inv b { s with math := { s.math with ts := false } } := h.congr rfl rfl
  have hload : ∀ s₁ : Processes, Inv b s₁ → s₁.table s₁.current = some current → ∀ math,
      Inv b { s₁.setTask s₁.current (some { current with usedMath := true }) with math } := by
    intro s₁ h₁ hcurrent₁ math
    exact (h₁.setTask (q := { current with usedMath := true }) hcurrent₁ rfl rfl rfl).congr rfl rfl
  unfold Processes.mathStateRestore
  dsimp only
  split
  . exact hclear
  . next hother =>
    cases hlast : s.math.lastTask with
    | none => exact hload _ hclear hcurrent _
    | some last =>
      have hne : s.current ≠ last := fun heq => hother (hlast.trans (congrArg some heq.symm))
      dsimp only
      apply hload
      . cases htable : s.table last with
        | none =>
          apply h.congr
          . show Function.update s.table last none = s.table
            rw [← htable, Function.update_eq_self]
          . rfl
        | some p =>
          exact (h.setTask (q := { p with i387 := s.math.regs }) htable rfl rfl rfl).congr rfl rfl
      . exact (s.table_setTask_of_ne hne _).trans hcurrent

theorem Inv.step (h : Inv b s) {a : Act} (hallowed : s.Allowed a) (hstep : s.step a = some s') : Inv b s' := by
  cases a with
  | page a =>
    obtain ⟨pages, hpages, rfl⟩ := Option.map_eq_some_iff.mp hstep
    exact h.page hallowed.left hallowed.right (Run.ok_of_toOption hpages)
  | files filp pwd root executable fCount iCount =>
    obtain ⟨p, hp, rfl⟩ := Option.map_eq_some_iff.mp hstep
    exact (h.setTask hp (q := { p with filp, pwd, root, executable }) rfl rfl rfl).congr rfl rfl
  | task i task =>
    obtain ⟨p, hp, rfl⟩ := Option.map_eq_some_iff.mp hstep
    apply h.setTask (q := { p with task }) hp rfl rfl
    rw [Bool.eq_iff_iff, ← (hallowed p hp).right]
    exact beq_iff_eq
  | fork =>
    obtain ⟨current, hcurrent, hfork⟩ := Option.bind_eq_some_iff.mp hstep
    exact h.sysFork hcurrent hfork
  | execve textSize =>
    obtain ⟨p, hp, hcall⟩ := Option.bind_eq_some_iff.mp hstep
    obtain ⟨m', hfree, rfl⟩ := Option.map_eq_some_iff.mp hcall
    have hfreed := h.freeRanges (q := { p.changeLdt textSize with usedMath := false }) hp (Run.ok_of_toOption hfree) rfl
      rfl rfl (BitVec.le_refl TASK_SIZE)
    exact hfreed.congr rfl rfl
  | exit =>
    obtain ⟨p, hp, hcall⟩ := Option.bind_eq_some_iff.mp hstep
    obtain ⟨m', hfree, rfl⟩ := Option.map_eq_some_iff.mp hcall
    obtain ⟨hspaces, hlimit⟩ := h.ldt hp
    have hfreed := h.freeRanges (q := { p with task := { p.task with state := .TASK_ZOMBIE } }) hp
      (Run.ok_of_toOption hfree) rfl rfl hspaces hlimit
    exact hfreed.congr rfl rfl
  | release i =>
    obtain ⟨p, hp, hfree⟩ := Option.bind_eq_some_iff.mp hstep
    obtain ⟨hi, q, hq, hzombie⟩ := hallowed
    rw [hp, Option.some.injEq] at hq
    exact h.freeTask hi hp (hq ▸ hzombie) (Run.ok_of_toOption hfree)
  | switch i =>
    cases hstep
    unfold Processes.switchTo
    split
    . exact h
    . exact h.congr rfl rfl
  | mathTrap =>
    obtain ⟨current, hcurrent, rfl⟩ := Option.map_eq_some_iff.mp hstep
    exact h.mathStateRestore hcurrent
  | compute regs =>
    unfold Processes.step at hstep
    dsimp only at hstep
    split at hstep
    . cases hstep
    . cases hstep
      exact h.congr rfl rfl

theorem inv_of_reaches (h : Run.Reaches step Allowed (init b) s) : Inv b s := by
  apply h.invariant
  . exact Inv.init b
  . intro s s' a hinv hallowed hstep
    exact hinv.step hallowed hstep

/--
In every run, `copy_process` for a free slot fails exactly if there is no page for the task structure or for a page
table, and then it returns `-EAGAIN` and undoes all that it has done, except that the coprocessor is lost if `fnsave`
has emptied it. The only panic is for a data limit below the code limit.
-/
theorem restored_iff_keepsMath (h : Run.Reaches step Allowed (init b) s) (nr : UserSlot) (hnr : s.table nr.val = none)
    {current : Process} (hcurrent : s.table s.current = some current)
    : (s.NoMemory nr.val current → ∃ s', s.copyProcess nr.val current = .ok (-EAGAIN, s') ∧ s.Undone nr current s'
          ∧ (s.Restored nr current s' ↔ s.KeepsMath))
        ∧ (¬s.NoMemory nr.val current → (∃ s', s.copyProcess nr.val current = .ok (s.lastPid, s'))
          ∨ current.ldt.dataLimit < current.ldt.codeLimit ∧ s.copyProcess nr.val current = .error .badDataLimit) := by
  rcases copyProcess_cases (inv_of_reaches h) hnr hcurrent with
    ⟨s', hfails, hresult, hundone, hmath, _⟩ | ⟨_, s', hfails, hresult, _⟩ | ⟨hfails, hlimit, hresult⟩
  . have hrestored : s.Restored nr current s' ↔ s.KeepsMath :=
      ⟨fun hrestored => hmath.mp hrestored.math, fun hkeeps => ⟨hundone, hmath.mpr hkeeps⟩⟩
    exact ⟨fun _ => ⟨s', hresult, hundone, hrestored⟩, fun hno => absurd hfails hno⟩
  . exact ⟨fun hno => absurd hno hfails, fun _ => .inl ⟨s', hresult⟩⟩
  . exact ⟨fun hno => absurd hno hfails, fun _ => .inr ⟨hlimit, hresult⟩⟩

end steps

def onePage : KernelBoot :=
  { KernelBoot.plain with
    endMem := 0x101000
    le_high := by decide
    boundary := by decide
  }

theorem noMemory_onePage
    : ((init onePage).memory.getFreePage.map fun new =>
        (new.snd.copyPageTablesPart 0 (BitVec.ofNat 32 1 * TASK_SIZE) 0xa0000).snd) = some (some .outOfMemory) := by
  decide +kernel

-- Task 0 forks, and there is no page for the page table of its child.
theorem restored_onePage
    : ∃ page m s', (init onePage).memory.getFreePage = some (page, m)
        ∧ (init onePage).copyProcess 1 Process.initTask = .ok (-EAGAIN, s') ∧ s'.table 1 = none
        ∧ s'.memory.memMap = (init onePage).memory.memMap ∧ s'.math = (init onePage).math := by
  obtain ⟨⟨page, m⟩, hget, hfailure⟩ := Option.map_eq_some_iff.mp noMemory_onePage
  have hno : (init onePage).NoMemory 1 Process.initTask := .inr ⟨by decide, page, m, hget, hfailure⟩
  obtain ⟨s', hresult, hundone, hrestored⟩ := (restored_iff_keepsMath .refl ⟨1, by decide⟩ rfl rfl).left hno
  have hmath := (hrestored.mpr (.inr (.inl nofun))).math
  exact ⟨page, m, s', hget, hresult, congrFun hundone.table 1, hundone.memMap, hmath⟩

def computed : Processes :=
  let s := (init onePage).mathStateRestore Process.initTask
  { s with math := { s.math with regs := { s.math.regs with swd := 0xffff3800 } } }

theorem exec_computed : Run.exec step (init onePage) [.mathTrap, .compute computed.math.regs] = some computed := rfl

theorem reaches_computed : Run.Reaches step Allowed (init onePage) computed := by
  apply Run.Reaches.of_exec _ exec_computed
  refine ⟨⟨Process.initTask, rfl, rfl⟩, ?_⟩
  rintro s ⟨⟩
  exact ⟨⟨{ Process.initTask with usedMath := true }, rfl, rfl⟩, fun _ _ => trivial⟩

theorem not_keepsMath_computed : ¬computed.KeepsMath := by
  rintro (hnone | hother | hsame)
  . obtain ⟨_, hget, _⟩ := Option.map_eq_some_iff.mp noMemory_onePage
    rw [show computed.memory = (init onePage).memory from rfl, hget] at hnone
    cases hnone
  . exact hother rfl
  . have hword := congrArg (fun math => math.regs.swd) hsame
    revert hword
    decide

-- What it has computed is lost.
theorem not_restored_computed
    : ¬ ∀ s, Run.Reaches step Allowed (init onePage) s → ∀ (nr : UserSlot) (current : Process), s.table nr.val = none →
        s.table s.current = some current → s.NoMemory nr.val current →
        ∃ s', s.copyProcess nr.val current = .ok (-EAGAIN, s') ∧ s.Restored nr current s' := by
  intro h
  let parent : Process := { Process.initTask with usedMath := true }
  have hno : computed.NoMemory 1 parent := by
    obtain ⟨⟨page, m⟩, hget, hfailure⟩ := Option.map_eq_some_iff.mp noMemory_onePage
    exact .inr ⟨by decide, page, m, hget, hfailure⟩
  obtain ⟨s', hresult, hrestored⟩ := h computed reaches_computed ⟨1, by decide⟩ parent rfl rfl hno
  rcases @copyProcess_cases onePage computed ⟨1, by decide⟩ parent (inv_of_reaches reaches_computed) rfl rfl with
    ⟨s₁, _, hresult₁, _, hmath, _⟩ | ⟨_, _, hfails, _⟩ | ⟨hfails, _⟩
  . rw [hresult₁, Except.ok.injEq, Prod.mk.injEq] at hresult
    exact not_keepsMath_computed (hmath.mp (hresult.right ▸ hrestored.math))
  . exact hfails hno
  . exact hfails hno

end Processes
end OS
