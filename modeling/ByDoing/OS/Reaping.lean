import ByDoing.Lib.Lives
import ByDoing.OS.WaitPid

namespace OS

namespace Ledger

theorem stage_exited_of_apply {v : Ledger} {e : Event} (h : (v.apply e).stage = .exited)
    : v.stage = .exited ∨ e = .exit := by
  cases e with
  | exit => exact .inr rfl
  | quiet | tick _ | wake _ | scrap _ _ _ => exact .inl h
  | preempt | pass | give _ | childReady =>
    dsimp only [apply] at h
    split at h
    . simp at h
    . exact .inl h
  | expire _ | schedule | sleep _ | idle | select _ | reselect _ | switch _ | fork _ _ _ | release _ =>
    simp [apply] at h

theorem change_of_apply {v : Ledger} {e : Event} (he : v.Enabled e)
    : Lives.Change v.task (v.apply e).task := by
  cases e with
  | fork p nr pid => exact Lives.Change.enter he.right.right.right.left
  | release i => exact Lives.Change.leave v.task i
  | preempt | pass | give _ | childReady =>
    dsimp only [apply]
    split <;> exact Lives.Change.same v.task
  | quiet | tick _ | wake _ | scrap _ _ _ | expire _ | schedule | sleep _ | idle | select _ | reselect _ | switch _
  | exit => exact Lives.Change.same v.task

theorem zombie_of_apply {v : Ledger} {e : Event} (he : v.Enabled e) {p : Page} (hp : (v.apply e).Has p)
    (hzombie : (v.apply e).state p = .TASK_ZOMBIE)
    : e = .exit ∧ p = v.current
        ∨ v.Has p ∧ v.state p = .TASK_ZOMBIE ∧ (v.apply e).pid p = v.pid p := by
  have hset : ∀ (q : Page) (state : TaskState), Function.update v.state q state p = .TASK_ZOMBIE →
      state ≠ .TASK_ZOMBIE → p ≠ q ∧ v.state p = .TASK_ZOMBIE := by
    intro q state hstate hne
    by_cases hpq : p = q
    . subst hpq
      rw [Function.update_self] at hstate
      exact absurd hstate hne
    . rw [Function.update_of_ne hpq] at hstate
      exact ⟨hpq, hstate⟩
  cases e with
  | exit =>
    by_cases hself : p = v.current
    . exact .inl ⟨rfl, hself⟩
    . rw [show (v.apply .exit).state p = v.state p from Function.update_of_ne hself _ _] at hzombie
      exact .inr ⟨hp, hzombie, rfl⟩
  | wake q => exact .inr ⟨hp, (hset q _ hzombie (by simp)).right, rfl⟩
  | sleep state =>
    refine .inr ⟨hp, (hset _ state hzombie ?_).right, rfl⟩
    intro heq
    simp [Enabled, TaskState.asleep, heq] at he
  | idle => exact .inr ⟨hp, (hset _ _ hzombie (by simp)).right, rfl⟩
  | fork q nr pid =>
    obtain ⟨hne, hstate⟩ := hset q .TASK_RUNNING hzombie (by simp)
    refine .inr ⟨?_, hstate, Function.update_of_ne hne _ _⟩
    exact (@has_update_some v nr q p hp).resolve_left hne
  | release i => exact .inr ⟨@has_update_none v i p hp, hzombie, rfl⟩
  | scrap q pid state =>
    have hne : p ≠ q := by
      intro hpq
      exact he.left (hpq ▸ hp)
    rw [show (v.apply (.scrap q pid state)).state p = v.state p from Function.update_of_ne hne _ _] at hzombie
    exact .inr ⟨hp, hzombie, Function.update_of_ne hne _ _⟩
  | quiet | tick _ | expire _ | schedule | select _ | reselect _ | switch _ => exact .inr ⟨hp, hzombie, rfl⟩
  | preempt | pass | give _ | childReady =>
    revert hp hzombie
    dsimp only [apply]
    split <;> exact fun hp hzombie => .inr ⟨hp, hzombie, rfl⟩

end Ledger

def Kernel.sysWaitpid.Scan.zombie? : Kernel.sysWaitpid.Scan → Option Slot
  | .zombie i => some i
  | _ => none

namespace Kernel

-- The slot of the zombie that a call of `sys_waitpid` releases in this step, to return its pid and exit code.
def reaps (s : Kernel) : Act → Option Slot
  | .waitpid args =>
    if s.phase = .kernel ∧ s.isIdle = false then (sysWaitpid.scan s args false lastToFirst).zombie? else none
  | .go =>
    match s.phase with
    | .resumed (.waitpid args) =>
      let signal := (s.mem s.current).signal &&& ~~~signalBit SIGCHLD
      let s := s.setTask s.current { s.mem s.current with signal }
      if signal = 0 then (sysWaitpid.scan s args false lastToFirst).zombie? else none
    | _ => none
  | _ => none

-- `do_exit` makes the current task a zombie in this step.
def exits (s s' : Kernel) : Bool :=
  s'.phase == .exited && s.phase != .exited

theorem zombie?_eq_some {scan : sysWaitpid.Scan} {i : Slot} (h : scan.zombie? = some i)
    : scan = .zombie i := by
  cases scan with
  | zombie j =>
    simp only [sysWaitpid.Scan.zombie?, Option.some.injEq] at h
    rw [h]
  | stopped | waiting | noChild => simp [sysWaitpid.Scan.zombie?] at h

theorem scan_zombie_state {s : Kernel} {args : WaitArgs} {flag : Bool} {slots : List Slot} {i : Slot}
    (h : sysWaitpid.scan s args flag slots = .zombie i)
    : ∃ c, s.task i = some c ∧ (s.mem c).state = .TASK_ZOMBIE := by
  induction slots generalizing flag with
  | nil =>
    unfold sysWaitpid.scan at h
    split at h <;> simp at h
  | cons j slots ih =>
    unfold sysWaitpid.scan at h
    split at h
    . exact ih h
    . next p hp =>
      split at h
      . split at h
        . split at h
          . simp at h
          . exact ih h
        . next hzombie =>
          simp only [sysWaitpid.Scan.zombie.injEq] at h
          subst h
          exact ⟨p, hp, hzombie⟩
        . exact ih h
      . exact ih h

theorem sysWaitpid_of_zombie {s : Kernel} {args : WaitArgs} {i : Slot}
    (h : sysWaitpid.scan s args false lastToFirst = .zombie i)
    : (s.sysWaitpid args).fst.task = Function.update s.task i none := by
  unfold sysWaitpid
  rw [h]
  rfl

theorem written_task (m : Move) : (written m).task = m.fst.task := by
  obtain ⟨s, line⟩ := m
  cases line <;> rfl

theorem move_waitpid {s : Kernel} (hphase : s.phase = .kernel) (hidle : s.isIdle = false) (args : WaitArgs)
    : s.move (.waitpid args) = some (s.sysWaitpid args) := by
  dsimp only [move]
  rw [if_pos hphase]
  dsimp only [call]
  rw [hidle]
  rfl

theorem move_go_waitpid {s : Kernel} {args : WaitArgs} (hphase : s.phase = .resumed (.waitpid args))
    (hsignal : (s.mem s.current).signal &&& ~~~signalBit SIGCHLD = 0)
    : s.move .go = some ((s.setTask s.current { s.mem s.current with
        signal := (s.mem s.current).signal &&& ~~~signalBit SIGCHLD }).sysWaitpid args) := by
  dsimp only [move]
  rw [go, hphase]
  dsimp only [resume]
  rw [if_pos hsignal]

theorem reaps_spec {s s' : Kernel} {a : Act} {i : Slot} (h : s.reaps a = some i) (hstep : s.step a = some s')
    : s'.task = Function.update s.task i none
        ∧ ∃ c, s.task i = some c ∧ (s.mem c).state = .TASK_ZOMBIE := by
  rw [step_eq, Option.map_eq_some_iff] at hstep
  obtain ⟨m, hm, rfl⟩ := hstep
  rw [written_task]
  cases a with
  | waitpid args =>
    dsimp only [reaps] at h
    split at h
    . next hand =>
      have hscan := zombie?_eq_some h
      rw [move_waitpid hand.left hand.right, Option.some.injEq] at hm
      rw [← hm]
      exact ⟨sysWaitpid_of_zombie hscan, scan_zombie_state hscan⟩
    . simp at h
  | go =>
    dsimp only [reaps] at h
    split at h
    . next args hphase =>
      split at h
      . next hsignal =>
        have hscan := zombie?_eq_some h
        obtain ⟨_, hne⟩ := scan_zombie hscan
        obtain ⟨c, hc, hzombie⟩ := scan_zombie_state hscan
        rw [move_go_waitpid hphase hsignal, Option.some.injEq] at hm
        rw [← hm]
        refine ⟨sysWaitpid_of_zombie hscan, c, hc, ?_⟩
        have hself : c ≠ s.current := by
          intro hself
          exact hne (hself ▸ hc)
        rw [← hzombie]
        exact congrArg Task.state (Function.update_of_ne hself _ _).symm
      . simp at h
    . simp at h
  | _ => simp [reaps] at h

theorem stage_eq_exited_iff {phase : Phase} : phase.stage = .exited ↔ phase = .exited := by
  cases phase <;> simp [Phase.stage]

end Kernel

-- What `do_exit` leaves of a task, which is here in one of its lives.
structure Exit where
  life : Nat
  pid : Nat
  code : BitVec 32
  deriving Repr, DecidableEq

/--
A run of the kernel with the exit codes of the tasks, and a record of the tasks that have exited, of those whose
slot has been released and of those that `sys_waitpid` has returned. `exit_code` is set by `do_exit` alone.
-/
structure WaitRun where
  kernel : Kernel
  exitCode : Page → BitVec 32
  lives : Lives.Record Page
  exited : List Exit
  returned : List Exit

namespace WaitRun

def init (jiffies : BitVec 32) : WaitRun :=
  {
    kernel := .init jiffies
    exitCode := fun _ => 0
    lives := .init
    exited := []
    returned := []
  }

def exitOf (r : WaitRun) (p : Page) : Exit :=
  { life := r.lives.life p, pid := (r.kernel.mem p).pid, code := r.exitCode p }

-- An action comes with the argument of `do_exit`.
def step (r : WaitRun) (a : Kernel.Act × BitVec 32) : Option WaitRun :=
  match r.kernel.step a.fst with
  | none => none
  | some kernel =>
    let exits := r.kernel.exits kernel
    some {
      kernel
      exitCode := if exits then Function.update r.exitCode r.kernel.current a.snd else r.exitCode
      lives := r.lives.next (List.finRange NR_TASKS) r.kernel.task kernel.task
      exited :=
        if exits then r.exited ++ [{ r.exitOf r.kernel.current with code := a.snd }] else r.exited
      returned := r.returned ++ (((r.kernel.reaps a.fst).bind r.kernel.task).toList.map r.exitOf)
    }

/--
A task that has exited is still in the table or its slot has been released once, and of those that
`sys_waitpid` has returned, each has been released and none has been returned twice.
-/
structure ReapedOnce (r : WaitRun) : Prop where
  held : ∀ e ∈ r.exited, (∃ i p, r.kernel.task i = some p ∧ r.lives.life p = e.life) →
    r.lives.released.count e.life = 0
  released : ∀ e ∈ r.exited, (¬∃ i p, r.kernel.task i = some p ∧ r.lives.life p = e.life) →
    r.lives.released.count e.life = 1
  returned : ∀ e ∈ r.returned, e ∈ r.exited ∧ r.lives.released.count e.life = 1
  once : (r.returned.map Exit.life).Nodup

structure Accounted (r : WaitRun) : Prop where
  lives : r.lives.Sound r.kernel.task
  zombie : ∀ i p, r.kernel.task i = some p → (r.kernel.mem p).state = .TASK_ZOMBIE → r.exitOf p ∈ r.exited
  exited : ∀ e ∈ r.exited,
    e.life ∈ r.lives.released ∨ ∃ i p, r.kernel.task i = some p ∧ r.lives.life p = e.life
  returned : ∀ e ∈ r.returned, e ∈ r.exited ∧ e.life ∈ r.lives.released
  once : (r.returned.map Exit.life).Nodup

theorem Accounted.reapedOnce {r : WaitRun} (h : r.Accounted) : r.ReapedOnce := by
  have hone : ∀ n ∈ r.lives.released, r.lives.released.count n = 1 :=
    fun n hn => List.count_eq_one_of_mem h.lives.released_nodup hn
  constructor
  . intro e _ ⟨i, p, hp, hlife⟩
    rw [← hlife, List.count_eq_zero]
    exact h.lives.unreleased p ⟨i, hp⟩
  . intro e he hnot
    exact hone e.life ((h.exited e he).resolve_right hnot)
  . intro e he
    exact ⟨(h.returned e he).left, hone e.life (h.returned e he).right⟩
  . exact h.once

theorem init_accounted (jiffies : BitVec 32) : (init jiffies).Accounted := by
  have htask : ∀ i p, (init jiffies).kernel.task i = some p → i = 0 ∧ p = 0 := by
    intro i p hp
    by_cases hi : i = 0
    . subst hi
      simp [init, Kernel.init] at hp
      exact ⟨rfl, hp.symm⟩
    . simp [init, Kernel.init, hi] at hp
  constructor
  . constructor
    . intro i j p hi hj
      rw [(htask i p hi).left, (htask j p hj).left]
    . intro p q hp hq _
      obtain ⟨i, hi⟩ := hp
      obtain ⟨j, hj⟩ := hq
      rw [(htask i p hi).right, (htask j q hj).right]
    . intro p _
      exact Nat.one_pos
    . simp [init, Lives.Record.init]
    . simp [init, Lives.Record.init]
    . simp [init, Lives.Record.init]
  . intro i p _ hzombie
    simp [init, Kernel.init, Task.initTask] at hzombie
  . simp [init]
  . simp [init]
  . simp [init]

theorem mem_slots (i : Slot) : i ∈ List.finRange NR_TASKS :=
  List.mem_finRange i

structure Recorded (r r' : WaitRun) (e : Ledger.Event) : Prop where
  enabled : r.kernel.ledger.Enabled e
  ledger : r'.kernel.ledger = r.kernel.ledger.apply e
  lives : r'.lives = r.lives.next (List.finRange NR_TASKS) r.kernel.task r'.kernel.task
  exit : e = .exit → ∃ code, r'.exitCode = Function.update r.exitCode r.kernel.current code
    ∧ r'.exited = r.exited ++ [{ r.exitOf r.kernel.current with code }]
  noExit : e ≠ .exit → r'.exitCode = r.exitCode ∧ r'.exited = r.exited
  returned : r'.returned = r.returned ∨ ∃ i c, r.kernel.task i = some c
    ∧ (r.kernel.mem c).state = .TASK_ZOMBIE ∧ r'.kernel.task = Function.update r.kernel.task i none
    ∧ r'.returned = r.returned ++ [r.exitOf c]

theorem recorded_of_step {r r' : WaitRun} {a : Kernel.Act × BitVec 32} (hplain : r.kernel.IdlePlain)
    (horder : r.kernel.ledger.Orderly) (h : r.step a = some r')
    : ∃ e, r.Recorded r' e := by
  unfold step at h
  split at h
  . simp at h
  . next kernel hstep =>
    obtain ⟨e, henabled, hledger, _⟩ := Kernel.step_simulates hplain horder hstep
    have hexits : r.kernel.exits kernel = true ↔ e = .exit := by
      have hstage : kernel.phase.stage = (r.kernel.ledger.apply e).stage := congrArg Ledger.stage hledger
      simp only [Kernel.exits, Bool.and_eq_true, beq_iff_eq, bne_iff_ne, ne_eq]
      rw [← Kernel.stage_eq_exited_iff, ← Kernel.stage_eq_exited_iff, hstage]
      constructor
      . intro ⟨hafter, hbefore⟩
        exact (Ledger.stage_exited_of_apply hafter).resolve_left hbefore
      . intro he
        subst he
        refine ⟨rfl, ?_⟩
        intro hbefore
        have hrunning := henabled.left
        rw [show r.kernel.ledger.stage = r.kernel.phase.stage from rfl, hbefore] at hrunning
        simp at hrunning
    cases h
    refine ⟨e, henabled, hledger, rfl, ?_, ?_, ?_⟩
    . intro he
      rw [if_pos (hexits.mpr he), if_pos (hexits.mpr he)]
      exact ⟨a.snd, rfl, rfl⟩
    . intro he
      have hnot : ¬r.kernel.exits kernel = true := fun htrue => he (hexits.mp htrue)
      rw [if_neg hnot, if_neg hnot]
      exact ⟨rfl, rfl⟩
    . dsimp only
      cases hreaps : r.kernel.reaps a.fst with
      | none => exact .inl (by simp)
      | some i =>
        obtain ⟨htask, c, hc, hzombie⟩ := Kernel.reaps_spec hreaps hstep
        exact .inr ⟨i, c, hc, hzombie, htask, by simp [hc]⟩

theorem Recorded.task {r r' : WaitRun} {e : Ledger.Event} (h : r.Recorded r' e)
    : r'.kernel.task = (r.kernel.ledger.apply e).task :=
  congrArg Ledger.task h.ledger

theorem Recorded.life {r r' : WaitRun} {e : Ledger.Event} (h : r.Recorded r' e) {p : Page}
    (hp : ∃ i, r.kernel.task i = some p)
    : r'.lives.life p = r.lives.life p := by
  rw [h.lives]
  exact Lives.life_next_of_holds mem_slots hp

theorem Recorded.subset {r r' : WaitRun} {e : Ledger.Event} (h : r.Recorded r' e)
    : ∀ x ∈ r.exited, x ∈ r'.exited := by
  intro x hx
  by_cases he : e = .exit
  . obtain ⟨code, _, hexited⟩ := h.exit he
    rw [hexited]
    exact List.mem_append_left _ hx
  . rw [(h.noExit he).right]
    exact hx

theorem Recorded.accounts {r r' : WaitRun} {e : Ledger.Event} (h : r.Recorded r' e) {n : Nat}
    (hn : n ∈ r.lives.released ∨ ∃ i p, r.kernel.task i = some p ∧ r.lives.life p = n)
    : n ∈ r'.lives.released ∨ ∃ i p, r'.kernel.task i = some p ∧ r'.lives.life p = n := by
  rcases hn with hn | ⟨i, p, hp, hlife⟩
  . left
    rw [h.lives]
    exact (Lives.released_next_iff mem_slots).mpr (.inl hn)
  . by_cases hstays : r'.kernel.task i = some p
    . exact .inr ⟨i, p, hstays, (h.life ⟨i, hp⟩).trans hlife⟩
    . left
      rw [h.lives]
      exact (Lives.released_next_iff mem_slots).mpr (.inr ⟨i, p, hp, hstays, hlife⟩)

theorem Recorded.zombie {r r' : WaitRun} {e : Ledger.Event} (h : r.Recorded r' e)
    (horder : r.kernel.ledger.Orderly) (hacc : r.Accounted) {i : Slot} {p : Page}
    (hp : r'.kernel.task i = some p) (hzombie : (r'.kernel.mem p).state = .TASK_ZOMBIE)
    : r'.exitOf p ∈ r'.exited := by
  have hpid : (r'.kernel.mem p).pid = (r.kernel.ledger.apply e).pid p :=
    congrFun (congrArg Ledger.pid h.ledger) p
  have hstate : (r'.kernel.mem p).state = (r.kernel.ledger.apply e).state p :=
    congrFun (congrArg Ledger.state h.ledger) p
  have hhas : (r.kernel.ledger.apply e).Has p := ⟨i, h.task ▸ hp⟩
  rw [hstate] at hzombie
  rcases Ledger.zombie_of_apply h.enabled hhas hzombie with ⟨he, hself⟩ | ⟨hold, hwas, hsame⟩
  . obtain ⟨code, hcode, hexited⟩ := h.exit he
    subst he
    have hself' : p = r.kernel.current := hself
    subst hself'
    have htable : ∃ i, r.kernel.task i = some r.kernel.current := horder.in_table (.inl h.enabled.left)
    have heq : r'.exitOf r.kernel.current = { r.exitOf r.kernel.current with code } := by
      unfold exitOf
      rw [h.life htable, hpid, hcode, Function.update_self]
      rfl
    rw [hexited, heq]
    exact List.mem_append_right _ (List.mem_singleton.mpr rfl)
  . have hmem := hacc.zombie _ p hold.choose_spec hwas
    have hcode : r'.exitCode p = r.exitCode p := by
      by_cases he : e = .exit
      . obtain ⟨code, hcode, _⟩ := h.exit he
        subst he
        have hne : p ≠ r.kernel.current := by
          intro hself
          have hrunning := horder.running (.inl h.enabled.left) h.enabled.right
          rw [show r.kernel.ledger.current = p from hself.symm, hwas] at hrunning
          simp at hrunning
        rw [hcode, Function.update_of_ne hne]
      . rw [(h.noExit he).left]
    have heq : r'.exitOf p = r.exitOf p := by
      unfold exitOf
      rw [h.life hold, hpid, hsame, hcode]
      rfl
    rw [heq]
    exact h.subset _ hmem

theorem Recorded.accounted {r r' : WaitRun} {e : Ledger.Event} (h : r.Recorded r' e)
    (horder : r.kernel.ledger.Orderly) (hacc : r.Accounted)
    : r'.Accounted := by
  have hchange : Lives.Change r.kernel.task r'.kernel.task := by
    rw [h.task]
    exact Ledger.change_of_apply h.enabled
  constructor
  . rw [h.lives]
    exact hacc.lives.next mem_slots (List.nodup_finRange NR_TASKS) hchange
  . intro i p hp hzombie
    exact h.zombie horder hacc hp hzombie
  . intro x hx
    by_cases he : e = .exit
    . obtain ⟨code, _, hexited⟩ := h.exit he
      rw [hexited, List.mem_append, List.mem_singleton] at hx
      rcases hx with hx | rfl
      . exact h.accounts (hacc.exited x hx)
      . subst he
        obtain ⟨i, hi⟩ := horder.in_table (.inl h.enabled.left)
        exact h.accounts (.inr ⟨i, r.kernel.current, hi, rfl⟩)
    . rw [(h.noExit he).right] at hx
      exact h.accounts (hacc.exited x hx)
  . intro x hx
    have hold : ∀ x ∈ r.returned, x ∈ r'.exited ∧ x.life ∈ r'.lives.released := by
      intro x hx
      obtain ⟨hexited, hreleased⟩ := hacc.returned x hx
      refine ⟨h.subset x hexited, ?_⟩
      rw [h.lives]
      exact (Lives.released_next_iff mem_slots).mpr (.inl hreleased)
    rcases h.returned with hsame | ⟨i, c, hc, hzombie, htask, hreturned⟩
    . exact hold x (hsame ▸ hx)
    . rw [hreturned, List.mem_append, List.mem_singleton] at hx
      rcases hx with hx | rfl
      . exact hold x hx
      . refine ⟨h.subset _ (hacc.zombie i c hc hzombie), ?_⟩
        rw [h.lives]
        refine (Lives.released_next_iff mem_slots).mpr (.inr ⟨i, c, hc, ?_, rfl⟩)
        rw [htask, Function.update_self]
        simp
  . rcases h.returned with hsame | ⟨i, c, hc, _, _, hreturned⟩
    . rw [hsame]
      exact hacc.once
    . rw [hreturned, List.map_append, List.nodup_append]
      refine ⟨hacc.once, List.nodup_singleton _, ?_⟩
      intro n hn m hm heq
      obtain ⟨x, hx, rfl⟩ := List.mem_map.mp hn
      rw [List.map_singleton, List.mem_singleton] at hm
      apply hacc.lives.unreleased c ⟨i, hc⟩
      rw [show r.lives.life c = x.life from hm.symm.trans heq.symm]
      exact (hacc.returned x hx).right

def Heard (r : WaitRun) (a : Kernel.Act × BitVec 32) : Prop :=
  r.kernel.Heard a.fst

instance (r : WaitRun) (a : Kernel.Act × BitVec 32) : Decidable (r.Heard a) :=
  inferInstanceAs (Decidable (r.kernel.Heard a.fst))

theorem kernel_step {r r' : WaitRun} {a : Kernel.Act × BitVec 32} (h : r.step a = some r')
    : r.kernel.step a.fst = some r'.kernel := by
  unfold step at h
  split at h
  . simp at h
  . next hstep =>
    cases h
    exact hstep

theorem init_noneStranded (jiffies : BitVec 32) : (Kernel.init jiffies).NoneStranded := by
  intro i p j c _ _ hwaits
  have hstate := hwaits.left
  simp [Kernel.init, Task.initTask] at hstate

theorem init_idleAlive (jiffies : BitVec 32) : (Kernel.init jiffies).IdleAlive := by
  intro p _
  simp [Kernel.init, Task.initTask]

theorem accounted_of_reaches {jiffies : BitVec 32} {ok : WaitRun → Kernel.Act × BitVec 32 → Prop} {r : WaitRun}
    (h : Run.Reaches step ok (init jiffies) r)
    : r.kernel.IdlePlain ∧ r.kernel.ledger.Orderly ∧ r.Accounted := by
  refine h.invariant (fun r => r.kernel.IdlePlain ∧ r.kernel.ledger.Orderly ∧ r.Accounted) ?_ ?_
  . exact ⟨Kernel.init_idlePlain jiffies, Kernel.init_orderly jiffies, init_accounted jiffies⟩
  . intro r r' a ⟨hplain, horder, hacc⟩ _ hstep
    obtain ⟨e, hrecorded⟩ := recorded_of_step hplain horder hstep
    refine ⟨hplain.step (kernel_step hstep), ?_, hrecorded.accounted horder hacc⟩
    rw [hrecorded.ledger]
    exact horder.apply hrecorded.enabled

theorem noneStranded_and_reapedOnce {jiffies : BitVec 32} {r : WaitRun}
    (h : Run.Reaches step Heard (init jiffies) r)
    : r.kernel.NoneStranded ∧ r.ReapedOnce := by
  have hinv : (r.kernel.IdlePlain ∧ r.kernel.ledger.Orderly) ∧ r.kernel.IdleAlive ∧ r.kernel.NoneStranded := by
    refine h.invariant (fun r => (r.kernel.IdlePlain ∧ r.kernel.ledger.Orderly)
      ∧ r.kernel.IdleAlive ∧ r.kernel.NoneStranded) ?_ ?_
    . exact ⟨⟨Kernel.init_idlePlain jiffies, Kernel.init_orderly jiffies⟩, init_idleAlive jiffies,
        init_noneStranded jiffies⟩
    . intro r r' a ⟨⟨hplain, horder⟩, halive, hnone⟩ hheard hstep
      have hkernel := kernel_step hstep
      obtain ⟨e, henabled, heq, _⟩ := Kernel.step_simulates hplain horder hkernel
      refine ⟨⟨hplain.step hkernel, ?_⟩, halive.step hplain horder hkernel,
        hnone.step hplain horder halive hheard hkernel⟩
      rw [heq]
      exact horder.apply henabled
  exact ⟨hinv.right.right, (accounted_of_reaches h).right.right.reapedOnce⟩

-- The first task forks, sets its mask and waits for its child, which gets the CPU and exits; then `schedule` looks
-- for the next task.
def waitActs (mask : BitVec 32) : List Kernel.Act :=
  Kernel.firstSwitch ++ ([.enter, .fork (some 2) true, .go, .ssetmask mask,
      .waitpid { pid := -1, wnohang := false, wuntraced := false }] : List Kernel.Act)
    ++ List.replicate 69 Kernel.Act.go ++ ([.enter, .reparent, .exit, .go] : List Kernel.Act) ++ List.replicate 69 Kernel.Act.go

def waitAndExit (mask : BitVec 32) : List (Kernel.Act × BitVec 32) :=
  (waitActs mask).map fun a => (a, 5)

theorem reapedOnce_waitAndExit
    : ∃ r, Run.Reaches step Heard (init 48) r
        ∧ r.returned = [{ life := 75, pid := 2, code := 5 }] ∧ r.kernel.NoneStranded ∧ r.ReapedOnce := by
  have hrun : (Run.exec step (init 48) (waitAndExit 0)).map (fun r => r.returned)
      = some [{ life := 75, pid := 2, code := 5 }] := by
    decide +kernel
  obtain ⟨r, hr, hreturned⟩ := Option.map_eq_some_iff.mp hrun
  have hok : Run.AllOk step Heard (init 48) (waitAndExit 0) := by decide +kernel
  have hreach := Run.Reaches.of_exec hok hr
  exact ⟨r, hreach, hreturned, noneStranded_and_reapedOnce hreach⟩

-- With `SIGCHLD` blocked the father sleeps on, and task 0 has the CPU.
theorem not_noneStranded_of_blocked
    : ¬∀ jiffies r, Run.Reaches step (fun _ _ => True) (init jiffies) r → r.kernel.NoneStranded ∧ r.ReapedOnce := by
  intro hall
  have hrun : (Run.exec step (init 48) (waitAndExit (signalBit SIGCHLD))).map
      (fun r => ((r.kernel.current, r.kernel.phase), r.kernel.task 1, r.kernel.task 2))
        = some ((0, .kernel), some 1, some 2) := by
    decide +kernel
  have htasks : (Run.exec step (init 48) (waitAndExit (signalBit SIGCHLD))).map
      (fun r => (decide (r.kernel.Waits 1), decide (r.kernel.Zombie 2), (r.kernel.mem 2).father,
        (r.kernel.mem 1).pid, (r.kernel.mem 1).roused r.kernel.jiffies)) = some (true, true, 1, 1, false) := by
    decide +kernel
  obtain ⟨r, hr, hfacts⟩ := Option.map_eq_some_iff.mp hrun
  rw [hr, Option.map_some] at htasks
  simp only [Prod.mk.injEq, Option.some.injEq, decide_eq_true_eq] at hfacts htasks
  obtain ⟨_, hfather, hchild⟩ := hfacts
  obtain ⟨hwaits, hzombie, hof, hpid, hroused⟩ := htasks
  have hreach := Run.Reaches.of_exec (Run.allOk_of_forall (fun _ _ => trivial)) hr
  have hnone := (hall 48 r hreach).left 1 1 2 2 hfather hchild hwaits (by decide) (by rw [hof, hpid]; rfl) hzombie
  rw [hroused] at hnone
  simp at hnone

end WaitRun
end OS
