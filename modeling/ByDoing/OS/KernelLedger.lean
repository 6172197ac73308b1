import ByDoing.OS.IdleTask
import ByDoing.OS.Ledger

namespace OS

def Phase.stage : Phase → Stage
  | .user => .running
  | .ret => .running
  | .kernel => .running
  | .forked child => .forked child
  | .exited => .exited
  | .signals _ _ => .choosing
  | .select _ => .choosing
  | .ready next _ => .ready next
  | .run next _ => .run next
  | .switch next _ => .given next
  | .resumed _ => .running
  | .again _ _ => .running

namespace Kernel

/--
The task that a step makes ready: in `wake_up`, in the first loop of `schedule`, or after the `schedule` of
one of the sleep functions.
-/
def wakes (s : Kernel) : Act → Option Page
  | .wakeUp q => s.queue q
  | .interrupt q => s.queue q
  | .go =>
    match s.phase with
    | .signals (i :: _) _ =>
      match s.task i with
      | none => none
      | some p =>
        let t := (s.mem p).checkAlarm s.jiffies
        if t.hasSignal && t.state == .TASK_INTERRUPTIBLE then some p else none
    | .resumed (.sleepOn tmp) => tmp
    | .resumed (.interruptibleSleepOn q tmp) =>
      match s.queue q with
      | some p => if p = s.current then tmp else some p
      | none => tmp
    | _ => none
  | _ => none

def ledger (s : Kernel) : Ledger :=
  {
    task := s.task
    pid := fun p => (s.mem p).pid
    state := fun p => (s.mem p).state
    current := s.current
    stage := s.phase.stage
    time := s.jiffies.toInt
    log := s.log
  }

structure Simulates (s : Kernel) (m : Move) (e : Ledger.Event) : Prop where
  enabled : s.ledger.Enabled e
  ledger_eq : (written m).ledger = s.ledger.apply e

theorem ledger_setTask (s : Kernel) (p : Page) (t : Task)
    : (s.setTask p t).ledger = (s.ledger.setPid p t.pid).setState p t.state := by
  unfold ledger setTask Ledger.setState Ledger.setPid
  simp only [Ledger.mk.injEq, true_and, and_true]
  constructor
  . funext q
    by_cases hq : q = p <;> simp [hq]
  . funext q
    by_cases hq : q = p <;> simp [hq]

theorem setPid_eq_self (v : Ledger) (p : Page) : v.setPid p (v.pid p) = v := by
  simp [Ledger.setPid]

theorem setState_eq_self (v : Ledger) (p : Page) : v.setState p (v.state p) = v := by
  simp [Ledger.setState]

theorem ledger_setTask_of_eq {s : Kernel} {p : Page} {t : Task} (hpid : t.pid = (s.mem p).pid)
    (hstate : t.state = (s.mem p).state)
    : (s.setTask p t).ledger = s.ledger := by
  rw [ledger_setTask, hpid, hstate]
  rw [show (s.mem p).pid = s.ledger.pid p from rfl, setPid_eq_self]
  apply setState_eq_self

theorem ledger_setState (s : Kernel) (p : Page) (state : TaskState)
    : (s.setState p state).ledger = s.ledger.setState p state := by
  unfold setState
  rw [ledger_setTask, show (s.mem p).pid = s.ledger.pid p from rfl, setPid_eq_self]

theorem ledger_setCurrent {s : Kernel} {f : Task → Task} (hpid : ∀ t, (f t).pid = t.pid)
    (hstate : ∀ t, (f t).state = t.state)
    : (s.setCurrent f).ledger = s.ledger := by
  apply ledger_setTask_of_eq
  . apply hpid
  . apply hstate

theorem ledger_setSlot {s : Kernel} {i : Slot} {f : Task → Task} (hpid : ∀ t, (f t).pid = t.pid)
    (hstate : ∀ t, (f t).state = t.state)
    : (s.setSlot i f).ledger = s.ledger := by
  unfold setSlot
  split
  . rfl
  . apply ledger_setTask_of_eq
    . apply hpid
    . apply hstate

theorem ledger_mem {s : Kernel} {mem : Page → Task} (hpid : ∀ p, (mem p).pid = (s.mem p).pid)
    (hstate : ∀ p, (mem p).state = (s.mem p).state)
    : { s with mem }.ledger = s.ledger := by
  unfold ledger
  simp only [hpid, hstate]

theorem ledger_refill (s : Kernel) : s.refill.ledger = s.ledger := by
  apply ledger_mem
  all_goals
    intro p
    split <;> rfl

theorem ledger_reparent (s : Kernel) : s.reparent.ledger = s.ledger := by
  apply ledger_mem
  all_goals
    intro p
    dsimp only
    split <;> split <;> rfl

theorem ledger_killSession (s : Kernel) : s.killSession.ledger = s.ledger := by
  apply ledger_mem
  all_goals
    intro p
    split <;> rfl

theorem ledger_phase {s s' : Kernel} (h : s'.ledger = s.ledger) {phase : Phase}
    (hstage : phase.stage = s.phase.stage)
    : { s' with phase }.ledger = s.ledger := by
  have heq : { s' with phase }.ledger = s'.ledger.setStage phase.stage := rfl
  rw [heq, h, hstage]
  rfl

theorem ledger_schedule (s : Kernel) (frame : Frame)
    : (s.schedule frame).ledger = s.ledger.setStage .choosing :=
  rfl

theorem ledger_fprintk (s : Kernel) (p : Page) (letter : Letter)
    : (s.fprintk p letter).ledger = s.ledger.write p letter :=
  rfl

theorem simulates_quiet {s s' : Kernel} (h : s'.ledger = s.ledger) : Simulates s (s', none) .quiet :=
  ⟨trivial, h⟩

theorem simulates_wake {s s' : Kernel} (h : s'.ledger = s.ledger) (p : Page)
    : Simulates s (s'.wake p) (.wake p) := by
  refine ⟨trivial, ?_⟩
  dsimp only [wake, written, Ledger.apply]
  rw [ledger_fprintk, ledger_setState, h]

theorem simulates_sleep {s s' : Kernel} (h : s'.ledger = s.ledger) (hstage : s.phase.stage = .running)
    (hpid : (s.mem s.current).pid ≠ 0) {state : TaskState} (hasleep : state.asleep) (frame : Frame)
    : Simulates s (s'.sleep state frame) (.sleep state) := by
  refine ⟨⟨hstage, hpid, hasleep⟩, ?_⟩
  have hcurrent : s'.current = s.current := congrArg Ledger.current h
  dsimp only [sleep, written, Ledger.apply]
  rw [ledger_fprintk, ledger_schedule, ledger_setState, h, hcurrent]
  rfl

theorem simulates_sysPause {s : Kernel} (hstage : s.phase.stage = .running)
    : ∃ e, Simulates s s.sysPause e ∧ (e = .idle ∨ e = .sleep .TASK_INTERRUPTIBLE) := by
  unfold sysPause
  dsimp only
  split
  . next hpid =>
    refine ⟨.sleep .TASK_INTERRUPTIBLE, ?_, .inr rfl⟩
    exact simulates_sleep rfl hstage hpid (.inl rfl) .kernel
  . next hpid =>
    refine ⟨.idle, ⟨⟨hstage, not_not.mp hpid⟩, ?_⟩, .inl rfl⟩
    dsimp only [written, Ledger.apply]
    rw [ledger_schedule, ledger_setState]
    rfl

theorem simulates_sysWaitpid {s s' : Kernel} (h : s'.ledger = s.ledger) (hstage : s.phase.stage = .running)
    (hpid : (s.mem s.current).pid ≠ 0) (args : WaitArgs)
    : ∃ e, Simulates s (s'.sysWaitpid args) e
        ∧ (e = .quiet ∨ e = .sleep .TASK_INTERRUPTIBLE ∨ ∃ i, e = .release i) := by
  have hkernel : { s' with phase := .kernel }.ledger = s.ledger := by
    apply ledger_phase h
    rw [hstage]
    rfl
  have htask : s'.task = s.task := congrArg Ledger.task h
  have hcurrent : s'.current = s.current := congrArg Ledger.current h
  unfold sysWaitpid
  split
  . next i hscan =>
    obtain ⟨hmem, hne⟩ := scan_zombie hscan
    rw [htask, hcurrent] at hne
    refine ⟨.release i, ⟨⟨mem_lastToFirst hmem, .inr ⟨hstage, hne⟩⟩, ?_⟩, .inr (.inr ⟨i, rfl⟩)⟩
    have heq : { s' with task := Function.update s'.task i none }.ledger = s'.ledger.setSlot i none := rfl
    dsimp only [written, Ledger.apply]
    rw [ledger_schedule, heq, h]
  . split
    . exact ⟨.quiet, simulates_quiet hkernel, .inl rfl⟩
    . exact ⟨_, simulates_sleep h hstage hpid (.inl rfl) _, .inr (.inl rfl)⟩
  . exact ⟨.quiet, simulates_quiet hkernel, .inl rfl⟩

theorem simulates_doExit {s : Kernel} (hstage : s.phase.stage = .running) (hpid : (s.mem s.current).pid ≠ 0)
    : Simulates s s.doExit .exit := by
  refine ⟨⟨hstage, hpid⟩, ?_⟩
  unfold doExit
  have hledger : (if (s.mem s.current).leader then s.killSession else s).ledger = s.ledger := by
    split
    . apply ledger_killSession
    . rfl
  generalize hs' : (if (s.mem s.current).leader then s.killSession else s) = s' at hledger
  have hcurrent : s'.current = s.current := congrArg Ledger.current hledger
  have hphase : ∀ t : Kernel, { t with phase := .exited }.ledger = t.ledger.setStage .exited := fun _ => rfl
  dsimp only [written, Ledger.apply]
  rw [ledger_fprintk, hphase, ledger_setState, hledger, hcurrent]
  rfl

theorem simulates_tellFather {s s' : Kernel} (hphase : s.phase = .exited) (h : s.tellFather = some s')
    : ∃ e, Simulates s (s', none) e ∧ (e = .schedule ∨ ∃ i, e = .release i) := by
  have hstage : s.ledger.stage = .exited := by
    unfold ledger
    rw [hphase]
    rfl
  unfold tellFather at h
  dsimp only at h
  split at h
  . next p _ =>
    cases h
    have hraise : (s.setTask p ((s.mem p).raise (signalBit SIGCHLD))).ledger = s.ledger :=
      ledger_setTask_of_eq rfl rfl
    refine ⟨.schedule, ⟨.inr hstage, ?_⟩, .inl rfl⟩
    dsimp only [written, Ledger.apply]
    rw [ledger_schedule, hraise]
  . split at h
    . simp at h
    . next i hfind =>
      cases h
      have hmem := List.mem_of_find?_eq_some hfind
      have hall : ∀ i ∈ (List.finRange NR_TASKS).drop 1, i ≠ 0 := by decide
      refine ⟨.release i, ⟨⟨hall i hmem, .inl hstage⟩, ?_⟩, .inr ⟨i, rfl⟩⟩
      rfl

theorem simulates_sysFork {s : Kernel} {m : Move} {page : Option Page} {memOk : Bool}
    (hphase : s.phase = .kernel) (h : s.sysFork page memOk = some m)
    : ∃ e, Simulates s m e
        ∧ (e = .quiet ∨ (∃ p pid state, e = .scrap p pid state)
          ∨ ∃ p nr pid, e = .fork p nr pid ∧ page = some p ∧ memOk = true
            ∧ findEmptyProcess s.pids s.lastPid = some (pid, some nr)) := by
  unfold sysFork at h
  split at h
  . simp at h
  . next pid nr? hfind =>
    split at h
    . next nr p =>
      split at h
      . simp at h
      . next hnew =>
        rw [Bool.or_eq_true, not_or, inTable_iff, beq_iff_eq] at hnew
        obtain ⟨hnew, hcurrent⟩ : ¬s.ledger.Has p ∧ p ≠ s.current := hnew
        obtain ⟨hpid, hslot⟩ := findEmptyProcess_spec hfind
        dsimp only at h
        split at h
        . next hmem =>
          cases h
          refine ⟨.fork p nr pid, ⟨?_, ?_⟩, .inr (.inr ⟨p, nr, pid, rfl, rfl, hmem, hfind⟩)⟩
          . obtain ⟨hnr, hnone⟩ := hslot nr rfl
            refine ⟨by rw [ledger, hphase]; rfl, hnr, Option.map_eq_none_iff.mp hnone, hnew, hcurrent,
              hpid.left, ?_⟩
            intro q ⟨i, hi⟩ heq
            apply hpid.right i
            unfold pids
            rw [show s.task i = some q from hi, Option.map_some, ← heq]
            rfl
          . have hchild := ledger_setTask s p ((s.mem s.current).childOf pid)
            exact congrArg (fun v => ((v.setSlot nr (some p)).setStage (.forked p)).write p .N) hchild
        . cases h
          refine ⟨.scrap p pid .TASK_UNINTERRUPTIBLE, ⟨⟨hnew, hcurrent⟩, ?_⟩, .inr (.inl ⟨_, _, _, rfl⟩)⟩
          exact ledger_setTask s p { (s.mem s.current).childOf pid with state := .TASK_UNINTERRUPTIBLE }
    . cases h
      exact ⟨.quiet, simulates_quiet rfl, .inl rfl⟩

theorem choose_spec (s : Kernel)
    : s.choose.snd = 0 ∨ ∃ p, s.task s.choose.snd = some p ∧ (s.mem p).state = .TASK_RUNNING := by
  unfold choose
  apply List.foldlRecOn (motive := fun (c : BitVec 32 × Slot) =>
    c.snd = 0 ∨ ∃ p, s.task c.snd = some p ∧ (s.mem p).state = .TASK_RUNNING)
  . exact .inl rfl
  . intro c hc i _
    dsimp only
    split
    . exact hc
    . next p hp =>
      split
      . next hand => exact .inr ⟨p, hp, hand.left⟩
      . exact hc

def Arises (s : Kernel) (a : Act) : Ledger.Event → Prop
  | .wake p => s.wakes a = some p
  | .fork p nr pid => a = .fork (some p) true ∧ findEmptyProcess s.pids s.lastPid = some (pid, some nr)
  | .tick time => a = .tick ∧ time = (s.jiffies + 1).toInt
  | .expire time => a = .tick ∧ time = (s.jiffies + 1).toInt
  | _ => True

theorem IdlePlain.pid_ne_zero {s : Kernel} (h : s.IdlePlain) (horder : s.ledger.Orderly)
    (hphase : s.phase.plain = false)
    : (s.mem s.current).pid ≠ 0 := by
  intro hzero
  obtain ⟨p, hp, hpid⟩ := horder.idle
  have hcurrent := horder.current_pid p ⟨0, hp⟩ (hpid.trans hzero.symm)
  have hplain := (h p hp).right hcurrent.symm
  rw [hphase] at hplain
  simp at hplain

theorem ledger_running {s s' : Kernel} (hstage : s.phase.stage = .running) (h : s'.ledger = s.ledger)
    {phase : Phase} (hphase : phase.stage = .running)
    : { s' with phase }.ledger = s.ledger := by
  apply ledger_phase h
  rw [hphase, hstage]

theorem simulates_resumeTail {s : Kernel} (hstage : s.phase.stage = .running) (q : Nat) (tmp : Option Page)
    : ∃ e, Simulates s (resume.resumeTail s q tmp) e ∧ (e = .quiet ∨ ∃ p, e = .wake p ∧ tmp = some p) := by
  unfold resume.resumeTail
  dsimp only
  have hledger : ({ s with queue := Function.update s.queue q none, phase := .kernel } : Kernel).ledger
      = s.ledger :=
    @ledger_running s { s with queue := Function.update s.queue q none } hstage rfl .kernel rfl
  split
  . exact ⟨.quiet, simulates_quiet hledger, .inl rfl⟩
  . next p => exact ⟨.wake p, simulates_wake hledger p, .inr ⟨p, rfl, rfl⟩⟩

theorem simulates_resume {s : Kernel} {frame : Frame} (hplain : s.IdlePlain) (horder : s.ledger.Orderly)
    (hphase : s.phase = .resumed frame)
    : ∃ e, Simulates s (s.resume frame) e ∧ s.Arises .go e := by
  have hstage : s.phase.stage = .running := by
    rw [hphase]
    rfl
  cases frame with
  | user => exact ⟨.quiet, simulates_quiet (ledger_running hstage rfl rfl), trivial⟩
  | ret => exact ⟨.quiet, simulates_quiet (ledger_running hstage rfl rfl), trivial⟩
  | kernel => exact ⟨.quiet, simulates_quiet (ledger_running hstage rfl rfl), trivial⟩
  | sleepOn tmp =>
    cases tmp with
    | none => exact ⟨.quiet, simulates_quiet (ledger_running hstage rfl rfl), trivial⟩
    | some p =>
      refine ⟨.wake p, simulates_wake (ledger_running hstage rfl rfl) p, ?_⟩
      simp [Arises, wakes, hphase]
  | interruptibleSleepOn q tmp =>
    have htail : (∀ p, s.queue q = some p → p = s.current) →
        ∃ e, Simulates s (resume.resumeTail s q tmp) e ∧ s.Arises .go e := by
      intro hqueue
      obtain ⟨e, hsim, he⟩ := simulates_resumeTail hstage q tmp
      refine ⟨e, hsim, ?_⟩
      rcases he with rfl | ⟨p, rfl, rfl⟩
      . trivial
      . simp only [Arises, wakes, hphase]
        split
        . next p' hp' => rw [if_pos (hqueue p' hp')]
        . rfl
    dsimp only [resume]
    split
    . next p hp =>
      split
      . next hcurrent =>
        apply htail
        intro p' hp'
        rw [hp, Option.some.injEq] at hp'
        rw [← hp', hcurrent]
      . next hcurrent =>
        refine ⟨.wake p, simulates_wake (ledger_running hstage rfl rfl) p, ?_⟩
        simp [Arises, wakes, hphase, hp, hcurrent]
    . next hnone =>
      apply htail
      simp [hnone]
  | waitpid args =>
    have hpid : (s.mem s.current).pid ≠ 0 := by
      apply hplain.pid_ne_zero horder
      rw [hphase]
      rfl
    have hledger : (s.setTask s.current { s.mem s.current with
        signal := (s.mem s.current).signal &&& ~~~signalBit SIGCHLD }).ledger = s.ledger :=
      ledger_setTask_of_eq rfl rfl
    dsimp only [resume]
    split
    . obtain ⟨e, hsim, he⟩ := simulates_sysWaitpid hledger hstage hpid args
      refine ⟨e, hsim, ?_⟩
      rcases he with rfl | rfl | ⟨i, rfl⟩ <;> trivial
    . exact ⟨.quiet, simulates_quiet (ledger_running hstage hledger rfl), trivial⟩

theorem simulates_signals {s : Kernel} {m : Move} {i : Slot} {slots : List Slot} {frame : Frame}
    (hphase : s.phase = .signals (i :: slots) frame) (h : s.go = some m)
    : ∃ e, Simulates s m e ∧ s.Arises .go e := by
  have hledger : { s with phase := .signals slots frame }.ledger = s.ledger := by
    apply ledger_phase rfl
    rw [hphase]
    rfl
  unfold go at h
  rw [hphase] at h
  dsimp only at h
  split at h
  . cases h
    exact ⟨.quiet, simulates_quiet hledger, trivial⟩
  . next p hp =>
    have halarm : ∀ t : Kernel, t.ledger = s.ledger → t.mem = s.mem →
        (t.setTask p ((s.mem p).checkAlarm s.jiffies)).ledger = s.ledger := by
      intro t ht hmem
      rw [← ht]
      apply ledger_setTask_of_eq
      . rw [hmem]
        unfold Task.checkAlarm
        split <;> rfl
      . rw [hmem]
        unfold Task.checkAlarm
        split <;> rfl
    have hset := halarm { s with phase := .signals slots frame } hledger rfl
    split at h
    . next hwake =>
      cases h
      refine ⟨.wake p, simulates_wake hset p, ?_⟩
      simp only [Arises, wakes, hphase, hp]
      rw [if_pos hwake]
    . cases h
      exact ⟨.quiet, simulates_quiet hset, trivial⟩

theorem ledger_switchTo (s : Kernel) (p : Page) (frame : Frame)
    : (s.switchTo p frame).ledger = (s.ledger.giveTo p).setStage .running := by
  unfold switchTo
  split
  . next heq =>
    subst heq
    rfl
  . rfl

theorem simulates_select {s : Kernel} {m : Move} {frame : Frame} (horder : s.ledger.Orderly)
    (hphase : s.phase = .select frame) (h : s.go = some m)
    : ∃ e, Simulates s m e ∧ s.Arises .go e := by
  have hstage : s.ledger.stage = .choosing := by
    rw [ledger, hphase]
    rfl
  have hnext : ∀ p, s.task s.choose.snd = some p → (s.mem p).pid ≠ 0 →
      (s.mem p).state = .TASK_RUNNING := by
    intro p hp hpid
    rcases choose_spec s with hzero | ⟨q, hq, hrunning⟩
    . obtain ⟨q, hq, hidle⟩ := horder.idle
      rw [hzero, show s.task 0 = some q from hq, Option.some.injEq] at hp
      subst hp
      exact absurd hidle hpid
    . rw [hq, Option.some.injEq] at hp
      exact hp ▸ hrunning
  unfold go at h
  rw [hphase] at h
  dsimp only at h
  split at h
  . cases h
    exact ⟨.quiet, simulates_quiet (ledger_refill s), trivial⟩
  . split at h
    . simp at h
    . next p hp =>
      split at h
      . next hpid =>
        cases h
        refine ⟨.select s.choose.snd, ⟨⟨hstage, p, hp, Ne.symm hpid, hnext p hp⟩, ?_⟩, trivial⟩
        rfl
      . next hpid =>
        cases h
        refine ⟨.reselect p, ⟨⟨hstage, ⟨s.choose.snd, hp⟩, (not_not.mp hpid).symm, hnext p hp⟩, ?_⟩, trivial⟩
        apply ledger_switchTo

theorem simulates_go {s : Kernel} {m : Move} (hplain : s.IdlePlain) (horder : s.ledger.Orderly)
    (h : s.go = some m)
    : ∃ e, Simulates s m e ∧ s.Arises .go e := by
  unfold go at h
  split at h
  . simp at h
  . next hphase =>
    cases h
    refine ⟨.quiet, simulates_quiet (ledger_phase rfl ?_), trivial⟩
    rw [hphase]
    rfl
  . simp at h
  . next child hphase =>
    cases h
    have hstage : s.ledger.stage = .forked child := by
      rw [ledger, hphase]
      rfl
    refine ⟨.childReady, ⟨⟨child, hstage⟩, ?_⟩, trivial⟩
    dsimp only [Ledger.apply]
    rw [hstage]
    rfl
  . next hphase =>
    obtain ⟨s', hs', rfl⟩ := Option.map_eq_some_iff.mp h
    obtain ⟨e, hsim, he⟩ := simulates_tellFather hphase hs'
    refine ⟨e, hsim, ?_⟩
    rcases he with rfl | ⟨i, rfl⟩ <;> trivial
  . next frame hphase =>
    cases h
    refine ⟨.quiet, simulates_quiet (ledger_phase rfl ?_), trivial⟩
    rw [hphase]
    rfl
  . next i slots frame hphase =>
    apply simulates_signals hphase
    rw [go, hphase]
    exact h
  . next frame hphase =>
    apply simulates_select horder hphase
    rw [go, hphase]
    exact h
  . next next frame hphase =>
    have hstage : s.ledger.stage = .ready next := by
      rw [ledger, hphase]
      rfl
    split at h
    . next hrunning =>
      cases h
      refine ⟨.preempt, ⟨⟨⟨next, hstage⟩, hrunning⟩, ?_⟩, trivial⟩
      dsimp only [Ledger.apply]
      rw [hstage]
      rfl
    . next hrunning =>
      cases h
      refine ⟨.pass, ⟨⟨⟨next, hstage⟩, hrunning⟩, ?_⟩, trivial⟩
      dsimp only [Ledger.apply]
      rw [hstage]
      rfl
  . next next frame hphase =>
    have hstage : s.ledger.stage = .run next := by
      rw [ledger, hphase]
      rfl
    split at h
    . simp at h
    . next p hp =>
      cases h
      refine ⟨.give p, ⟨⟨next, hstage, hp⟩, ?_⟩, trivial⟩
      dsimp only [Ledger.apply]
      rw [hstage]
      rfl
  . next next frame hphase =>
    have hstage : s.ledger.stage = .given next := by
      rw [ledger, hphase]
      rfl
    split at h
    . simp at h
    . next p hp =>
      cases h
      refine ⟨.switch p, ⟨⟨next, hstage, hp⟩, ?_⟩, trivial⟩
      apply ledger_switchTo
  . next frame hphase =>
    cases h
    exact simulates_resume hplain horder hphase
  . next q tmp hphase =>
    cases h
    refine ⟨.sleep .TASK_INTERRUPTIBLE, simulates_sleep rfl ?_ ?_ (.inl rfl) _, trivial⟩
    . rw [hphase]
      rfl
    . apply hplain.pid_ne_zero horder
      rw [hphase]
      rfl

theorem simulates_wakeUp {s : Kernel} {a : Act} {q : Nat} (hwakes : s.wakes a = s.queue q)
    : ∃ e, Simulates s (s.wakeUp q) e ∧ s.Arises a e := by
  unfold wakeUp
  split
  . exact ⟨.quiet, simulates_quiet rfl, trivial⟩
  . next p hp =>
    refine ⟨.wake p, ?_, hwakes.trans hp⟩
    apply simulates_wake
    rfl

theorem pid_ne_zero_of_not_idle {s : Kernel} (horder : s.ledger.Orderly) (h : s.isIdle ≠ true)
    : (s.mem s.current).pid ≠ 0 := by
  intro hzero
  obtain ⟨p, hp, hpid⟩ := horder.idle
  have hcurrent : p = s.current := horder.current_pid p ⟨0, hp⟩ (hpid.trans hzero.symm)
  apply h
  rw [isIdle, show s.task 0 = some p from hp, hcurrent]
  simp

theorem simulates_call {s : Kernel} {m : Move} {a : Act} (horder : s.ledger.Orderly)
    (hphase : s.phase = .kernel) (h : s.call a = some m)
    : ∃ e, Simulates s m e ∧ s.Arises a e := by
  have hstage : s.phase.stage = .running := by
    rw [hphase]
    rfl
  cases a with
  | leave =>
    dsimp only [call] at h
    split at h
    . cases h
      exact ⟨.schedule, ⟨.inl hstage, rfl⟩, trivial⟩
    . cases h
      exact ⟨.quiet, simulates_quiet (ledger_running hstage rfl rfl), trivial⟩
  | fork page memOk =>
    obtain ⟨e, hsim, he⟩ := simulates_sysFork hphase h
    refine ⟨e, hsim, ?_⟩
    rcases he with rfl | ⟨p, pid, state, rfl⟩ | ⟨p, nr, pid, rfl, rfl, rfl, hfind⟩
    . trivial
    . trivial
    . exact ⟨rfl, hfind⟩
  | pause =>
    cases h
    obtain ⟨e, hsim, he⟩ := simulates_sysPause hstage
    refine ⟨e, hsim, ?_⟩
    rcases he with rfl | rfl <;> trivial
  | wakeUp q =>
    cases h
    apply simulates_wakeUp
    rfl
  | sleepOn q =>
    dsimp only [call] at h
    split at h
    . simp at h
    . next hidle =>
      cases h
      refine ⟨.sleep .TASK_UNINTERRUPTIBLE, ?_, trivial⟩
      apply simulates_sleep
      . rfl
      . exact hstage
      . exact pid_ne_zero_of_not_idle horder hidle
      . exact .inr rfl
  | interruptibleSleepOn q =>
    dsimp only [call] at h
    split at h
    . simp at h
    . next hidle =>
      cases h
      refine ⟨.sleep .TASK_INTERRUPTIBLE, ?_, trivial⟩
      apply simulates_sleep
      . rfl
      . exact hstage
      . exact pid_ne_zero_of_not_idle horder hidle
      . exact .inl rfl
  | waitpid args =>
    dsimp only [call] at h
    split at h
    . simp at h
    . next hidle =>
      cases h
      obtain ⟨e, hsim, he⟩ :=
        simulates_sysWaitpid rfl hstage (pid_ne_zero_of_not_idle horder hidle) args
      refine ⟨e, hsim, ?_⟩
      rcases he with rfl | rfl | ⟨i, rfl⟩ <;> trivial
  | reparent =>
    dsimp only [call] at h
    split at h
    . simp at h
    . cases h
      exact ⟨.quiet, simulates_quiet (ledger_reparent s), trivial⟩
  | exit =>
    dsimp only [call] at h
    split at h
    . simp at h
    . next hidle =>
      cases h
      exact ⟨.exit, simulates_doExit hstage (pid_ne_zero_of_not_idle horder hidle), trivial⟩
  | alarm seconds =>
    cases h
    exact ⟨.quiet, simulates_quiet (ledger_setCurrent (fun _ => rfl) (fun _ => rfl)), trivial⟩
  | ssetmask mask =>
    cases h
    exact ⟨.quiet, simulates_quiet (ledger_setCurrent (fun _ => rfl) (fun _ => rfl)), trivial⟩
  | nice increment =>
    cases h
    refine ⟨.quiet, simulates_quiet (ledger_setCurrent ?_ ?_), trivial⟩
    . intro t
      obtain ⟨priority, hnice⟩ := t.nice_eq increment
      rw [hnice]
    . intro t
      obtain ⟨priority, hnice⟩ := t.nice_eq increment
      rw [hnice]
  | enter => simp [call] at h
  | doSignal sig exits => simp [call] at h
  | setIds i pgrp session leader => simp [call] at h
  | signal i bits => simp [call] at h
  | go => simp [call] at h
  | tick => simp [call] at h
  | interrupt q => simp [call] at h

theorem simulates_doTimer (s : Kernel)
    : ∃ e, Simulates s (s.doTimer, none) e ∧ s.Arises .tick e := by
  have hledger : ∀ counter, { s.setCurrent (fun t => { t with counter }) with
      jiffies := s.jiffies + 1 }.ledger = s.ledger.setTime (s.jiffies + 1).toInt := by
    intro counter
    have hcounter : (s.setCurrent fun t => { t with counter }).ledger = s.ledger :=
      ledger_setCurrent (fun _ => rfl) (fun _ => rfl)
    exact congrArg (fun v => v.setTime (s.jiffies + 1).toInt) hcounter
  unfold doTimer
  dsimp only
  split
  . exact ⟨.tick (s.jiffies + 1).toInt, ⟨trivial, hledger _⟩, rfl, rfl⟩
  . split
    . next huser =>
      refine ⟨.expire (s.jiffies + 1).toInt, ⟨?_, ?_⟩, rfl, rfl⟩
      . show s.phase.stage = .running
        rw [huser]
        rfl
      . dsimp only [written, Ledger.apply]
        rw [ledger_schedule, hledger]
    . exact ⟨.tick (s.jiffies + 1).toInt, ⟨trivial, hledger _⟩, rfl, rfl⟩

theorem simulates_inKernel {s : Kernel} {m : Move} {a : Act} (horder : s.ledger.Orderly)
    (h : (if s.phase = .kernel then s.call a else none) = some m)
    : ∃ e, Simulates s m e ∧ s.Arises a e := by
  split at h
  . next hphase => exact simulates_call horder hphase h
  . simp at h

theorem simulates_enter {s : Kernel} {m : Move} (h : s.move .enter = some m)
    : ∃ e, Simulates s m e ∧ s.Arises .enter e := by
  dsimp only [move] at h
  split at h
  . next huser =>
    cases h
    have hstage : s.phase.stage = .running := by
      rw [huser]
      rfl
    exact ⟨.quiet, simulates_quiet (ledger_running hstage rfl rfl), trivial⟩
  . simp at h

theorem simulates_doSignal {s : Kernel} {m : Move} {sig : Nat} {exits : Bool}
    (h : s.move (.doSignal sig exits) = some m)
    : ∃ e, Simulates s m e ∧ s.Arises (.doSignal sig exits) e := by
  dsimp only [move] at h
  split at h
  . next hand =>
    have hstage : s.phase.stage = .running := by
      rw [hand.left]
      rfl
    cases h
    refine ⟨.quiet, simulates_quiet ?_, trivial⟩
    apply ledger_running hstage
    . apply ledger_setCurrent
      . intro t
        rfl
      . intro t
        rfl
    . cases exits <;> rfl
  . simp at h

theorem simulates_move {s : Kernel} {m : Move} {a : Act} (hplain : s.IdlePlain) (horder : s.ledger.Orderly)
    (h : s.move a = some m)
    : ∃ e, Simulates s m e ∧ s.Arises a e := by
  cases a with
  | enter => exact simulates_enter h
  | doSignal sig exits => exact simulates_doSignal h
  | setIds i pgrp session leader =>
    cases h
    exact ⟨.quiet, simulates_quiet (ledger_setSlot (fun _ => rfl) (fun _ => rfl)), trivial⟩
  | signal i bits =>
    cases h
    exact ⟨.quiet, simulates_quiet (ledger_setSlot (fun _ => rfl) (fun _ => rfl)), trivial⟩
  | go => exact simulates_go hplain horder h
  | tick =>
    cases h
    apply simulates_doTimer
  | interrupt q =>
    cases h
    apply simulates_wakeUp
    rfl
  | leave | fork _ _ | pause | sleepOn _ | interruptibleSleepOn _ | wakeUp _ | waitpid _ | reparent | exit
  | alarm _ | ssetmask _ | nice _ => exact simulates_inKernel horder h

theorem step_simulates {s s' : Kernel} {a : Act} (hplain : s.IdlePlain) (horder : s.ledger.Orderly)
    (h : s.step a = some s')
    : ∃ e, s.ledger.Enabled e ∧ s'.ledger = s.ledger.apply e ∧ s.Arises a e := by
  rw [step_eq, Option.map_eq_some_iff] at h
  obtain ⟨m, hm, rfl⟩ := h
  obtain ⟨e, hsim, harises⟩ := simulates_move hplain horder hm
  exact ⟨e, hsim.enabled, hsim.ledger_eq, harises⟩

end Kernel
end OS
