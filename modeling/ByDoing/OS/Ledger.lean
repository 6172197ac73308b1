import Mathlib.Tactic.Simps.Basic
import ByDoing.OS.Kernel

/-!
This module contains what the process log is for: a ledger of the tasks, in which the last line about a
task says what the task does. An event changes the state of at most one task and writes at most one line.
The ledger stays truthful as long as no event wakes a task that has the CPU.
-/

namespace OS

/--
The current task runs, has made a child that has no `J` line yet, has exited but not told its father,
is in `schedule`, is in it before one of its last two lines, or is after them and about to lose the CPU.
-/
inductive Stage where
  | running
  | forked (child : Page)
  | exited
  | choosing
  | ready (next : Slot)
  | run (next : Slot)
  | given (next : Slot)
  deriving Repr, DecidableEq

structure Ledger where
  task : Slot → Option Page
  pid : Page → Nat
  state : Page → TaskState
  current : Page
  stage : Stage
  time : Int
  log : List LogLine

def TaskState.asleep (state : TaskState) : Prop :=
  state = .TASK_INTERRUPTIBLE ∨ state = .TASK_UNINTERRUPTIBLE

def letterOf : TaskState → Option Letter
  | .TASK_RUNNING => some .J
  | .TASK_INTERRUPTIBLE => some .W
  | .TASK_UNINTERRUPTIBLE => some .W
  | .TASK_ZOMBIE => some .E
  | .TASK_STOPPED => none

theorem TaskState.asleep.ne_running {state : TaskState} (h : state.asleep) : state ≠ .TASK_RUNNING := by
  rcases h with h | h <;> simp [h]

theorem TaskState.asleep.letterOf {state : TaskState} (h : state.asleep)
    : OS.letterOf state = some .W := by
  rcases h with h | h <;> simp [h, OS.letterOf]

namespace Ledger

def Has (v : Ledger) (p : Page) : Prop :=
  ∃ i, v.task i = some p

def letter (v : Ledger) (p : Page) : Option Letter :=
  lastLetter v.log (v.pid p)

-- The current task, or the next one once it has its `R` line.
def front (v : Ledger) : Page :=
  match v.stage with
  | .given next => (v.task next).getD v.current
  | _ => v.current

@[simps]
def write (v : Ledger) (p : Page) (letter : Letter) : Ledger :=
  { v with log := v.log ++ [{ pid := v.pid p, letter, time := v.time }] }

@[simps]
def setState (v : Ledger) (p : Page) (state : TaskState) : Ledger :=
  { v with state := Function.update v.state p state }

@[simps]
def setStage (v : Ledger) (stage : Stage) : Ledger :=
  { v with stage }

@[simps]
def setTime (v : Ledger) (time : Int) : Ledger :=
  { v with time }

@[simps]
def setPid (v : Ledger) (p : Page) (pid : Nat) : Ledger :=
  { v with pid := Function.update v.pid p pid }

@[simps]
def setSlot (v : Ledger) (i : Slot) (p : Option Page) : Ledger :=
  { v with task := Function.update v.task i p }

@[simps]
def giveTo (v : Ledger) (p : Page) : Ledger :=
  { v with current := p }

inductive Event where
  | quiet
  | tick (time : Int)
  | expire (time : Int)
  | schedule
  | wake (p : Page)
  | sleep (state : TaskState)
  | exit
  | idle
  | select (next : Slot)
  | reselect (p : Page)
  | preempt
  | pass
  | give (p : Page)
  | switch (p : Page)
  | fork (p : Page) (nr : Slot) (pid : Nat)
  | childReady
  | release (i : Slot)
  | scrap (p : Page) (pid : Nat) (state : TaskState)

def apply (v : Ledger) : Event → Ledger
  | .quiet => v
  | .tick time => v.setTime time
  | .expire time => (v.setTime time).setStage .choosing
  | .schedule => v.setStage .choosing
  | .wake p => (v.setState p .TASK_RUNNING).write p .J
  | .sleep state => ((v.setState v.current state).setStage .choosing).write v.current .W
  | .exit => ((v.setState v.current .TASK_ZOMBIE).setStage .exited).write v.current .E
  | .idle => (v.setState v.current .TASK_INTERRUPTIBLE).setStage .choosing
  | .select next => v.setStage (.ready next)
  | .reselect p => (v.giveTo p).setStage .running
  | .preempt =>
    match v.stage with
    | .ready next => (v.setStage (.run next)).write v.current .J
    | _ => v
  | .pass =>
    match v.stage with
    | .ready next => v.setStage (.run next)
    | _ => v
  | .give p =>
    match v.stage with
    | .run next => (v.setStage (.given next)).write p .R
    | _ => v
  | .switch p => (v.giveTo p).setStage .running
  | .fork p nr pid =>
    ((((v.setPid p pid).setState p .TASK_RUNNING).setSlot nr (some p)).setStage (.forked p)).write p .N
  | .childReady =>
    match v.stage with
    | .forked child => (v.setStage .running).write child .J
    | _ => v
  | .release i => (v.setSlot i none).setStage .choosing
  | .scrap p pid state => (v.setPid p pid).setState p state

def Enabled (v : Ledger) : Event → Prop
  | .quiet => True
  | .tick _ => True
  | .expire _ => v.stage = .running
  | .schedule => v.stage = .running ∨ v.stage = .exited
  | .wake _ => True
  | .sleep state => v.stage = .running ∧ v.pid v.current ≠ 0 ∧ state.asleep
  | .exit => v.stage = .running ∧ v.pid v.current ≠ 0
  | .idle => v.stage = .running ∧ v.pid v.current = 0
  | .select next => v.stage = .choosing
    ∧ ∃ p, v.task next = some p ∧ v.pid p ≠ v.pid v.current ∧ (v.pid p ≠ 0 → v.state p = .TASK_RUNNING)
  | .reselect p => v.stage = .choosing
    ∧ v.Has p ∧ v.pid p = v.pid v.current ∧ (v.pid p ≠ 0 → v.state p = .TASK_RUNNING)
  | .preempt => (∃ next, v.stage = .ready next) ∧ v.state v.current = .TASK_RUNNING
  | .pass => (∃ next, v.stage = .ready next) ∧ v.state v.current ≠ .TASK_RUNNING
  | .give p => ∃ next, v.stage = .run next ∧ v.task next = some p
  | .switch p => ∃ next, v.stage = .given next ∧ v.task next = some p
  | .fork p nr pid => v.stage = .running
    ∧ nr ≠ 0 ∧ v.task nr = none ∧ ¬v.Has p ∧ p ≠ v.current ∧ pid ≠ 0 ∧ ∀ q, v.Has q → v.pid q ≠ pid
  | .childReady => ∃ child, v.stage = .forked child
  | .release i => i ≠ 0 ∧ (v.stage = .exited ∨ v.stage = .running ∧ v.task i ≠ some v.current)
  | .scrap p _ _ => ¬v.Has p ∧ p ≠ v.current

structure Orderly (v : Ledger) : Prop where
  idle : ∃ p, v.task 0 = some p ∧ v.pid p = 0
  inj : ∀ p q, v.Has p → v.Has q → v.pid p = v.pid q → p = q
  current_pid : ∀ p, v.Has p → v.pid p = v.pid v.current → p = v.current
  in_table : v.stage = .running ∨ (∃ child, v.stage = .forked child) → v.Has v.current
  running : v.stage = .running ∨ (∃ child, v.stage = .forked child) → v.pid v.current ≠ 0 →
    v.state v.current = .TASK_RUNNING
  child : ∀ child, v.stage = .forked child →
    v.Has child ∧ child ≠ v.current ∧ v.state child = .TASK_RUNNING
  next : ∀ next, v.stage = .ready next ∨ v.stage = .run next ∨ v.stage = .given next →
    ∃ p, v.task next = some p ∧ p ≠ v.current ∧ (v.pid p ≠ 0 → v.state p = .TASK_RUNNING)

theorem Orderly.write {v : Ledger} (h : Orderly v) (p : Page) (letter : Letter)
    : Orderly (v.write p letter) :=
  ⟨h.idle, h.inj, h.current_pid, h.in_table, h.running, h.child, h.next⟩

theorem Orderly.choosing {v w : Ledger} (h : Orderly v) (hidle : w.task 0 = v.task 0)
    (hhas : ∀ p, w.Has p → v.Has p) (hpid : w.pid = v.pid) (hcurrent : w.current = v.current)
    (hstage : w.stage = .choosing ∨ w.stage = .exited)
    : Orderly w := by
  constructor
  . rw [hidle, hpid]
    exact h.idle
  . intro p q hp hq
    rw [hpid]
    exact h.inj p q (hhas p hp) (hhas q hq)
  . intro p hp
    rw [hpid, hcurrent]
    exact h.current_pid p (hhas p hp)
  all_goals rcases hstage with hstage | hstage <;> simp [hstage]

theorem Orderly.wake {v : Ledger} (h : Orderly v) (p : Page)
    : Orderly (v.setState p .TASK_RUNNING) := by
  have hstate : ∀ q, v.state q = .TASK_RUNNING → (v.setState p .TASK_RUNNING).state q = .TASK_RUNNING := by
    intro q hq
    by_cases hqp : q = p
    . simp [setState, hqp]
    . simp [setState, hqp, hq]
  constructor
  . exact h.idle
  . exact h.inj
  . exact h.current_pid
  . exact h.in_table
  . intro hstage hpid
    exact hstate _ (h.running hstage hpid)
  . intro child hstage
    obtain ⟨hhas, hne, hrunning⟩ := h.child child hstage
    exact ⟨hhas, hne, hstate child hrunning⟩
  . intro next hstage
    obtain ⟨q, hq, hne, hrunning⟩ := h.next next hstage
    exact ⟨q, hq, hne, fun hpid => hstate q (hrunning hpid)⟩

theorem Orderly.handsOver {v : Ledger} (h : Orderly v) {next : Slot} {stage : Stage}
    (hold : v.stage = .ready next ∨ v.stage = .run next) (hnew : stage = .run next ∨ stage = .given next)
    : Orderly (v.setStage stage) := by
  refine ⟨h.idle, h.inj, h.current_pid, ?_, ?_, ?_, ?_⟩
  . rcases hnew with rfl | rfl <;> simp
  . rcases hnew with rfl | rfl <;> simp
  . rcases hnew with rfl | rfl <;> simp
  . intro next' hnext
    have heq : next' = next := by
      rcases hnew with rfl | rfl
      . simpa [eq_comm] using hnext
      . simpa [eq_comm] using hnext
    subst heq
    exact h.next next' (hold.imp_right .inl)

theorem Orderly.gives {v : Ledger} (h : Orderly v) {p : Page} (hp : v.Has p)
    (hrunning : v.pid p ≠ 0 → v.state p = .TASK_RUNNING)
    : Orderly ((v.giveTo p).setStage .running) := by
  refine ⟨h.idle, h.inj, ?_, ?_, ?_, ?_, ?_⟩
  . intro q hq hpid
    exact h.inj q p hq hp hpid
  . intro _
    exact hp
  . intro _
    exact hrunning
  . simp
  . simp

theorem has_update_some {v : Ledger} {nr : Slot} {p q : Page}
    (h : (v.setSlot nr (some p)).Has q)
    : q = p ∨ v.Has q := by
  obtain ⟨i, hi⟩ := h
  by_cases hinr : i = nr
  . subst hinr
    simp only [setSlot_task, Function.update_self, Option.some.injEq] at hi
    exact .inl hi.symm
  . simp only [setSlot_task, Function.update_of_ne hinr] at hi
    exact .inr ⟨i, hi⟩

theorem has_update_none {v : Ledger} {i : Slot} {q : Page}
    (h : (v.setSlot i none).Has q)
    : v.Has q := by
  obtain ⟨j, hj⟩ := h
  by_cases hji : j = i
  . subst hji
    simp at hj
  . simp only [setSlot_task, Function.update_of_ne hji] at hj
    exact ⟨j, hj⟩

theorem has_update_of_free {v : Ledger} {nr : Slot} {p q : Page} (hfree : v.task nr = none) (h : v.Has q)
    : (v.setSlot nr (some p)).Has q := by
  obtain ⟨i, hi⟩ := h
  refine ⟨i, ?_⟩
  have hinr : i ≠ nr := by
    intro heq
    rw [heq, hfree] at hi
    simp at hi
  rw [setSlot_task, Function.update_of_ne hinr, hi]

theorem has_update_of_other {v : Ledger} {i : Slot} {q : Page} (hne : v.task i ≠ some q) (h : v.Has q)
    : (v.setSlot i none).Has q := by
  obtain ⟨j, hj⟩ := h
  refine ⟨j, ?_⟩
  have hji : j ≠ i := by
    intro heq
    exact hne (heq ▸ hj)
  rw [setSlot_task, Function.update_of_ne hji, hj]

theorem Orderly.scrap {v : Ledger} (h : Orderly v) {p : Page} {pid : Nat} {state : TaskState}
    (he : v.Enabled (.scrap p pid state))
    : Orderly (v.apply (.scrap p pid state)) := by
  obtain ⟨hnew, hcurrent⟩ := he
  have hne : ∀ q, v.Has q → q ≠ p := by
    intro q hq hqp
    exact hnew (hqp ▸ hq)
  have hpid : ∀ q, v.Has q ∨ q = v.current → (v.apply (.scrap p pid state)).pid q = v.pid q := by
    intro q hq
    exact Function.update_of_ne (hq.elim (hne q) (fun hqc => hqc ▸ Ne.symm hcurrent)) _ _
  have hstate : ∀ q, v.Has q ∨ q = v.current → (v.apply (.scrap p pid state)).state q = v.state q := by
    intro q hq
    exact Function.update_of_ne (hq.elim (hne q) (fun hqc => hqc ▸ Ne.symm hcurrent)) _ _
  have hcur : (v.apply (.scrap p pid state)).current = v.current := rfl
  constructor
  . obtain ⟨q, hq, hzero⟩ := h.idle
    exact ⟨q, hq, by rw [hpid q (.inl ⟨0, hq⟩), hzero]⟩
  . intro q r hq hr hqr
    rw [hpid q (.inl hq), hpid r (.inl hr)] at hqr
    exact h.inj q r hq hr hqr
  . intro q hq hqc
    rw [hpid q (.inl hq), hcur, hpid _ (.inr rfl)] at hqc
    exact h.current_pid q hq hqc
  . exact h.in_table
  . intro hstage
    rw [hcur, hpid _ (.inr rfl), hstate _ (.inr rfl)]
    exact h.running hstage
  . intro child hstage
    obtain ⟨hhas, hchild, hrunning⟩ := h.child child hstage
    exact ⟨hhas, hchild, by rw [hstate child (.inl hhas), hrunning]⟩
  . intro next hstage
    obtain ⟨q, hq, hqc, hrunning⟩ := h.next next hstage
    refine ⟨q, hq, hqc, ?_⟩
    rw [hpid q (.inl ⟨next, hq⟩), hstate q (.inl ⟨next, hq⟩)]
    exact hrunning

theorem Orderly.insert {v : Ledger} (h : Orderly v) {p : Page} {nr : Slot} (hstage : v.stage = .running)
    (hnr : nr ≠ 0) (hfree : v.task nr = none) (hcurrent : p ≠ v.current)
    (hunused : ∀ q, v.Has q → v.pid q ≠ v.pid p) (hrunning : v.state p = .TASK_RUNNING)
    : Orderly ((v.setSlot nr (some p)).setStage (.forked p)) := by
  have hself : v.Has v.current := h.in_table (.inl hstage)
  constructor
  . simp only [setStage_task, setStage_pid, setSlot_task, setSlot_pid, Function.update_of_ne (Ne.symm hnr)]
    exact h.idle
  . intro q r hq hr hqr
    rcases has_update_some hq with hqp | hqold
    . rcases has_update_some hr with hrp | hrold
      . rw [hqp, hrp]
      . exact absurd (hqp ▸ hqr).symm (hunused r hrold)
    . rcases has_update_some hr with hrp | hrold
      . exact absurd (hrp ▸ hqr) (hunused q hqold)
      . exact h.inj q r hqold hrold hqr
  . intro q hq hqc
    rcases has_update_some hq with hqp | hqold
    . exact absurd (hqp ▸ hqc).symm (hunused _ hself)
    . exact h.current_pid q hqold hqc
  . intro _
    exact has_update_of_free hfree hself
  . intro _
    exact h.running (.inl hstage)
  . intro child hchild
    simp only [setStage_stage, Stage.forked.injEq] at hchild
    subst hchild
    exact ⟨⟨nr, by simp⟩, hcurrent, hrunning⟩
  . simp

theorem Orderly.fork {v : Ledger} (h : Orderly v) {p : Page} {nr : Slot} {pid : Nat}
    (he : v.Enabled (.fork p nr pid))
    : Orderly (v.apply (.fork p nr pid)) := by
  obtain ⟨hstage, hnr, hfree, hnew, hcurrent, hpid, hunused⟩ := he
  have hscrap := @Orderly.scrap v h p pid .TASK_RUNNING ⟨hnew, hcurrent⟩
  refine (hscrap.insert hstage hnr hfree hcurrent ?_ ?_).write p .N
  . intro q hq
    have hqp : q ≠ p := fun hqp => hnew (hqp ▸ hq)
    simp only [Ledger.apply, setState_pid, setPid_pid, Function.update_self, Function.update_of_ne hqp]
    exact hunused q hq
  . simp [Ledger.apply, Ledger.setState]

theorem Orderly.apply {v : Ledger} {e : Event} (h : Orderly v) (he : v.Enabled e)
    : Orderly (v.apply e) := by
  cases e with
  | quiet => exact h
  | tick time => exact ⟨h.idle, h.inj, h.current_pid, h.in_table, h.running, h.child, h.next⟩
  | expire time => exact h.choosing rfl (fun _ hp => hp) rfl rfl (.inl rfl)
  | schedule => exact h.choosing rfl (fun _ hp => hp) rfl rfl (.inl rfl)
  | wake p => exact (h.wake p).write p .J
  | sleep state => exact h.choosing rfl (fun _ hp => hp) rfl rfl (.inl rfl)
  | exit => exact h.choosing rfl (fun _ hp => hp) rfl rfl (.inr rfl)
  | idle => exact h.choosing rfl (fun _ hp => hp) rfl rfl (.inl rfl)
  | select next =>
    obtain ⟨_, p, hp, hpid, hrunning⟩ := he
    refine ⟨h.idle, h.inj, h.current_pid, ?_, ?_, ?_, ?_⟩
    . simp [Ledger.apply]
    . simp [Ledger.apply]
    . simp [Ledger.apply]
    . intro next' hnext
      simp only [Ledger.apply, setStage_stage, Stage.ready.injEq, reduceCtorEq, or_self, or_false] at hnext
      subst hnext
      refine ⟨p, hp, ?_, hrunning⟩
      intro heq
      exact hpid (heq ▸ rfl)
  | reselect p =>
    obtain ⟨_, hp, _, hrunning⟩ := he
    exact h.gives hp hrunning
  | preempt =>
    obtain ⟨⟨next, hstage⟩, _⟩ := he
    simp only [Ledger.apply, hstage]
    exact (h.handsOver (.inl hstage) (.inl rfl)).write v.current .J
  | pass =>
    obtain ⟨⟨next, hstage⟩, _⟩ := he
    simp only [Ledger.apply, hstage]
    exact h.handsOver (.inl hstage) (.inl rfl)
  | give p =>
    obtain ⟨next, hstage, _⟩ := he
    simp only [Ledger.apply, hstage]
    exact (h.handsOver (.inr hstage) (.inr rfl)).write p .R
  | switch p =>
    obtain ⟨next, hstage, hp⟩ := he
    obtain ⟨q, hq, _, hrunning⟩ := h.next next (.inr (.inr hstage))
    rw [hp, Option.some.injEq] at hq
    subst hq
    exact h.gives ⟨next, hp⟩ hrunning
  | fork p nr pid => exact h.fork he
  | childReady =>
    obtain ⟨child, hstage⟩ := he
    simp only [Ledger.apply, hstage]
    apply Orderly.write
    refine ⟨h.idle, h.inj, h.current_pid, ?_, ?_, ?_, ?_⟩
    . intro _
      exact h.in_table (.inr ⟨child, hstage⟩)
    . intro _
      exact h.running (.inr ⟨child, hstage⟩)
    . simp
    . simp
  | release i =>
    obtain ⟨hi, _⟩ := he
    exact h.choosing (Function.update_of_ne (Ne.symm hi) _ _) (fun _ hp => has_update_none hp) rfl rfl
      (.inl rfl)
  | scrap p pid state => exact h.scrap he

/--
The letter that is true of a task. A task keeps its `R` until `schedule` has written its `J`.
-/
def expected (v : Ledger) (p : Page) : Option Letter :=
  if p = v.front ∧ v.state p = .TASK_RUNNING ∧ ∀ next, v.stage ≠ .run next then
    some .R
  else
    letterOf (v.state p)

def Truthful (v : Ledger) : Prop :=
  ∀ p, v.Has p → v.pid p ≠ 0 → v.stage = .forked p ∨ v.letter p = v.expected p

-- A `J` line about `p` is then true, and about no other task of the table.
def Undisturbed (v : Ledger) (p : Page) : Prop :=
  ∀ q, v.Has q → v.pid q = v.pid p → q = p ∧ (q = v.front → ∃ next, v.stage = .run next)

theorem letter_write (v : Ledger) (p q : Page) (letter : Letter)
    : (v.write p letter).letter q = if v.pid p = v.pid q then some letter else v.letter q :=
  lastLetter_append _ _ _

theorem front_of_stage {v : Ledger} (h : ∀ next, v.stage ≠ .given next) : v.front = v.current := by
  unfold front
  split
  . next next hstage => exact absurd hstage (h next)
  . rfl

theorem front_of_given {v : Ledger} {next : Slot} {p : Page} (h : v.stage = .given next)
    (hp : v.task next = some p)
    : v.front = p := by
  simp [front, h, hp]

theorem front_ne {v : Ledger} {p : Page} (hnew : ¬v.Has p) (hcurrent : p ≠ v.current) : v.front ≠ p := by
  unfold front
  split
  . next next _ =>
    cases htask : v.task next with
    | none => exact Ne.symm hcurrent
    | some q =>
      intro heq
      exact hnew ⟨next, by rw [htask, ← heq, Option.getD_some]⟩
  . exact Ne.symm hcurrent

theorem expected_of_ne {v : Ledger} {p : Page} (h : p ≠ v.front)
    : v.expected p = letterOf (v.state p) := by
  unfold expected
  rw [if_neg (fun hand => h hand.left)]

theorem expected_congr {v w : Ledger} {p : Page} (hfront : w.front = v.front) (hstage : w.stage = v.stage)
    (hstate : w.state p = v.state p)
    : w.expected p = v.expected p := by
  unfold expected
  simp only [hfront, hstage, hstate]

theorem expected_of_run {v : Ledger} {next : Slot} (h : v.stage = .run next) (p : Page)
    : v.expected p = letterOf (v.state p) := by
  unfold expected
  rw [if_neg (fun hand => hand.right.right next h)]

theorem truthful_write {v : Ledger} {p : Page} {letter : Letter}
    (hself : ∀ q, v.Has q → v.pid q ≠ 0 → v.pid q = v.pid p →
      v.stage = .forked q ∨ v.expected q = some letter)
    (hothers : ∀ q, v.Has q → v.pid q ≠ 0 → v.pid q ≠ v.pid p →
      v.stage = .forked q ∨ v.letter q = v.expected q)
    : Truthful (v.write p letter) := by
  intro q hq hzero
  by_cases hpid : v.pid q = v.pid p
  . rw [letter_write, if_pos hpid.symm]
    exact (hself q hq hzero hpid).imp_right Eq.symm
  . rw [letter_write, if_neg (Ne.symm hpid)]
    exact hothers q hq hzero hpid

theorem Truthful.wake {v : Ledger} (h : Truthful v) {p : Page} (hp : v.Undisturbed p)
    : Truthful (v.apply (.wake p)) := by
  apply truthful_write
  . intro q hq hzero hpid
    obtain ⟨heq, hcurrent⟩ := hp q hq hpid
    subst heq
    right
    have hstate : (v.setState q .TASK_RUNNING).state q = .TASK_RUNNING := Function.update_self _ _ _
    by_cases hqc : q = v.front
    . obtain ⟨next, hnext⟩ := hcurrent hqc
      rw [@expected_of_run (v.setState q .TASK_RUNNING) next hnext, hstate]
      rfl
    . rw [@expected_of_ne (v.setState q .TASK_RUNNING) q hqc, hstate]
      rfl
  . intro q hq hzero hpid
    have hne : q ≠ p := by
      intro heq
      exact hpid (heq ▸ rfl)
    have hexpected : (v.setState p .TASK_RUNNING).expected q = v.expected q :=
      expected_congr rfl rfl (Function.update_of_ne hne _ _)
    rw [hexpected]
    exact h q hq hzero

theorem Truthful.stops {v : Ledger} (h : Truthful v) (horder : Orderly v) (hstage : v.stage = .running)
    {state : TaskState} {letter : Letter} {stage : Stage} (hstate : state ≠ .TASK_RUNNING)
    (hletter : letterOf state = some letter) (hgiven : ∀ next, stage ≠ .given next)
    : Truthful (((v.setState v.current state).setStage stage).write v.current letter) := by
  apply truthful_write
  . intro q hq hzero hpid
    have heq := horder.current_pid q hq hpid
    subst heq
    right
    simp [expected, hstate, hletter]
  . intro q hq hzero hpid
    have hne : q ≠ v.current := by
      intro heq
      exact hpid (heq ▸ rfl)
    right
    have hold := (h q hq hzero).resolve_left (by simp [hstage])
    rw [expected_of_ne (by simp [front, hstage, hne])] at hold
    rw [expected_of_ne (by rw [front_of_stage hgiven]; exact hne), setStage_state, setState_state,
      Function.update_of_ne hne]
    exact hold

theorem Truthful.fork {v : Ledger} (h : Truthful v) {p : Page} {nr : Slot} {pid : Nat}
    (he : v.Enabled (.fork p nr pid))
    : Truthful (v.apply (.fork p nr pid)) := by
  obtain ⟨hstage, _, _, hnew, hcurrent, _, hunused⟩ := he
  apply truthful_write
  . intro q hq hzero hpid
    rcases has_update_some hq with hqp | hqold
    . exact .inl (by rw [hqp]; rfl)
    . have hqp : q ≠ p := fun hqp => hnew (hqp ▸ hqold)
      simp only [setStage_pid, setSlot_pid, setState_pid, setPid_pid, Function.update_self,
        Function.update_of_ne hqp] at hpid
      exact absurd hpid (hunused q hqold)
  . intro q hq hzero hpid
    right
    rcases has_update_some hq with hqp | hqold
    . exact absurd (hqp ▸ rfl) hpid
    . have hqp : q ≠ p := fun hqp => hnew (hqp ▸ hqold)
      simp only [setStage_pid, setSlot_pid, setState_pid, setPid_pid, Function.update_of_ne hqp] at hzero
      have hold := (h q hqold hzero).resolve_left (by simp [hstage])
      simpa [letter, expected, front, hqp, hstage] using hold

theorem Truthful.silent {v w : Ledger} (h : Truthful v) (hlog : w.log = v.log)
    (hhas : ∀ q, w.Has q → v.Has q) (hpid : ∀ q, v.Has q → w.pid q = v.pid q)
    (hforked : ∀ child, v.stage = .forked child → w.stage = .forked child)
    (hexpected : ∀ q, v.Has q → v.pid q ≠ 0 → w.expected q = v.expected q)
    : Truthful w := by
  intro q hq hzero
  have hold := hhas q hq
  rw [hpid q hold] at hzero
  have hletter : w.letter q = v.letter q := by
    unfold letter
    rw [hlog, hpid q hold]
  rw [hletter, hexpected q hold hzero]
  exact (h q hold hzero).imp_left (hforked q)

theorem Truthful.preempt {v : Ledger} (h : Truthful v) (horder : Orderly v) {next : Slot}
    (hstage : v.stage = .ready next) (hrunning : v.state v.current = .TASK_RUNNING)
    : Truthful ((v.setStage (.run next)).write v.current .J) := by
  apply truthful_write
  . intro q hq hzero hpid
    right
    have heq := horder.current_pid q hq hpid
    subst heq
    rw [@expected_of_run (v.setStage (.run next)) next rfl, setStage_state, hrunning]
    rfl
  . intro q hq hzero hpid
    right
    have hne : q ≠ v.current := fun heq => hpid (heq ▸ rfl)
    have hold := (h q hq hzero).resolve_left (by simp [hstage])
    rw [expected_of_ne (by simp [front, hstage, hne])] at hold
    rw [expected_of_run (by rfl)]
    exact hold

theorem Truthful.give {v : Ledger} (h : Truthful v) (horder : Orderly v) {next : Slot} {p : Page}
    (hstage : v.stage = .run next) (hp : v.task next = some p)
    : Truthful ((v.setStage (.given next)).write p .R) := by
  obtain ⟨p', hp', _, hrunning⟩ := horder.next next (.inr (.inl hstage))
  rw [hp, Option.some.injEq] at hp'
  subst hp'
  have hfront : (v.setStage (.given next)).front = p := front_of_given rfl hp
  apply truthful_write
  . intro q hq hzero hpid
    have heq := horder.inj q p hq ⟨next, hp⟩ hpid
    subst heq
    right
    simp [expected, hfront, hrunning hzero]
  . intro q hq hzero hpid
    right
    have hne : q ≠ p := fun heq => hpid (heq ▸ rfl)
    have hold := (h q hq hzero).resolve_left (by simp [hstage])
    rw [expected_of_run hstage] at hold
    rw [expected_of_ne (by rw [hfront]; exact hne)]
    exact hold

theorem Truthful.childReady {v : Ledger} (h : Truthful v) (horder : Orderly v) {child : Page}
    (hstage : v.stage = .forked child)
    : Truthful ((v.setStage .running).write child .J) := by
  obtain ⟨hhas, hne, hrunning⟩ := horder.child child hstage
  apply truthful_write
  . intro q hq hzero hpid
    right
    have heq := horder.inj q child hq hhas hpid
    subst heq
    rw [expected_of_ne (by simp [front, hne]), setStage_state, hrunning]
    rfl
  . intro q hq hzero hpid
    right
    have hqc : child ≠ q := fun heq => hpid (heq ▸ rfl)
    have hold := (h q hq hzero).resolve_left (by simp [hstage, hqc])
    simpa [letter, expected, front, hstage] using hold

theorem Truthful.apply {v : Ledger} {e : Event} (h : Truthful v) (horder : Orderly v) (he : v.Enabled e)
    (hwake : ∀ p, e = .wake p → v.Undisturbed p)
    : Truthful (v.apply e) := by
  cases e with
  | quiet => exact h
  | tick time => exact h
  | expire time =>
    dsimp only [Enabled] at he
    refine h.silent rfl (fun _ hq => hq) (fun _ _ => rfl) ?_ ?_
    . simp [he]
    . simp [Ledger.apply, expected, front, he]
  | schedule =>
    dsimp only [Enabled] at he
    refine h.silent rfl (fun _ hq => hq) (fun _ _ => rfl) ?_ ?_
    . rcases he with he | he <;> simp [he]
    . rcases he with he | he <;> simp [Ledger.apply, expected, front, he]
  | wake p => exact h.wake (hwake p rfl)
  | sleep state =>
    obtain ⟨hstage, _, hasleep⟩ := he
    exact h.stops horder hstage hasleep.ne_running hasleep.letterOf (by simp)
  | exit =>
    obtain ⟨hstage, _⟩ := he
    exact h.stops horder hstage (by simp) rfl (by simp)
  | idle =>
    obtain ⟨hstage, hidle⟩ := he
    refine h.silent rfl (fun _ hq => hq) (fun _ _ => rfl) ?_ ?_
    . simp [hstage]
    . intro q _ hzero
      have hne : q ≠ v.current := fun heq => hzero (heq ▸ hidle)
      simp [Ledger.apply, expected, front, hstage, hne]
  | select next =>
    obtain ⟨hstage, _⟩ := he
    refine h.silent rfl (fun _ hq => hq) (fun _ _ => rfl) ?_ ?_
    . simp [hstage]
    . simp [Ledger.apply, expected, front, hstage]
  | reselect p =>
    obtain ⟨hstage, hp, hpid, _⟩ := he
    have heq := horder.current_pid p hp hpid
    subst heq
    refine h.silent rfl (fun _ hq => hq) (fun _ _ => rfl) ?_ ?_
    . simp [hstage]
    . simp [Ledger.apply, expected, front, hstage]
  | preempt =>
    obtain ⟨⟨next, hstage⟩, hrunning⟩ := he
    simp only [Ledger.apply, hstage]
    exact h.preempt horder hstage hrunning
  | pass =>
    obtain ⟨⟨next, hstage⟩, hrunning⟩ := he
    simp only [Ledger.apply, hstage]
    refine h.silent rfl (fun _ hq => hq) (fun _ _ => rfl) ?_ ?_
    . simp [hstage]
    . intro q _ _
      rw [@expected_of_run (v.setStage (.run next)) next rfl]
      by_cases hqc : q = v.current
      . simp [expected, hqc, hrunning]
      . rw [expected_of_ne (by simp [front, hstage, hqc])]
        rfl
  | give p =>
    obtain ⟨next, hstage, hp⟩ := he
    simp only [Ledger.apply, hstage]
    exact h.give horder hstage hp
  | switch p =>
    obtain ⟨next, hstage, hp⟩ := he
    have hfront := front_of_given hstage hp
    refine h.silent rfl (fun _ hq => hq) (fun _ _ => rfl) ?_ ?_
    . simp [hstage]
    . intro q _ _
      unfold expected
      rw [hfront]
      simp [Ledger.apply, front, hstage]
  | fork p nr pid => exact h.fork he
  | childReady =>
    obtain ⟨child, hstage⟩ := he
    simp only [Ledger.apply, hstage]
    exact h.childReady horder hstage
  | release i =>
    obtain ⟨_, hstage⟩ := he
    have hforked : ∀ child, v.stage ≠ .forked child := by
      intro child heq
      simp [heq] at hstage
    have hrun : ∀ next, v.stage ≠ .run next := by
      intro next heq
      simp [heq] at hstage
    have hgiven : ∀ next, v.stage ≠ .given next := by
      intro next heq
      simp [heq] at hstage
    refine h.silent rfl (fun _ hq => has_update_none hq) (fun _ _ => rfl) ?_ ?_
    . intro child heq
      exact absurd heq (hforked child)
    . intro q _ _
      have hfront : (v.apply (.release i)).front = v.front := by
        rw [front_of_stage (by simp [Ledger.apply]), front_of_stage hgiven]
        rfl
      unfold expected
      rw [hfront]
      simp [Ledger.apply, hrun]
  | scrap p pid state =>
    obtain ⟨hnew, _⟩ := he
    have hne : ∀ q, v.Has q → q ≠ p := fun q hq hqp => hnew (hqp ▸ hq)
    refine h.silent rfl (fun _ hq => hq) ?_ (fun _ hstage => hstage) ?_
    . intro q hq
      simp [Ledger.apply, hne q hq]
    . intro q hq _
      exact expected_congr rfl rfl (Function.update_of_ne (hne q hq) _ _)

end Ledger
end OS
