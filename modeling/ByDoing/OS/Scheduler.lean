import Mathlib.Data.List.Induction
import Mathlib.Logic.Function.Iterate
import Mathlib.Algebra.Ring.Int.Defs
import ByDoing.Lib.Run
import ByDoing.OS.Kernel

namespace OS
namespace Sched

structure Task where
  state : TaskState
  counter : BitVec 32
  priority : BitVec 32
  signal : BitVec 32
  blocked : BitVec 32
  alarm : BitVec 32
  deriving Repr, DecidableEq

namespace Task

def initTask : Task :=
  { state := .TASK_RUNNING, counter := 15, priority := 15, signal := 0, blocked := 0, alarm := 0 }

def checkAlarm (t : Task) (jiffies : BitVec 32) : Task :=
  if t.alarm ≠ 0 ∧ t.alarm.slt jiffies then
    { t with signal := t.signal ||| signalBit SIGALRM, alarm := 0 }
  else
    t

def rouse (t : Task) : Task :=
  if t.signal &&& ~~~(BLOCKABLE &&& t.blocked) ≠ 0 ∧ t.state = .TASK_INTERRUPTIBLE then
    { t with state := .TASK_RUNNING }
  else
    t

def refill (t : Task) : Task :=
  { t with counter := t.counter.sshiftRight 1 + t.priority }

def child (t : Task) : Task :=
  { t with state := .TASK_RUNNING, counter := t.priority, signal := 0, alarm := 0 }

def nice (t : Task) (increment : BitVec 32) : Task :=
  if 0 < (t.priority - increment).toInt then { t with priority := t.priority - increment } else t

def tick (t : Task) : Task :=
  { t with counter := if 0 < (t.counter - 1).toInt then t.counter - 1 else 0 }

end Task

structure State where
  task : Slot → Option Task
  current : Slot
  jiffies : BitVec 32

def eachTask (f : Task → Task) (task : Slot → Option Task) : Slot → Option Task :=
  fun nr => if nr = 0 then task nr else (task nr).map f

namespace schedule

-- `c` and `next` behind the first `while` loop.
def scan (task : Slot → Option Task) (slots : List Slot) : BitVec 32 × Slot :=
  slots.foldl (fun (c, next) i =>
    match task i with
    | none => (c, next)
    | some t => if t.state = .TASK_RUNNING ∧ c.toInt < t.counter.toInt then (t.counter, i) else (c, next))
    (-1, 0)

-- The loop `while (1)`, for at most so many passes.
def loop (passes : Nat) (task : Slot → Option Task) : Option ((Slot → Option Task) × Slot) :=
  match passes with
  | 0 => none
  | passes + 1 =>
    let (c, next) := scan task lastToFirst
    if c ≠ 0 then some (task, next) else loop passes (eachTask Task.refill task)

end schedule

namespace State

def init : State :=
  { task := Function.update (fun _ => none) 0 (some Task.initTask), current := 0, jiffies := 0 }

-- The first loop of `schedule`.
def signals (s : State) : Slot → Option Task :=
  eachTask (fun t => (t.checkAlarm s.jiffies).rouse) s.task

def schedule (passes : Nat) (s : State) : Option State :=
  match schedule.loop passes s.signals with
  | none => none
  | some (task, next) => some { s with task, current := next }

def modify (s : State) (nr : Slot) (f : Task → Task) : State :=
  { s with task := Function.update s.task nr ((s.task nr).map f) }

end State

inductive Act where
  | fork (nr : Slot)
  | nice (increment : BitVec 32)
  | timer (cpl : Bool)
  | sleep (interruptible : Bool)
  | wake (nr : Slot)
  | exit
  | release (nr : Slot)
  | raise (nr : Slot) (sig : Nat)
  | takeSignal (sig : Nat)
  | alarm (seconds : BitVec 32)
  | ssetmask (newmask : BitVec 32)
  | reschedule
  deriving Repr, DecidableEq

namespace State

-- The act up to the point where it is over or calls `schedule`.
def run (s : State) : Act → Option (State × Bool)
  | .fork nr =>
    if nr ≠ 0 ∧ s.task nr = none then
      some ({ s with task := Function.update s.task nr ((s.task s.current).map Task.child) }, false)
    else
      none
  | .nice increment => some (s.modify s.current fun t => t.nice increment, false)
  | .timer cpl =>
    let s := { s with jiffies := s.jiffies + 1 }.modify s.current Task.tick
    let expired := (s.task s.current).any fun t => t.counter == 0
    some (s, expired && cpl)
  -- `sleep_on` panics in task 0
  | .sleep interruptible =>
    if interruptible then
      some (s.modify s.current fun t => { t with state := .TASK_INTERRUPTIBLE }, true)
    else if s.current ≠ 0 then
      some (s.modify s.current fun t => { t with state := .TASK_UNINTERRUPTIBLE }, true)
    else
      none
  | .wake nr => some (s.modify nr fun t => { t with state := .TASK_RUNNING }, false)
  | .exit => some (s.modify s.current fun t => { t with state := .TASK_ZOMBIE }, true)
  | .release nr => if nr ≠ 0 then some ({ s with task := Function.update s.task nr none }, true) else none
  | .raise nr sig => some (s.modify nr fun t => { t with signal := t.signal ||| signalBit sig }, false)
  | .takeSignal sig => some (s.modify s.current fun t => { t with signal := t.signal &&& ~~~signalBit sig }, false)
  | .alarm seconds =>
    some (s.modify s.current fun t =>
      { t with alarm := if 0 < seconds.toInt then s.jiffies + HZ * seconds else 0 }, false)
  | .ssetmask newmask =>
    some (s.modify s.current fun t => { t with blocked := newmask &&& ~~~signalBit SIGKILL }, false)
  | .reschedule => some (s, true)

def step (passes : Nat) (s : State) (a : Act) : Option State :=
  match s.run a with
  | none => none
  | some (s, false) => some s
  | some (s, true) => s.schedule passes

end State

-- Task `nr` is one that `schedule` may choose.
def Runnable (task : Slot → Option Task) (nr : Slot) (t : Task) : Prop :=
  nr ≠ 0 ∧ task nr = some t ∧ t.state = .TASK_RUNNING

/--
`next` has the greatest counter of the runnable tasks, and the highest slot of those with this counter.
-/
def Greatest (task : Slot → Option Task) (next : Slot) : Prop :=
  ∃ t, Runnable task next t
    ∧ ∀ i t', Runnable task i t' → t'.counter.toInt ≤ t.counter.toInt ∧ (t'.counter = t.counter → i ≤ next)

namespace schedule

section Scan

variable {task : Slot → Option Task}

def Found (task : Slot → Option Task) (slots : List Slot) (c : BitVec 32) (next : Slot) : Prop :=
  (c = -1 ∧ next = 0 ∧ ∀ i ∈ slots, ∀ t, Runnable task i t → t.counter.toInt < 0)
    ∨ (0 ≤ c.toInt ∧ next ∈ slots ∧ (∃ t, Runnable task next t ∧ t.counter = c)
      ∧ ∀ i ∈ slots, ∀ t, Runnable task i t → t.counter.toInt ≤ c.toInt ∧ (t.counter = c → i ≤ next))

theorem scan_append (slots : List Slot) (i : Slot)
    : scan task (slots ++ [i])
      = match task i with
        | none => scan task slots
        | some t =>
          if t.state = .TASK_RUNNING ∧ (scan task slots).1.toInt < t.counter.toInt then
            (t.counter, i)
          else
            scan task slots := by
  unfold scan
  rw [List.foldl_append, List.foldl_cons, List.foldl_nil]

theorem Found.skip {slots : List Slot} {c : BitVec 32} {next i : Slot} (h : Found task slots c next)
    (hlower : ∀ j ∈ slots, i < j) (hi : ∀ t, Runnable task i t → t.counter.toInt ≤ c.toInt)
    : Found task (slots ++ [i]) c next := by
  cases h with
  | inl h =>
    obtain ⟨hc, hnext, hslots⟩ := h
    left
    refine ⟨hc, hnext, ?_⟩
    intro j hj t ht
    rw [List.mem_append, List.mem_singleton] at hj
    cases hj with
    | inl hj => exact hslots j hj t ht
    | inr hj =>
      have hle := hi t (hj ▸ ht)
      rw [hc] at hle
      exact Int.lt_of_le_of_lt hle (by decide)
  | inr h =>
    obtain ⟨hc, hmem, hnext, hslots⟩ := h
    right
    refine ⟨hc, List.mem_append_left _ hmem, hnext, ?_⟩
    intro j hj t ht
    rw [List.mem_append, List.mem_singleton] at hj
    cases hj with
    | inl hj => exact hslots j hj t ht
    | inr hj =>
      refine ⟨hi t (hj ▸ ht), ?_⟩
      intro _
      rw [hj]
      exact Fin.le_of_lt (hlower next hmem)

theorem Found.take {slots : List Slot} {c : BitVec 32} {next i : Slot} {t : Task} (h : Found task slots c next)
    (ht : Runnable task i t) (hlt : c.toInt < t.counter.toInt)
    : Found task (slots ++ [i]) t.counter i := by
  have hminus : (-1 : BitVec 32).toInt = -1 := by decide
  have hless : 0 ≤ t.counter.toInt ∧ ∀ j ∈ slots, ∀ t', Runnable task j t' → t'.counter.toInt < t.counter.toInt := by
    cases h with
    | inl h =>
      obtain ⟨hc, _, hslots⟩ := h
      rw [hc, hminus] at hlt
      refine ⟨by omega, ?_⟩
      intro j hj t' ht'
      have hneg := hslots j hj t' ht'
      omega
    | inr h =>
      obtain ⟨hc, _, _, hslots⟩ := h
      refine ⟨by omega, ?_⟩
      intro j hj t' ht'
      have hle := (hslots j hj t' ht').left
      omega
  right
  refine ⟨hless.left, by simp, ⟨t, ht, rfl⟩, ?_⟩
  intro j hj t' ht'
  rw [List.mem_append, List.mem_singleton] at hj
  cases hj with
  | inl hj =>
    have hlt' := hless.right j hj t' ht'
    refine ⟨Int.le_of_lt hlt', ?_⟩
    intro heq
    rw [heq] at hlt'
    omega
  | inr hj =>
    subst hj
    have heq : t' = t := Option.some.inj (ht'.right.left.symm.trans ht.right.left)
    rw [heq]
    exact ⟨Int.le_refl _, fun _ => Fin.le_refl _⟩

theorem scan_found {slots : List Slot} (hne : ∀ i ∈ slots, i ≠ 0) (horder : slots.Pairwise (· > ·))
    : Found task slots (scan task slots).1 (scan task slots).2 := by
  induction slots using List.reverseRecOn with
  | nil => exact .inl ⟨rfl, rfl, by simp⟩
  | append_singleton slots i ih =>
    rw [List.pairwise_append] at horder
    obtain ⟨horder, _, hbelow⟩ := horder
    have hfound := ih (fun j hj => hne j (List.mem_append_left _ hj)) horder
    have hlower : ∀ j ∈ slots, i < j := fun j hj => hbelow j hj i (List.mem_singleton_self i)
    have hi : i ≠ 0 := hne i (by simp)
    rw [scan_append]
    split
    . next hnone =>
      apply hfound.skip hlower
      intro t ht
      cases hnone.symm.trans ht.right.left
    . next t hsome =>
      split
      . next hbetter => exact hfound.take ⟨hi, hsome, hbetter.left⟩ hbetter.right
      . next hworse =>
        apply hfound.skip hlower
        intro t' ht'
        have heq : t' = t := Option.some.inj (ht'.right.left.symm.trans hsome)
        rw [heq]
        apply Int.not_lt.mp
        intro hlt
        exact hworse ⟨heq ▸ ht'.right.right, hlt⟩

theorem pairwise_lastToFirst : lastToFirst.Pairwise (· > ·) := by
  decide

theorem scan_cases (task : Slot → Option Task)
    : ((scan task lastToFirst).1 = -1 ∧ (scan task lastToFirst).2 = 0
          ∧ ∀ i t, Runnable task i t → t.counter.toInt < 0)
        ∨ (0 ≤ (scan task lastToFirst).1.toInt ∧ Greatest task (scan task lastToFirst).2
          ∧ (∃ i t, Runnable task i t ∧ t.counter = (scan task lastToFirst).1)
          ∧ ∀ i t, Runnable task i t → t.counter.toInt ≤ (scan task lastToFirst).1.toInt) := by
  have hfound := @scan_found task lastToFirst (fun _ => mem_lastToFirst) pairwise_lastToFirst
  cases hfound with
  | inl h =>
    obtain ⟨hc, hnext, hslots⟩ := h
    exact .inl ⟨hc, hnext, fun i t ht => hslots i (mem_lastToFirst_of_ne ht.left) t ht⟩
  | inr h =>
    obtain ⟨hc, _, ⟨t, ht, hcounter⟩, hslots⟩ := h
    refine .inr ⟨hc, ⟨t, ht, ?_⟩, ⟨_, t, ht, hcounter⟩, ?_⟩
    . intro i t' ht'
      rw [hcounter]
      exact hslots i (mem_lastToFirst_of_ne ht'.left) t' ht'
    . intro i t' ht'
      exact (hslots i (mem_lastToFirst_of_ne ht'.left) t' ht').left

end Scan

section Loop

variable {task : Slot → Option Task}

theorem loop_stop (h : (scan task lastToFirst).1 ≠ 0) (passes : Nat)
    : loop (passes + 1) task = some (task, (scan task lastToFirst).2) := by
  rw [loop]
  exact if_pos h

theorem loop_again (h : (scan task lastToFirst).1 = 0) (passes : Nat)
    : loop (passes + 1) task = loop passes (eachTask Task.refill task) := by
  rw [loop]
  exact if_neg (not_not.mpr h)

theorem runnable_refill {i : Slot} {t : Task} (h : Runnable task i t)
    : Runnable (eachTask Task.refill task) i t.refill := by
  obtain ⟨hi, htask, hstate⟩ := h
  refine ⟨hi, ?_, hstate⟩
  rw [eachTask, if_neg hi, htask]
  rfl

theorem scan_refilled (hpriority : ∀ i t, Runnable task i t → 0 < t.priority.toInt)
    (h : (scan task lastToFirst).1 = 0) : (scan (eachTask Task.refill task) lastToFirst).1 ≠ 0 := by
  obtain ⟨hminus, _⟩ | ⟨_, _, ⟨i, t, ht, hcounter⟩, _⟩ := scan_cases task
  . rw [h] at hminus
    cases hminus
  . have hrefill : t.refill.counter = t.priority := by
      rw [Task.refill, hcounter, h]
      simp
    have hpos := hpriority i t ht
    have hrunnable := runnable_refill ht
    obtain ⟨_, _, hneg⟩ | ⟨_, _, _, hgreatest⟩ := scan_cases (eachTask Task.refill task)
    . have hlt := hneg i t.refill hrunnable
      rw [hrefill] at hlt
      omega
    . have hle := hgreatest i t.refill hrunnable
      rw [hrefill] at hle
      intro hzero
      rw [hzero] at hle
      exact absurd hle (Int.not_le.mpr hpos)

theorem loop_two (hpriority : ∀ i t, Runnable task i t → 0 < t.priority.toInt) (passes : Nat)
    : loop (passes + 2) task
      = if (scan task lastToFirst).1 = 0 then
          some (eachTask Task.refill task, (scan (eachTask Task.refill task) lastToFirst).2)
        else
          some (task, (scan task lastToFirst).2) := by
  split
  . next h =>
    rw [loop_again h, loop_stop]
    exact scan_refilled hpriority h
  . next h => exact loop_stop h (passes + 1)

theorem loop_cases {passes : Nat} {r : (Slot → Option Task) × Slot}
    (hpriority : ∀ i t, Runnable task i t → 0 < t.priority.toInt) (h : loop passes task = some r)
    : ((scan task lastToFirst).1 ≠ 0 ∧ r = (task, (scan task lastToFirst).2))
        ∨ ((scan task lastToFirst).1 = 0
          ∧ r = (eachTask Task.refill task, (scan (eachTask Task.refill task) lastToFirst).2)) := by
  by_cases hc : (scan task lastToFirst).1 = 0
  . match passes with
    | 0 => cases h
    | 1 =>
      rw [loop_again hc] at h
      cases h
    | passes + 2 =>
      rw [loop_two hpriority, if_pos hc, Option.some.injEq] at h
      exact .inr ⟨hc, h.symm⟩
  . match passes with
    | 0 => cases h
    | passes + 1 =>
      rw [loop_stop hc, Option.some.injEq] at h
      exact .inl ⟨hc, h.symm⟩

end Loop
end schedule

section Instrumented

-- What `schedule` looks at in the instrumented kernel, where tasks are in pages.
def slots (s : Kernel) : Slot → Option Task :=
  fun i => (s.task i).map fun p =>
    let t := s.mem p
    {
      state := t.state
      counter := t.counter
      priority := t.priority
      signal := t.signal
      blocked := t.blocked
      alarm := t.alarm
    }

theorem choose_eq_scan (s : Kernel) : s.choose = schedule.scan (slots s) lastToFirst := by
  unfold Kernel.choose schedule.scan slots
  congr 1
  funext ⟨c, next⟩ i
  cases s.task i with
  | none => rfl
  | some p => rfl

def Separate (s : Kernel) : Prop :=
  ∀ i j p, s.task i = some p → s.task j = some p → i = j

theorem slots_refill {s : Kernel} (h : Separate s) : slots s.refill = eachTask Task.refill (slots s) := by
  funext i
  unfold slots eachTask
  change (s.task i).map _ = if i = 0 then (s.task i).map _ else ((s.task i).map _).map _
  cases htask : s.task i with
  | none => simp
  | some p =>
    have hany : (lastToFirst.any fun j => s.task j == some p) = decide (i ≠ 0) := by
      by_cases hi : i = 0
      . rw [List.any_eq_false.mpr, hi]
        . rfl
        . intro j hj heq
          have hji := h j i p (eq_of_beq heq) htask
          exact mem_lastToFirst hj (hji.trans hi)
      . rw [List.any_eq_true.mpr ⟨i, mem_lastToFirst_of_ne hi, by simp [htask]⟩]
        simp [hi]
    simp only [Option.map_some, Kernel.refill, hany]
    by_cases hi : i = 0
    . simp [hi]
    . simp [hi, Task.refill, OS.Task.refill]

theorem refills_of_loop {passes : Nat} {s : Kernel} {task : Slot → Option Task} {next : Slot} (h : Separate s)
    (hloop : schedule.loop passes (slots s) = some (task, next))
    : ∃ k < passes, slots (Kernel.refill^[k] s) = task ∧ (Kernel.refill^[k] s).choose.snd = next
        ∧ (Kernel.refill^[k] s).choose.fst ≠ 0 ∧ ∀ j < k, (Kernel.refill^[j] s).choose.fst = 0 := by
  induction passes generalizing s with
  | zero => cases hloop
  | succ passes ih =>
    by_cases hzero : s.choose.fst = 0
    . have hagain := hzero
      rw [choose_eq_scan] at hagain
      rw [schedule.loop_again hagain, ← slots_refill h] at hloop
      obtain ⟨k, hk, htask, hnext, hchosen, hbefore⟩ := ih (s := s.refill) h hloop
      refine ⟨k + 1, by omega, htask, hnext, hchosen, ?_⟩
      intro j hj
      cases j with
      | zero => exact hzero
      | succ j => exact hbefore j (by omega)
    . have hstop := hzero
      rw [choose_eq_scan] at hstop
      rw [schedule.loop_stop hstop, Option.some.injEq, Prod.mk.injEq] at hloop
      refine ⟨0, Nat.zero_lt_succ _, hloop.left, ?_, hzero, fun j hj => absurd hj (Nat.not_lt_zero j)⟩
      show s.choose.snd = next
      rw [choose_eq_scan]
      exact hloop.right

theorem choose_refill_ne_zero {s : Kernel} (h : Separate s)
    (hpriority : ∀ i t, Runnable (slots s) i t → 0 < t.priority.toInt)
    : s.choose.fst ≠ 0 ∨ s.refill.choose.fst ≠ 0 := by
  rw [choose_eq_scan, choose_eq_scan, slots_refill h]
  by_cases hzero : (schedule.scan (slots s) lastToFirst).fst = 0
  . exact .inr (schedule.scan_refilled hpriority hzero)
  . exact .inl hzero

end Instrumented

end Sched
end OS
