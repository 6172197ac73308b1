import ByDoing.OS.Scheduler

namespace OS
namespace Sched

structure Kept (P : Task → Prop) : Prop where
  state : ∀ t state, P t → P { t with state }
  signal : ∀ t signal blocked alarm, P t → P { t with signal, blocked, alarm }
  child : ∀ t, P t → P t.child
  nice : ∀ t increment, P t → P (t.nice increment)
  tick : ∀ t, P t → P t.tick

def Positive (t : Task) : Prop :=
  0 < t.priority.toInt

def Sound (t : Task) : Prop :=
  0 < t.priority.toInt ∧ 0 ≤ t.counter.toInt

theorem nice_priority {t : Task} (h : 0 < t.priority.toInt) (increment : BitVec 32)
    : 0 < (t.nice increment).priority.toInt := by
  unfold Task.nice
  split
  . next hpos => exact hpos
  . exact h

theorem nice_counter (t : Task) (increment : BitVec 32) : (t.nice increment).counter = t.counter := by
  unfold Task.nice
  split <;> rfl

theorem tick_counter (t : Task) : 0 ≤ t.tick.counter.toInt := by
  unfold Task.tick
  dsimp only
  split
  . next hpos => exact Int.le_of_lt hpos
  . exact Int.le_refl 0

theorem kept_positive : Kept Positive where
  state _ _ h := h
  signal _ _ _ _ h := h
  child _ h := h
  nice _ increment h := nice_priority h increment
  tick _ h := h

theorem kept_sound : Kept Sound where
  state _ _ h := h
  signal _ _ _ _ h := h
  child _ h := ⟨h.left, Int.le_of_lt h.left⟩
  nice t increment h := by
    refine ⟨nice_priority h.left increment, ?_⟩
    rw [nice_counter]
    exact h.right
  tick t h := ⟨h.left, tick_counter t⟩

def AllTasks (P : Task → Prop) (task : Slot → Option Task) : Prop :=
  ∀ nr t, task nr = some t → P t

section AllTasks

variable {P : Task → Prop} {task : Slot → Option Task}

theorem AllTasks.eachTask {f : Task → Task} (h : AllTasks P task)
    (hf : ∀ nr t, nr ≠ 0 → task nr = some t → P t → P (f t))
    : AllTasks P (eachTask f task) := by
  intro nr t ht
  unfold Sched.eachTask at ht
  split at ht
  . exact h nr t ht
  . next hnr =>
    rw [Option.map_eq_some_iff] at ht
    obtain ⟨t', ht', rfl⟩ := ht
    exact hf nr t' hnr ht' (h nr t' ht')

theorem AllTasks.update (h : AllTasks P task) {nr : Slot} {o : Option Task} (ho : ∀ t, o = some t → P t)
    : AllTasks P (Function.update task nr o) := by
  intro i t ht
  by_cases hi : i = nr
  . rw [hi, Function.update_self] at ht
    exact ho t ht
  . rw [Function.update_of_ne hi] at ht
    exact h i t ht

theorem AllTasks.modify {s : State} (h : AllTasks P s.task) {nr : Slot} {f : Task → Task} (hf : ∀ t, P t → P (f t))
    : AllTasks P (s.modify nr f).task := by
  apply h.update
  intro t ht
  rw [Option.map_eq_some_iff] at ht
  obtain ⟨t', ht', rfl⟩ := ht
  exact hf t' (h nr t' ht')

theorem AllTasks.signals {s : State} (hkept : Kept P) (h : AllTasks P s.task) : AllTasks P s.signals := by
  apply h.eachTask
  intro nr t _ _ ht
  have halarm : P (t.checkAlarm s.jiffies) := by
    unfold Task.checkAlarm
    split
    . exact hkept.signal t _ _ _ ht
    . exact ht
  unfold Task.rouse
  split
  . exact hkept.state _ _ halarm
  . exact halarm

theorem AllTasks.run {s s' : State} {a : Act} {called : Bool} (hkept : Kept P) (h : AllTasks P s.task)
    (hrun : s.run a = some (s', called)) : AllTasks P s'.task := by
  cases a with
  | fork nr =>
    dsimp only [State.run] at hrun
    split at hrun
    . cases hrun
      apply h.update
      intro t ht
      rw [Option.map_eq_some_iff] at ht
      obtain ⟨t', ht', rfl⟩ := ht
      exact hkept.child t' (h _ t' ht')
    . cases hrun
  | nice increment =>
    cases hrun
    exact h.modify (fun t => hkept.nice t increment)
  | timer cpl =>
    cases hrun
    exact AllTasks.modify (s := { s with jiffies := s.jiffies + 1 }) h hkept.tick
  | sleep interruptible =>
    dsimp only [State.run] at hrun
    split at hrun
    . cases hrun
      exact h.modify (fun t => hkept.state t _)
    . split at hrun
      . cases hrun
        exact h.modify (fun t => hkept.state t _)
      . cases hrun
  | wake nr =>
    cases hrun
    exact h.modify (fun t => hkept.state t _)
  | exit =>
    cases hrun
    exact h.modify (fun t => hkept.state t _)
  | release nr =>
    dsimp only [State.run] at hrun
    split at hrun
    . cases hrun
      apply h.update
      intro t ht
      cases ht
    . cases hrun
  | raise nr sig =>
    cases hrun
    exact h.modify (fun t => hkept.signal t _ _ _)
  | takeSignal sig =>
    cases hrun
    exact h.modify (fun t => hkept.signal t _ _ _)
  | alarm seconds =>
    cases hrun
    exact h.modify (fun t => hkept.signal t _ _ _)
  | ssetmask newmask =>
    cases hrun
    exact h.modify (fun t => hkept.signal t _ _ _)
  | reschedule =>
    cases hrun
    exact h

end AllTasks

theorem positive_schedule {passes : Nat} {s r : State} (h : AllTasks Positive s.task)
    (hr : s.schedule passes = some r) : AllTasks Positive r.task := by
  have hsignals := h.signals kept_positive
  unfold State.schedule at hr
  split at hr
  . cases hr
  . next task next hloop =>
    cases hr
    obtain ⟨_, heq⟩ | ⟨_, heq⟩ := schedule.loop_cases (fun i t ht => hsignals i t ht.right.left) hloop
    . cases heq
      exact hsignals
    . cases heq
      exact hsignals.eachTask (fun _ _ _ _ ht => ht)

theorem schedule_two {s : State} (h : AllTasks Positive s.task) : ∃ r, s.schedule 2 = some r := by
  have hsignals := h.signals kept_positive
  have hloop := schedule.loop_two (fun i t ht => hsignals i t ht.right.left) 0
  unfold State.schedule
  by_cases hc : (schedule.scan s.signals lastToFirst).1 = 0
  . rw [if_pos hc] at hloop
    rw [hloop]
    exact ⟨_, rfl⟩
  . rw [if_neg hc] at hloop
    rw [hloop]
    exact ⟨_, rfl⟩

theorem positive_of_reaches {passes : Nat} {ok : State → Act → Prop} {s : State}
    (h : Run.Reaches (State.step passes) ok State.init s) : AllTasks Positive s.task := by
  apply h.invariant (fun s => AllTasks Positive s.task)
  . apply AllTasks.update
    . intro nr t ht
      cases ht
    . intro t ht
      cases ht
      unfold Positive
      decide
  . intro s s' a hs _ hstep
    unfold State.step at hstep
    split at hstep
    . cases hstep
    . next s₁ hrun =>
      cases hstep
      exact hs.run kept_positive hrun
    . next s₁ hrun => exact positive_schedule (hs.run kept_positive hrun) hstep

/--
In every reachable state, and wherever a call goes on to `schedule` from there, each task has a positive priority, and
`schedule` is through after two passes: it has recalculated the counters once at most.
-/
theorem schedule_isSome_of_reaches {passes : Nat} {s : State}
    (h : Run.Reaches (State.step passes) (fun _ _ => True) State.init s)
    : AllTasks Positive s.task ∧ (s.schedule 2).isSome = true
        ∧ ∀ a s' called, s.run a = some (s', called) → AllTasks Positive s'.task ∧ (s'.schedule 2).isSome = true := by
  have hs := positive_of_reaches h
  refine ⟨hs, Option.isSome_iff_exists.mpr (schedule_two hs), ?_⟩
  intro a s' called hrun
  have hs' := hs.run kept_positive hrun
  exact ⟨hs', Option.isSome_iff_exists.mpr (schedule_two hs')⟩

def forked : State :=
  { State.init with task := Function.update State.init.task 1 (some Task.initTask.child) }

theorem step_fork : State.init.step 2 (.fork 1) = some forked :=
  rfl

theorem schedule_isSome_forked : (forked.schedule 2).isSome = true :=
  (schedule_isSome_of_reaches (.tail .refl trivial step_fork)).right.left

section Choice

/--
`schedule` recalculates the counters: some task other than task 0 is runnable, and none of those has time left.
-/
def NeedsRefill (task : Slot → Option Task) : Prop :=
  (∃ i t, Runnable task i t) ∧ ∀ i t, Runnable task i t → t.counter.toInt ≤ 0

/--
If the act calls `schedule` and the counters are recalculated there, then none of them goes beyond a `long`.
-/
def Fits (s : State) (a : Act) : Prop :=
  ∀ s', s.run a = some (s', true) → NeedsRefill s'.signals →
    ∀ nr t, nr ≠ 0 → s'.signals nr = some t → t.counter.toInt / 2 + t.priority.toInt < 2 ^ 31

def State.Chosen (s : State) : Prop :=
  ((∃ i t, Runnable s.task i t) → Greatest s.task s.current)
    ∧ (s.current = 0 → ¬∃ i t, Runnable s.task i t)

theorem refill_counter {t : Task} (h : Sound t) (hfits : t.counter.toInt / 2 + t.priority.toInt < 2 ^ 31)
    : t.refill.counter.toInt = t.counter.toInt / 2 + t.priority.toInt := by
  obtain ⟨hpriority, hcounter⟩ := h
  have hhalf : (t.counter.sshiftRight 1).toInt = t.counter.toInt / 2 := by
    rw [BitVec.toInt_sshiftRight, Int.shiftRight_eq_div_pow]
    rfl
  unfold Task.refill
  rw [BitVec.toInt_add, hhalf, Int.bmod_eq_of_le]
  . omega
  . omega

theorem sound_refill {t : Task} (h : Sound t) (hfits : t.counter.toInt / 2 + t.priority.toInt < 2 ^ 31)
    : Sound t.refill := by
  refine ⟨h.left, ?_⟩
  have hpriority := h.left
  have hcounter := h.right
  rw [refill_counter h hfits]
  omega

theorem needsRefill_of_scan {task : Slot → Option Task} (h : (schedule.scan task lastToFirst).1 = 0)
    : NeedsRefill task := by
  obtain ⟨hminus, _⟩ | ⟨_, _, ⟨i, t, ht, _⟩, hgreatest⟩ := schedule.scan_cases task
  . rw [h] at hminus
    cases hminus
  . refine ⟨⟨i, t, ht⟩, ?_⟩
    intro i t ht
    have hle := hgreatest i t ht
    rw [h] at hle
    exact hle

theorem chosen_scan {task : Slot → Option Task} {jiffies : BitVec 32} (h : AllTasks Sound task)
    : State.Chosen { task, current := (schedule.scan task lastToFirst).2, jiffies } := by
  obtain ⟨_, hnext, hneg⟩ | ⟨_, hgreatest, _⟩ := schedule.scan_cases task
  . have hnone : ¬∃ i t, Runnable task i t := by
      rintro ⟨i, t, ht⟩
      have hlt := hneg i t ht
      have hle := (h i t ht.right.left).right
      omega
    exact ⟨fun hsome => absurd hsome hnone, fun _ => hnone⟩
  . refine ⟨fun _ => hgreatest, ?_⟩
    intro hzero
    obtain ⟨t, ht, _⟩ := hgreatest
    exact absurd hzero ht.left

theorem schedule_chosen {passes : Nat} {s r : State} (h : AllTasks Sound s.task)
    (hfits : NeedsRefill s.signals →
      ∀ nr t, nr ≠ 0 → s.signals nr = some t → t.counter.toInt / 2 + t.priority.toInt < 2 ^ 31)
    (hr : s.schedule passes = some r) : AllTasks Sound r.task ∧ r.Chosen := by
  have hsignals := h.signals kept_sound
  unfold State.schedule at hr
  split at hr
  . cases hr
  . next task next hloop =>
    cases hr
    obtain ⟨_, heq⟩ | ⟨hc, heq⟩ :=
      schedule.loop_cases (fun i t ht => (hsignals i t ht.right.left).left) hloop
    . cases heq
      exact ⟨hsignals, chosen_scan hsignals⟩
    . have hrefilled : AllTasks Sound (eachTask Task.refill s.signals) := by
        apply hsignals.eachTask
        intro nr t hnr ht hsound
        exact sound_refill hsound (hfits (needsRefill_of_scan hc) nr t hnr ht)
      cases heq
      exact ⟨hrefilled, chosen_scan hrefilled⟩

theorem sound_of_reaches {passes : Nat} {s : State} (h : Run.Reaches (State.step passes) Fits State.init s)
    : AllTasks Sound s.task := by
  apply h.invariant (fun s => AllTasks Sound s.task)
  . apply AllTasks.update
    . intro nr t ht
      cases ht
    . intro t ht
      cases ht
      unfold Sound
      decide
  . intro s s' a hs hfits hstep
    unfold State.step at hstep
    split at hstep
    . cases hstep
    . next s₁ hrun =>
      cases hstep
      exact hs.run kept_sound hrun
    . next s₁ hrun => exact (schedule_chosen (hs.run kept_sound hrun) (hfits s₁ hrun) hstep).left

/--
In every run in which no counter overflows, `schedule` chooses the runnable task with the greatest counter wherever it
is called.
-/
theorem chosen_of_reaches {passes : Nat} {s s' : State} {a : Act}
    (h : Run.Reaches (State.step passes) Fits State.init s) (hfits : Fits s a) (hrun : s.run a = some (s', true))
    : ∃ r, s'.schedule 2 = some r ∧ r.Chosen := by
  have hs := (sound_of_reaches h).run kept_sound hrun
  obtain ⟨r, hr⟩ := schedule_two ((positive_of_reaches h).run kept_positive hrun)
  exact ⟨r, hr, (schedule_chosen hs (hfits s' hrun) hr).right⟩

-- Task 0 pauses.
theorem chosen_forked
    : ∃ s', forked.run (.sleep true) = some (s', true) ∧ ∃ r, s'.schedule 2 = some r ∧ r.Chosen := by
  have hrun : ∃ s', forked.run (.sleep true) = some (s', true) ∧ Runnable s'.signals 1 Task.initTask.child :=
    ⟨_, rfl, by decide, rfl, rfl⟩
  obtain ⟨s', hrun, hrunnable⟩ := hrun
  have hfork : Fits State.init (.fork 1) := by
    intro s' hrun
    cases hrun
  have hpause : Fits forked (.sleep true) := by
    intro s₁ hrun₁ hneeds
    rw [hrun] at hrun₁
    cases hrun₁
    exact absurd (hneeds.right 1 _ hrunnable) (by decide)
  exact ⟨s', hrun, chosen_of_reaches (.tail .refl hfork step_fork) hpause hrun⟩

def overflowRun : List Act :=
  [
    .nice 14, .fork 1, .fork 2, .sleep true, .nice (1 - BitVec.ofNat 32 (2 ^ 31 - 1)), .sleep true, .timer true,
    .timer true, .wake 2
  ]

-- Task 2 has raised its priority to the greatest `long`, and the second recalculation makes its counter negative.
theorem not_chosen_overflow
    : ∃ s s' r, Run.Reaches (State.step 2) (fun _ _ => True) State.init s ∧ s.run (.sleep true) = some (s', true)
        ∧ s'.schedule 2 = some r ∧ ¬r.Chosen := by
  have hrun : ((Run.exec (State.step 2) State.init overflowRun).bind fun s =>
      (s.run (.sleep true)).bind fun p => (p.1.schedule 2).map fun r =>
        (p.2, r.current, (r.task 2).map Task.state)) = some (true, 0, some .TASK_RUNNING) := by
    decide +kernel
  simp only [Option.bind_eq_some_iff, Option.map_eq_some_iff, Prod.mk.injEq] at hrun
  obtain ⟨s, hexec, ⟨s', called⟩, hrun, r, hr, hcalled, hcurrent, t, ht, hstate⟩ := hrun
  dsimp only at hcalled
  rw [hcalled] at hrun
  refine ⟨s, s', r, Run.Reaches.of_exec (Run.allOk_of_forall fun _ _ => trivial) hexec, hrun, hr, ?_⟩
  intro hchosen
  exact hchosen.right hcurrent ⟨2, t, by decide, ht, hstate⟩

end Choice

end Sched
end OS
