import ByDoing.Lib.Refine
import ByDoing.OS.WaitQueue

namespace OS

/--
The calls of `sleep_on` and `wake_up`, the ends of the calls of `sleep_on`, and what happens to the tasks outside
of them.
-/
inductive SleepAct (τ : Type) where
  | sleepOn (t : τ)
  | wakeUp
  | resume (t : τ)
  | change (t : τ) (state : TaskState)

namespace SleepOn

open TaskQueue

variable {τ : Type}

def Asleep (s : TaskQueue τ) (t : τ) : Prop :=
  s.Inside t ∧ s.state t = .TASK_UNINTERRUPTIBLE

instance decidableAsleep (s : TaskQueue τ) (t : τ) : Decidable (Asleep s t) :=
  inferInstanceAs (Decidable (s.Inside t ∧ s.state t = .TASK_UNINTERRUPTIBLE))

def Alters (t : τ) : SleepAct τ → Prop
  | .sleepOn u => u = t
  | .change u _ => u = t
  | _ => False

theorem asleep_not_running {s : TaskQueue τ} {t : τ} (h : Asleep s t) : s.state t ≠ .TASK_RUNNING := by
  rw [h.right]
  decide

structure Inv (s : TaskQueue τ) : Prop where
  queue_asleep : ∀ t, s.queue = some t → Asleep s t
  saves_asleep : ∀ t u, s.Saves t u → Asleep s u
  saves_ne_queue : ∀ t u, s.Saves t u → s.queue ≠ some u
  saves_inj : ∀ t t' u, s.Saves t u → s.Saves t' u → t = t'
  reached : ∀ t, Asleep s t → s.Reached t

theorem init_inv (state : τ → TaskState) : Inv (init state) where
  queue_asleep := by simp [init]
  saves_asleep := by simp [init, Saves]
  saves_ne_queue := by simp [init, Saves]
  saves_inj := by simp [init, Saves]
  reached := by simp [init, Asleep, Inside]

variable [DecidableEq τ] {idle : τ}

def resume (s : TaskQueue τ) (t : τ) : Option (TaskQueue τ) :=
  match s.frame t with
  | none => none
  | some tmp =>
    if s.state t = .TASK_RUNNING then
      some (s.leave t tmp)
    else
      none

def step (idle : τ) (s : TaskQueue τ) : SleepAct τ → Option (TaskQueue τ)
  | .sleepOn t => enter idle s t .TASK_UNINTERRUPTIBLE
  | .wakeUp => some s.wakeUp
  | .resume t => resume s t
  | .change t state => if s.frame t = none then some (s.setState t state) else none

theorem resume_eq_some {s s' : TaskQueue τ} {t : τ} (h : resume s t = some s')
    : ∃ tmp, s.frame t = some tmp ∧ s.state t = .TASK_RUNNING ∧ s' = s.leave t tmp := by
  unfold resume at h
  split at h
  . simp at h
  . next tmp hframe =>
    split at h
    . next hrun =>
      rw [Option.some.injEq] at h
      exact ⟨tmp, hframe, hrun, h.symm⟩
    . simp at h

theorem Inv.sleepOn {s s' : TaskQueue τ} {t : τ} (hinv : Inv s) (h : Entered s s' t .TASK_UNINTERRUPTIBLE)
    : Inv s' := by
  have hkeep : ∀ u, Asleep s u → Asleep s' u := by
    intro u hu
    have hne := h.ne_of_inside hu.left
    exact ⟨(h.inside_iff hne).mpr hu.left, (h.state_of_ne hne).trans hu.right⟩
  have hsaved : ∀ x y, s'.Saves x y → Asleep s y := by
    intro x y hxy
    cases (h.saves_iff x y).mp hxy with
    | inl hnew => exact hinv.queue_asleep y hnew.right
    | inr hold => exact hinv.saves_asleep x y hold
  constructor
  . intro u hu
    rw [h.queue_eq, Option.some.injEq] at hu
    exact hu ▸ ⟨h.inside_self, h.state_self⟩
  . intro x y hxy
    exact hkeep y (hsaved x y hxy)
  . intro x y hxy heq
    rw [h.queue_eq, Option.some.injEq] at heq
    exact h.ne_of_inside (hsaved x y hxy).left heq.symm
  . intro x x' y hxy hxy'
    cases (h.saves_iff x y).mp hxy with
    | inl hnew =>
      cases (h.saves_iff x' y).mp hxy' with
      | inl hnew' => rw [hnew.left, hnew'.left]
      | inr hold' => exact absurd hnew.right (hinv.saves_ne_queue x' y hold')
    | inr hold =>
      cases (h.saves_iff x' y).mp hxy' with
      | inl hnew' => exact absurd hnew'.right (hinv.saves_ne_queue x y hold)
      | inr hold' => exact hinv.saves_inj x x' y hold hold'
  . intro u hu
    by_cases heq : u = t
    . exact heq ▸ h.reached_self
    . apply h.reached
      exact hinv.reached u ⟨(h.inside_iff heq).mp hu.left, (h.state_of_ne heq).symm.trans hu.right⟩

theorem Inv.wakeUp {s : TaskQueue τ} (hinv : Inv s) : Inv s.wakeUp := by
  have hkeep : ∀ u, Asleep s u → s.queue ≠ some u → Asleep s.wakeUp u := by
    intro u hu hne
    exact ⟨(s.inside_wakeUp_iff u).mpr hu.left, (s.wake_state_of_ne hne).trans hu.right⟩
  have hhead : ∀ u, s.queue = some u → s.wakeUp.Runnable u := by
    intro u hu
    refine ⟨(s.inside_wakeUp_iff u).mpr (hinv.queue_asleep u hu).left, ?_⟩
    unfold TaskQueue.wakeUp
    rw [hu]
    exact s.wake_state_self u
  constructor
  . intro u hu
    simp [TaskQueue.wakeUp] at hu
  . intro x y hxy
    rw [saves_wakeUp] at hxy
    exact hkeep y (hinv.saves_asleep x y hxy) (hinv.saves_ne_queue x y hxy)
  . intro x y _
    simp [TaskQueue.wakeUp]
  . intro x x' y hxy hxy'
    rw [saves_wakeUp] at hxy hxy'
    exact hinv.saves_inj x x' y hxy hxy'
  . intro u hu
    have hasleep : Asleep s u := by
      refine ⟨(s.inside_wakeUp_iff u).mp hu.left, ?_⟩
      have hne : s.queue ≠ some u := fun heq => asleep_not_running hu (hhead u heq).right
      exact (s.wake_state_of_ne hne).symm.trans hu.right
    unfold Reached
    rw [saves_wakeUp]
    apply (hinv.reached u hasleep).trans
    intro r hr
    cases hr with
    | inl hqueue => exact Rooted.of_root (.inr (hhead r hqueue))
    | inr hrun => exact Rooted.of_root (.inr (runnable_wakeUp hrun))

theorem Inv.resume {s : TaskQueue τ} {t : τ} {tmp : Option τ} (hinv : Inv s) (hframe : s.frame t = some tmp)
    (hrun : s.state t = .TASK_RUNNING)
    : Inv (s.leave t tmp) := by
  have hne : ∀ u, Asleep s u → u ≠ t := by
    intro u hu heq
    exact asleep_not_running hu (heq ▸ hrun)
  have hkeep : ∀ u, Asleep s u → tmp ≠ some u → Asleep (s.leave t tmp) u := by
    intro u hu htmp
    exact ⟨(s.inside_leave_iff t u tmp).mpr ⟨hne u hu, hu.left⟩, (s.leave_state_of_ne t htmp).trans hu.right⟩
  constructor
  . intro u hu
    rw [leave_queue] at hu
    apply hkeep u (hinv.queue_asleep u hu)
    intro htmp
    exact hinv.saves_ne_queue t u (hframe.trans (congrArg some htmp)) hu
  . intro x y hxy
    rw [saves_leave_iff] at hxy
    apply hkeep y (hinv.saves_asleep x y hxy.right)
    intro htmp
    exact hxy.left (hinv.saves_inj x t y hxy.right (hframe.trans (congrArg some htmp)))
  . intro x y hxy
    rw [saves_leave_iff] at hxy
    rw [leave_queue]
    exact hinv.saves_ne_queue x y hxy.right
  . intro x x' y hxy hxy'
    rw [saves_leave_iff] at hxy hxy'
    exact hinv.saves_inj x x' y hxy.right hxy'.right
  . intro u hu
    have hinside := (s.inside_leave_iff t u tmp).mp hu.left
    have htmp : tmp ≠ some u := by
      intro htmp
      subst htmp
      exact asleep_not_running hu (s.leave_state_saved t u)
    have hasleep : Asleep s u := ⟨hinside.right, (s.leave_state_of_ne t htmp).symm.trans hu.right⟩
    apply (hinv.reached u hasleep).cut hinside.left True.intro fun _ _ _ => True.intro
    . intro x y hx hxy
      exact (s.saves_leave_iff t x y tmp).mpr ⟨hx, hxy⟩
    . intro r hr hroot
      apply Rooted.of_root
      cases hroot with
      | inl hqueue => exact .inl ((s.leave_queue t tmp).trans hqueue)
      | inr hrunnable => exact .inr (runnable_leave tmp hr hrunnable)
    . intro v hv _
      have hv' := hinv.saves_asleep t v hv
      unfold Saves at hv
      rw [hframe, Option.some.injEq] at hv
      subst hv
      exact Rooted.of_root (.inr (runnable_leave_saved (hne v hv') hv'.left))

theorem Inv.change {s : TaskQueue τ} {t : τ} (hinv : Inv s) (hout : s.frame t = none) (state : TaskState)
    : Inv (s.setState t state) := by
  have hstate : ∀ u, s.Inside u → (s.setState t state).state u = s.state u := by
    intro u hu
    have hne : u ≠ t := fun heq => hu (heq ▸ hout)
    exact Function.update_of_ne hne _ _
  have hasleep : ∀ u, Asleep (s.setState t state) u ↔ Asleep s u := by
    intro u
    constructor
    . intro hu
      exact ⟨hu.left, (hstate u hu.left).symm.trans hu.right⟩
    . intro hu
      exact ⟨hu.left, (hstate u hu.left).trans hu.right⟩
  constructor
  . intro u hu
    exact (hasleep u).mpr (hinv.queue_asleep u hu)
  . intro x y hxy
    exact (hasleep y).mpr (hinv.saves_asleep x y hxy)
  . exact hinv.saves_ne_queue
  . exact hinv.saves_inj
  . intro u hu
    apply (hinv.reached u ((hasleep u).mp hu)).mono
    . exact fun _ _ hxy => hxy
    . intro r hr
      apply Rooted.of_root
      cases hr with
      | inl hqueue => exact .inl hqueue
      | inr hrunnable => exact .inr ⟨hrunnable.left, (hstate r hrunnable.left).trans hrunnable.right⟩

theorem step_inv (s s' : TaskQueue τ) (a : SleepAct τ) (hinv : Inv s) (h : step idle s a = some s') : Inv s' := by
  cases a with
  | sleepOn t => exact hinv.sleepOn (enter_eq_some h)
  | wakeUp =>
    cases h
    exact hinv.wakeUp
  | resume t =>
    obtain ⟨tmp, hframe, hrun, rfl⟩ := resume_eq_some h
    exact hinv.resume hframe hrun
  | change t state =>
    unfold step at h
    dsimp only at h
    split at h
    . next hout =>
      cases h
      exact hinv.change hout state
    . simp at h

def Coming (s : TaskQueue τ) (t : τ) : Prop :=
  Rooted.Reaches s.Saves s.Runnable t

theorem coming_of_asleep {s : TaskQueue τ} (hinv : Inv s) {t : τ} (h : Asleep s t) : Coming s.wakeUp t := by
  by_cases hhead : s.queue = some t
  . apply Rooted.of_root
    refine ⟨(s.inside_wakeUp_iff t).mpr h.left, ?_⟩
    unfold TaskQueue.wakeUp
    rw [hhead]
    exact s.wake_state_self t
  . have hasleep : Asleep s.wakeUp t :=
      ⟨(s.inside_wakeUp_iff t).mpr h.left, (s.wake_state_of_ne hhead).trans h.right⟩
    apply (hinv.wakeUp.reached t hasleep).trans
    intro r hr
    cases hr with
    | inl hqueue => simp [TaskQueue.wakeUp] at hqueue
    | inr hrunnable => exact Rooted.of_root hrunnable

theorem coming_step {s s' : TaskQueue τ} {a : SleepAct τ} {t : τ} (hinv : Inv s) (h : step idle s a = some s')
    (hcoming : Coming s t) (hne : a ≠ .resume t)
    : Coming s' t := by
  cases a with
  | sleepOn u =>
    have hentered := enter_eq_some h
    apply hcoming.mono
    . intro x y hxy
      exact (hentered.saves_iff x y).mpr (.inr hxy)
    . intro r hr
      exact Rooted.of_root (hentered.runnable hr)
  | wakeUp =>
    cases h
    unfold Coming
    rw [saves_wakeUp]
    apply hcoming.trans
    intro r hr
    exact Rooted.of_root (runnable_wakeUp hr)
  | resume u =>
    obtain ⟨tmp, hframe, hrun, rfl⟩ := resume_eq_some h
    have htu : t ≠ u := fun heq => hne (heq ▸ rfl)
    apply hcoming.cut htu True.intro fun _ _ _ => True.intro
    . intro x y hx hxy
      exact (s.saves_leave_iff u x y tmp).mpr ⟨hx, hxy⟩
    . intro r hr hrunnable
      exact Rooted.of_root (runnable_leave tmp hr hrunnable)
    . intro v hv _
      have hv' := hinv.saves_asleep u v hv
      have hvu : v ≠ u := fun heq => asleep_not_running hv' (heq ▸ hrun)
      unfold Saves at hv
      rw [hframe, Option.some.injEq] at hv
      subst hv
      exact Rooted.of_root (runnable_leave_saved hvu hv'.left)
  | change u state =>
    unfold step at h
    dsimp only at h
    split at h
    . next hout =>
      cases h
      apply hcoming.mono
      . exact fun _ _ hxy => hxy
      . intro r hr
        have hru : r ≠ u := fun heq => hr.left (heq ▸ hout)
        exact Rooted.of_root ⟨hr.left, (Function.update_of_ne hru _ _).trans hr.right⟩
    . simp at h

theorem running_step {s s' : TaskQueue τ} {a : SleepAct τ} {t : τ} (h : step idle s a = some s')
    (hrun : s.state t = .TASK_RUNNING) (ha : ¬ Alters t a)
    : s'.state t = .TASK_RUNNING := by
  cases a with
  | sleepOn u =>
    have hne : t ≠ u := fun heq => ha heq.symm
    rw [(enter_eq_some h).state_of_ne hne, hrun]
  | wakeUp =>
    cases h
    exact wake_state_of_running s.queue hrun
  | resume u =>
    obtain ⟨tmp, _, _, rfl⟩ := resume_eq_some h
    exact wake_state_of_running tmp hrun
  | change u state =>
    unfold step at h
    dsimp only at h
    split at h
    . cases h
      have hne : t ≠ u := fun heq => ha heq.symm
      exact (Function.update_of_ne hne _ _).trans hrun
    . simp at h

theorem running_exec {s s' : TaskQueue τ} {as : List (SleepAct τ)} {t : τ} (h : Run.exec (step idle) s as = some s')
    (hrun : s.state t = .TASK_RUNNING) (has : ∀ a ∈ as, ¬ Alters t a)
    : s'.state t = .TASK_RUNNING := by
  induction as generalizing s with
  | nil =>
    cases h
    exact hrun
  | cons a as ih =>
    unfold Run.exec at h
    split at h
    . next s₁ hstep =>
      apply ih h
      . exact running_step hstep hrun (has a List.mem_cons_self)
      . intro a' ha'
        exact has a' (List.mem_cons_of_mem a ha')
    . simp at h

theorem woken_exec {s s' : TaskQueue τ} {as : List (SleepAct τ)} {t : τ} (hinv : Inv s)
    (h : Run.exec (step idle) s as = some s') (hcoming : Coming s t) (hquiet : ∀ r, ¬ s'.Runnable r)
    : .resume t ∈ as ∧ ((∀ a ∈ as, ¬ Alters t a) → s'.state t = .TASK_RUNNING) := by
  induction as generalizing s with
  | nil =>
    cases h
    obtain ⟨r, hr, _⟩ := hcoming
    exact absurd hr (hquiet r)
  | cons a as ih =>
    unfold Run.exec at h
    split at h
    . next s₁ hstep =>
      by_cases ha : a = .resume t
      . subst ha
        refine ⟨List.mem_cons_self, ?_⟩
        intro has
        obtain ⟨tmp, _, hrun, _⟩ := resume_eq_some hstep
        apply running_exec h
        . exact running_step hstep hrun (has _ List.mem_cons_self)
        . intro a' ha'
          exact has a' (List.mem_cons_of_mem _ ha')
      . obtain ⟨hmem, hstate⟩ := ih (step_inv s s₁ a hinv hstep) h (coming_step hinv hstep hcoming ha)
        refine ⟨List.mem_cons_of_mem a hmem, ?_⟩
        intro has
        apply hstate
        intro a' ha'
        exact has a' (List.mem_cons_of_mem a ha')
    . simp at h

end SleepOn

/--
Where the running task is in the calls of `sched.c`: behind `tmp = *p`, behind `*p = current`, behind the test of
`wake_up` and behind its first store.
-/
inductive Doing (τ : Type) where
  | saved (t : τ)
  | queued (t : τ)
  | tested
  | woken
  deriving DecidableEq

structure SleepQueue (τ : Type) where
  tasks : TaskQueue τ
  doing : Option (Doing τ)
  -- A store through a NULL `*p`.
  fault : Bool

inductive SleepCall (τ : Type) where
  | sleepOn (t : τ)
  | wakeUp
  -- The running task goes on to its next access.
  | goOn
  -- An interrupt calls `wake_up`.
  | interrupt
  | resume (t : τ)
  | change (t : τ) (state : TaskState)

namespace SleepQueue

open TaskQueue

variable {τ : Type}

def init (state : τ → TaskState) : SleepQueue τ :=
  { tasks := TaskQueue.init state, doing := none, fault := false }

def Alters (t : τ) : SleepCall τ → Prop
  | .sleepOn u => u = t
  | .change u _ => u = t
  | _ => False

def Atomic : SleepCall τ → SleepAct τ → Prop
  | .sleepOn t, .sleepOn u => t = u
  | .wakeUp, .wakeUp => True
  | .interrupt, .wakeUp => True
  | .resume t, .resume u => t = u
  | .change t state, .change u state' => t = u ∧ state = state'
  | _, _ => False

theorem alters_of_atomic {a : SleepCall τ} {b : SleepAct τ} {t : τ} (h : Atomic a b) (hb : SleepOn.Alters t b)
    : Alters t a := by
  cases a <;> cases b <;> simp_all [Atomic, SleepOn.Alters, Alters]

theorem resume_of_atomic {a : SleepCall τ} {t : τ} (h : Atomic a (.resume t)) : a = .resume t := by
  cases a <;> simp_all [Atomic]

/--
A `wake_up` of an interrupt that comes between `tmp = *p` and the change of the state, or between the test and the
first store of another `wake_up`, finds the queue empty.
-/
def Undisturbed (s : SleepQueue τ) : SleepCall τ → Prop
  | .interrupt => s.doing = none ∨ s.doing = some .woken ∨ s.tasks.queue = none
  | _ => True

instance decidableUndisturbed [DecidableEq τ] (s : SleepQueue τ) : (a : SleepCall τ) → Decidable (s.Undisturbed a)
  | .interrupt => inferInstanceAs (Decidable (s.doing = none ∨ s.doing = some .woken ∨ s.tasks.queue = none))
  | .sleepOn _ => isTrue trivial
  | .wakeUp => isTrue trivial
  | .goOn => isTrue trivial
  | .resume _ => isTrue trivial
  | .change _ _ => isTrue trivial

variable [DecidableEq τ] {idle : τ}

def goOn (s : SleepQueue τ) : Doing τ → SleepQueue τ
  | .saved t => { s with tasks := { s.tasks with queue := some t }, doing := some (.queued t) }
  | .queued t => { s with tasks := s.tasks.setState t .TASK_UNINTERRUPTIBLE, doing := none }
  | .tested =>
    match s.tasks.queue with
    | none => { s with doing := some .woken, fault := true }
    | some t => { s with tasks := s.tasks.setState t .TASK_RUNNING, doing := some .woken }
  | .woken => { s with tasks := { s.tasks with queue := none }, doing := none }

def step (idle : τ) (s : SleepQueue τ) : SleepCall τ → Option (SleepQueue τ)
  | .sleepOn t =>
    if s.doing = none ∧ t ≠ idle ∧ s.tasks.frame t = none ∧ s.tasks.state t = .TASK_RUNNING then
      let frame := Function.update s.tasks.frame t (some s.tasks.queue)
      some { s with tasks := { s.tasks with frame }, doing := some (.saved t) }
    else
      none
  | .wakeUp =>
    if s.doing = none then
      some { s with doing := if s.tasks.queue = none then none else some .tested }
    else
      none
  | .goOn => s.doing.map s.goOn
  | .interrupt => some { s with tasks := s.tasks.wakeUp }
  | .resume t =>
    if s.doing = none then
      (SleepOn.resume s.tasks t).map fun tasks => { s with tasks }
    else
      none
  | .change t state =>
    if s.tasks.frame t = none then some { s with tasks := s.tasks.setState t state } else none

def finished (s : SleepQueue τ) : TaskQueue τ :=
  match s.doing with
  | none => s.tasks
  | some (.saved t) => { s.tasks.setState t .TASK_UNINTERRUPTIBLE with queue := some t }
  | some (.queued t) => { s.tasks.setState t .TASK_UNINTERRUPTIBLE with queue := some t }
  | some .tested => s.tasks.wakeUp
  | some .woken => s.tasks.wakeUp

structure Inv (s : SleepQueue τ) : Prop where
  sleepers : SleepOn.Inv s.finished
  saved : ∀ t, s.doing = some (.saved t) → s.tasks.frame t = some s.tasks.queue ∧ s.tasks.state t = .TASK_RUNNING
  queued : ∀ t, s.doing = some (.queued t) →
    s.tasks.frame t ≠ none ∧ s.tasks.queue = some t ∧ s.tasks.state t = .TASK_RUNNING
  tested : s.doing = some .tested → s.tasks.queue ≠ none
  woken : s.doing = some .woken → ∀ t, s.tasks.queue = some t → s.tasks.state t = .TASK_RUNNING
  head : ∀ t, s.tasks.queue = some t → s.tasks.Inside t
  sound : s.fault = false

theorem init_inv (state : τ → TaskState) : Inv (init state) := by
  constructor
  . exact SleepOn.init_inv state
  . nofun
  . nofun
  . nofun
  . nofun
  . nofun
  . rfl

theorem wakeUp_of_queue_eq_none {s : TaskQueue τ} (h : s.queue = none) : s.wakeUp = s := by
  obtain ⟨queue, state, frame⟩ := s
  cases h
  rfl

theorem wakeUp_wakeUp (s : TaskQueue τ) : s.wakeUp.wakeUp = s.wakeUp :=
  wakeUp_of_queue_eq_none rfl

theorem wakeUp_setState {s : TaskQueue τ} {t : τ} (h : s.queue = some t)
    : (s.setState t .TASK_RUNNING).wakeUp = s.wakeUp := by
  unfold TaskQueue.wakeUp
  rw [show (s.setState t .TASK_RUNNING).queue = some t from h, h]
  simp [wake, setState]

theorem wakeUp_setState_comm {s : TaskQueue τ} {u : τ} (hne : s.queue ≠ some u) (state : TaskState)
    : (s.setState u state).wakeUp = s.wakeUp.setState u state := by
  obtain ⟨queue, states, frame⟩ := s
  cases queue with
  | none => rfl
  | some t =>
    have htu : t ≠ u := fun heq => hne (congrArg some heq)
    simp only [TaskQueue.wakeUp, wake, setState, Function.update_comm htu]

theorem finished_of_none {s : SleepQueue τ} (h : s.doing = none) : s.finished = s.tasks := by
  unfold finished
  rw [h]

theorem finished_frame (s : SleepQueue τ) : s.finished.frame = s.tasks.frame := by
  unfold finished
  split
  . rfl
  . rfl
  . rfl
  . exact s.tasks.wake_frame _
  . exact s.tasks.wake_frame _

theorem finished_saves (s : SleepQueue τ) : s.finished.Saves = s.tasks.Saves := by
  unfold Saves
  rw [finished_frame]

theorem finished_inside_iff (s : SleepQueue τ) (t : τ) : s.finished.Inside t ↔ s.tasks.Inside t := by
  unfold Inside
  rw [finished_frame]

def Simulated (idle : τ) (s s' : SleepQueue τ) (a : SleepCall τ) : Prop :=
  Inv s' ∧ (s'.finished = s.finished ∨ ∃ b, Atomic a b ∧ SleepOn.step idle s.finished b = some s'.finished)

theorem Inv.sleepOn {s s' : SleepQueue τ} {t : τ} (hinv : Inv s) (h : step idle s (.sleepOn t) = some s')
    : Simulated idle s s' (.sleepOn t) := by
  unfold step at h
  dsimp only at h
  split at h
  . next hguard =>
    obtain ⟨hdoing, hidle, hframe, hstate⟩ := hguard
    cases h
    have hatomic : SleepOn.step idle s.finished (.sleepOn t)
        = some { s.tasks.setState t .TASK_UNINTERRUPTIBLE with
            queue := some t
            frame := Function.update s.tasks.frame t (some s.tasks.queue) } := by
      rw [finished_of_none hdoing]
      unfold SleepOn.step enter
      dsimp only
      rw [if_neg hidle, if_pos ⟨hframe, hstate⟩]
      rfl
    refine ⟨?_, .inr ⟨.sleepOn t, rfl, hatomic⟩⟩
    constructor
    . exact SleepOn.step_inv _ _ _ hinv.sleepers hatomic
    . intro u hu
      cases hu
      exact ⟨Function.update_self _ _ _, hstate⟩
    . nofun
    . nofun
    . nofun
    . intro u hu
      have hinside := hinv.head u hu
      have hne : u ≠ t := fun heq => hinside (heq ▸ hframe)
      unfold Inside
      dsimp only
      rw [Function.update_of_ne hne]
      exact hinside
    . exact hinv.sound
  . cases h

theorem Inv.wakeUp {s s' : SleepQueue τ} (hinv : Inv s) (h : step idle s .wakeUp = some s')
    : Simulated idle s s' .wakeUp ∧ s'.finished = s.tasks.wakeUp := by
  unfold step at h
  dsimp only at h
  split at h
  . next hdoing =>
    cases h
    have hfinished : finished { s with doing := if s.tasks.queue = none then none else some .tested }
        = s.tasks.wakeUp := by
      by_cases hqueue : s.tasks.queue = none
      . rw [if_pos hqueue, wakeUp_of_queue_eq_none hqueue]
        rfl
      . rw [if_neg hqueue]
        rfl
    have hatomic : SleepOn.step idle s.finished .wakeUp = some s.tasks.wakeUp := by
      rw [finished_of_none hdoing]
      rfl
    have hold := hinv.sleepers
    rw [finished_of_none hdoing] at hold
    refine ⟨⟨?_, .inr ⟨.wakeUp, trivial, hatomic.trans (congrArg some hfinished.symm)⟩⟩, hfinished⟩
    constructor
    . exact hfinished ▸ hold.wakeUp
    . simp
    . simp
    . simp
    . simp
    . exact hinv.head
    . exact hinv.sound
  . cases h

theorem Inv.goOn {s s' : SleepQueue τ} (hinv : Inv s) (h : step idle s .goOn = some s')
    : Simulated idle s s' .goOn := by
  unfold step at h
  dsimp only at h
  rw [Option.map_eq_some_iff] at h
  obtain ⟨doing, hdoing, rfl⟩ := h
  have hfinished : (s.goOn doing).finished = s.finished := by
    unfold finished SleepQueue.goOn
    rw [hdoing]
    cases doing with
    | saved t => rfl
    | queued t =>
      obtain ⟨_, hqueue, _⟩ := hinv.queued t hdoing
      dsimp only
      rw [← hqueue]
      rfl
    | tested =>
      cases hqueue : s.tasks.queue with
      | none => exact absurd hqueue (hinv.tested hdoing)
      | some t => exact wakeUp_setState hqueue
    | woken =>
      cases hqueue : s.tasks.queue with
      | none => rw [wakeUp_of_queue_eq_none hqueue, ← hqueue]
      | some t =>
        have hrun := hinv.woken hdoing t hqueue
        unfold TaskQueue.wakeUp
        rw [hqueue]
        simp only [wake, setState, ← hrun, Function.update_eq_self]
  refine ⟨?_, .inl hfinished⟩
  have hnew : SleepOn.Inv (s.goOn doing).finished := hfinished ▸ hinv.sleepers
  cases doing with
  | saved t =>
    obtain ⟨hframe, hstate⟩ := hinv.saved t hdoing
    have hinside : s.tasks.frame t ≠ none := by simp [hframe]
    constructor
    . exact hnew
    . intro u hu
      cases hu
    . intro u hu
      cases hu
      exact ⟨hinside, rfl, hstate⟩
    . intro hd
      cases hd
    . intro hd
      cases hd
    . intro u hu
      cases hu
      exact hinside
    . exact hinv.sound
  | queued t =>
    constructor
    . exact hnew
    . intro u hu
      cases hu
    . intro u hu
      cases hu
    . intro hd
      cases hd
    . intro hd
      cases hd
    . exact hinv.head
    . exact hinv.sound
  | tested =>
    cases hqueue : s.tasks.queue with
    | none => exact absurd hqueue (hinv.tested hdoing)
    | some t =>
      unfold SleepQueue.goOn at hnew ⊢
      simp only [hqueue] at hnew ⊢
      constructor
      . exact hnew
      . intro u hu
        cases hu
      . intro u hu
        cases hu
      . intro hd
        cases hd
      . intro _ u hu
        rw [show (s.tasks.setState t .TASK_RUNNING).queue = some t from hqueue, Option.some.injEq] at hu
        subst hu
        exact Function.update_self _ _ _
      . exact hinv.head
      . exact hinv.sound
  | woken =>
    constructor
    . exact hnew
    . intro u hu
      cases hu
    . intro u hu
      cases hu
    . intro hd
      cases hd
    . intro hd
      cases hd
    . intro u hu
      cases hu
    . exact hinv.sound

theorem Inv.interrupt {s s' : SleepQueue τ} (hinv : Inv s) (hok : s.Undisturbed .interrupt)
    (h : step idle s .interrupt = some s')
    : Simulated idle s s' .interrupt := by
  cases h
  by_cases hqueue : s.tasks.queue = none
  . rw [wakeUp_of_queue_eq_none hqueue]
    exact ⟨hinv, .inl rfl⟩
  . have hdoing : s.doing = none ∨ s.doing = some .woken := by
      obtain hdoing | hdoing | hnone := hok
      . exact .inl hdoing
      . exact .inr hdoing
      . exact absurd hnone hqueue
    have hatomic : finished { s with tasks := s.tasks.wakeUp } = s.tasks.wakeUp := by
      unfold finished
      cases hdoing with
      | inl hdoing => rw [hdoing]
      | inr hdoing =>
        rw [hdoing]
        exact wakeUp_wakeUp s.tasks
    have hmove : finished { s with tasks := s.tasks.wakeUp } = s.finished
        ∨ ∃ b, Atomic (.interrupt : SleepCall τ) b
            ∧ SleepOn.step idle s.finished b = some (finished { s with tasks := s.tasks.wakeUp }) := by
      rw [hatomic]
      cases hdoing with
      | inl hdoing =>
        rw [finished_of_none hdoing]
        exact .inr ⟨.wakeUp, trivial, rfl⟩
      | inr hdoing =>
        left
        unfold finished
        rw [hdoing]
    refine ⟨?_, hmove⟩
    have hnew : SleepOn.Inv (finished { s with tasks := s.tasks.wakeUp }) := by
      cases hmove with
      | inl hsame => exact hsame ▸ hinv.sleepers
      | inr hstep =>
        obtain ⟨b, _, hstep⟩ := hstep
        exact SleepOn.step_inv _ _ _ hinv.sleepers hstep
    have honly : ∀ d, s.doing = some d → d = .woken := by
      intro d hd
      simpa [hd] using hdoing
    constructor
    . exact hnew
    . exact fun t ht => nomatch honly _ ht
    . exact fun t ht => nomatch honly _ ht
    . exact fun ht => nomatch honly _ ht
    . nofun
    . nofun
    . exact hinv.sound

theorem Inv.resume {s s' : SleepQueue τ} {t : τ} (hinv : Inv s) (h : step idle s (.resume t) = some s')
    : Simulated idle s s' (.resume t) := by
  unfold step at h
  dsimp only at h
  split at h
  . next hdoing =>
    rw [Option.map_eq_some_iff] at h
    obtain ⟨tasks, hresume, rfl⟩ := h
    have hfinished : finished { s with tasks } = tasks := finished_of_none hdoing
    have hatomic : SleepOn.step idle s.finished (.resume t) = some (finished { s with tasks }) := by
      rw [hfinished, finished_of_none hdoing]
      exact hresume
    have hnew := SleepOn.step_inv _ _ _ hinv.sleepers hatomic
    refine ⟨?_, .inr ⟨.resume t, rfl, hatomic⟩⟩
    constructor
    . exact hnew
    . simp [hdoing]
    . simp [hdoing]
    . simp [hdoing]
    . simp [hdoing]
    . intro u hu
      rw [hfinished] at hnew
      exact (hnew.queue_asleep u hu).left
    . exact hinv.sound
  . cases h

theorem Inv.change {s s' : SleepQueue τ} {t : τ} {state : TaskState} (hinv : Inv s)
    (h : step idle s (.change t state) = some s')
    : Simulated idle s s' (.change t state) := by
  unfold step at h
  dsimp only at h
  split at h
  . next hframe =>
    cases h
    have hout : ∀ u, s.tasks.Inside u → u ≠ t := fun u hu heq => hu (heq ▸ hframe)
    have hhead : s.tasks.queue ≠ some t := fun hqueue => hinv.head t hqueue hframe
    have hkeep : ∀ u, s.tasks.Inside u → (s.tasks.setState t state).state u = s.tasks.state u :=
      fun u hu => Function.update_of_ne (hout u hu) _ _
    have hfinished : finished { s with tasks := s.tasks.setState t state } = s.finished.setState t state := by
      unfold finished
      cases hdoing : s.doing with
      | none => rfl
      | some doing =>
        cases doing with
        | saved u =>
          have hinside : s.tasks.Inside u := by simp [Inside, (hinv.saved u hdoing).left]
          simp only [setState, Function.update_comm (hout u hinside)]
        | queued u =>
          simp only [setState, Function.update_comm (hout u (hinv.queued u hdoing).left)]
        | tested => exact wakeUp_setState_comm hhead state
        | woken => exact wakeUp_setState_comm hhead state
    have hatomic : SleepOn.step idle s.finished (.change t state)
        = some (finished { s with tasks := s.tasks.setState t state }) := by
      rw [hfinished]
      unfold SleepOn.step
      dsimp only
      rw [finished_frame, if_pos hframe]
    refine ⟨?_, .inr ⟨.change t state, ⟨rfl, rfl⟩, hatomic⟩⟩
    constructor
    . exact SleepOn.step_inv _ _ _ hinv.sleepers hatomic
    . intro u hu
      obtain ⟨hsaved, hrun⟩ := hinv.saved u hu
      exact ⟨hsaved, (hkeep u (by simp [Inside, hsaved])).trans hrun⟩
    . intro u hu
      obtain ⟨hinside, hqueue, hrun⟩ := hinv.queued u hu
      exact ⟨hinside, hqueue, (hkeep u hinside).trans hrun⟩
    . exact hinv.tested
    . intro hdoing u hu
      exact (hkeep u (hinv.head u hu)).trans (hinv.woken hdoing u hu)
    . exact hinv.head
    . exact hinv.sound
  . cases h

theorem step_stutters
    : Refine.Stutters (step idle) (SleepOn.step idle) Undisturbed Inv finished Atomic := by
  intro s a s' hinv hok h
  cases a with
  | sleepOn t => exact hinv.sleepOn h
  | wakeUp => exact (hinv.wakeUp h).left
  | goOn => exact hinv.goOn h
  | interrupt => exact hinv.interrupt hok h
  | resume t => exact hinv.resume h
  | change t state => exact hinv.change h

theorem asleep_finished {s : SleepQueue τ} {t : τ} (hinv : Inv s)
    (hdoing : ∀ d, s.doing = some d → ∃ u, d = .saved u ∨ d = .queued u) (h : SleepOn.Asleep s.tasks t)
    : SleepOn.Asleep s.finished t := by
  refine ⟨(s.finished_inside_iff t).mpr h.left, ?_⟩
  have hne : ∀ u, s.tasks.state u = .TASK_RUNNING → t ≠ u := by
    intro u hrun heq
    exact SleepOn.asleep_not_running h (heq ▸ hrun)
  cases hd : s.doing with
  | none =>
    rw [finished_of_none hd]
    exact h.right
  | some d =>
    obtain ⟨u, rfl | rfl⟩ := hdoing d hd
    . unfold finished
      rw [hd]
      exact (Function.update_of_ne (hne u (hinv.saved u hd).right) _ _).trans h.right
    . unfold finished
      rw [hd]
      exact (Function.update_of_ne (hne u (hinv.queued u hd).right.right) _ _).trans h.right

theorem Inv.reached {s : SleepQueue τ} (hinv : Inv s) {t : τ} (h : SleepOn.Asleep s.tasks t)
    : s.tasks.Reached t := by
  have hentering : ∀ u, s.finished = { s.tasks.setState u .TASK_UNINTERRUPTIBLE with queue := some u } →
      s.tasks.Inside u → s.tasks.state u = .TASK_RUNNING → SleepOn.Asleep s.finished t → s.tasks.Reached t := by
    intro u hfinished hinside hrun hasleep
    have hreached := hinv.sleepers.reached t hasleep
    unfold Reached at hreached
    rw [finished_saves] at hreached
    apply hreached.trans
    intro r hr
    rw [hfinished] at hr
    cases hr with
    | inl hqueue =>
      cases hqueue
      exact Rooted.of_root (.inr ⟨hinside, hrun⟩)
    | inr hrunnable =>
      have hne : r ≠ u := by
        intro heq
        have hstate := hrunnable.right
        rw [heq] at hstate
        simp [setState] at hstate
      exact Rooted.of_root (.inr ⟨hrunnable.left, (Function.update_of_ne hne _ _).symm.trans hrunnable.right⟩)
  have hwaking : s.finished = s.tasks.wakeUp → s.tasks.Reached t := by
    intro hfinished
    by_cases hhead : s.tasks.queue = some t
    . exact Rooted.of_root (.inl hhead)
    . have hasleep : SleepOn.Asleep s.finished t := by
        rw [hfinished]
        exact ⟨(inside_wakeUp_iff s.tasks t).mpr h.left, (wake_state_of_ne s.tasks hhead).trans h.right⟩
      have hreached := hinv.sleepers.reached t hasleep
      unfold Reached at hreached
      rw [finished_saves] at hreached
      apply hreached.trans
      intro r hr
      rw [hfinished] at hr
      apply Rooted.of_root
      cases hr with
      | inl hqueue => cases hqueue
      | inr hrunnable =>
        by_cases hqueue : s.tasks.queue = some r
        . exact .inl hqueue
        . refine .inr ⟨(inside_wakeUp_iff s.tasks r).mp hrunnable.left, ?_⟩
          exact (wake_state_of_ne s.tasks hqueue).symm.trans hrunnable.right
  cases hd : s.doing with
  | none =>
    have hasleep := asleep_finished hinv (by simp [hd]) h
    rw [← finished_of_none hd]
    exact hinv.sleepers.reached t hasleep
  | some d =>
    cases d with
    | saved u =>
      obtain ⟨hframe, hrun⟩ := hinv.saved u hd
      have hasleep := asleep_finished hinv (fun d h' => ⟨u, .inl (Option.some.inj (h'.symm.trans hd))⟩) h
      exact hentering u (by unfold finished; rw [hd]) (by simp [Inside, hframe]) hrun hasleep
    | queued u =>
      obtain ⟨hinside, _, hrun⟩ := hinv.queued u hd
      have hasleep := asleep_finished hinv (fun d h' => ⟨u, .inr (Option.some.inj (h'.symm.trans hd))⟩) h
      exact hentering u (by unfold finished; rw [hd]) hinside hrun hasleep
    | tested => exact hwaking (by unfold finished; rw [hd])
    | woken => exact hwaking (by unfold finished; rw [hd])

theorem coming_of_wakeUp {s : TaskQueue τ} (hinv : SleepOn.Inv s.wakeUp) {t : τ} (h : SleepOn.Asleep s t)
    (hne : s.queue ≠ some t)
    : SleepOn.Coming s.wakeUp t := by
  have hasleep : SleepOn.Asleep s.wakeUp t :=
    ⟨(inside_wakeUp_iff s t).mpr h.left, (wake_state_of_ne s hne).trans h.right⟩
  apply (hinv.reached t hasleep).trans
  intro r hr
  cases hr with
  | inl hqueue => cases hqueue
  | inr hrunnable => exact Rooted.of_root hrunnable

theorem coming_of_saved {s : SleepQueue τ} (hinv : Inv s) {t u : τ} (hdoing : s.doing = some (.saved u))
    (hqueue : s.tasks.queue = none) (h : SleepOn.Asleep s.tasks t)
    : SleepOn.Coming s.finished t := by
  obtain ⟨hframe, hrun⟩ := hinv.saved u hdoing
  have hasleep := asleep_finished hinv (fun d hd => ⟨u, .inl (Option.some.inj (hd.symm.trans hdoing))⟩) h
  have htu : t ≠ u := fun heq => SleepOn.asleep_not_running h (heq ▸ hrun)
  apply (hinv.sleepers.reached t hasleep).cut htu True.intro fun _ _ _ => True.intro
  . exact fun _ _ _ hxy => hxy
  . intro r hr hroot
    cases hroot with
    | inl hhead =>
      unfold finished at hhead
      rw [hdoing, Option.some.injEq] at hhead
      exact absurd hhead.symm hr
    | inr hrunnable => exact Rooted.of_root hrunnable
  . intro v hv _
    rw [finished_saves] at hv
    unfold Saves at hv
    rw [hframe, hqueue] at hv
    cases hv

theorem coming_of_interrupt {s s' : SleepQueue τ} (hinv : Inv s) (hok : s.Undisturbed .interrupt)
    (h : step idle s .interrupt = some s') {t : τ} (ht : SleepOn.Asleep s.tasks t)
    : SleepOn.Coming s'.finished t := by
  cases h
  have hold := hinv.sleepers
  cases hd : s.doing with
  | none =>
    rw [finished_of_none hd] at hold
    have hfinished : finished { s with tasks := s.tasks.wakeUp } = s.tasks.wakeUp := finished_of_none hd
    rw [← hd, hfinished]
    exact SleepOn.coming_of_asleep hold ht
  | some d =>
    have hnone : d ≠ .woken → s.tasks.queue = none := by
      intro hne
      obtain hdoing | hdoing | hqueue := hok
      . cases hd.symm.trans hdoing
      . exact absurd (Option.some.inj (hd.symm.trans hdoing)) hne
      . exact hqueue
    cases d with
    | saved u =>
      have hqueue := hnone nofun
      rw [wakeUp_of_queue_eq_none hqueue, ← hd]
      exact coming_of_saved hinv hd hqueue ht
    | queued u => cases (hnone nofun).symm.trans (hinv.queued u hd).right.left
    | tested => exact absurd (hnone nofun) (hinv.tested hd)
    | woken =>
      have hhead : s.tasks.queue ≠ some t := by
        intro hqueue
        exact SleepOn.asleep_not_running ht (hinv.woken hd t hqueue)
      unfold finished at hold ⊢
      rw [hd] at hold
      dsimp only at hold ⊢
      rw [wakeUp_wakeUp]
      exact coming_of_wakeUp hold ht hhead

theorem woken_of_coming {s s' : SleepQueue τ} {as : List (SleepCall τ)} (hinv : Inv s)
    (hok : Run.AllOk (step idle) Undisturbed s as) (h : Run.exec (step idle) s as = some s')
    (hdone : s'.doing = none) (hquiet : ∀ r, ¬ s'.tasks.Runnable r) {t : τ} (hcoming : SleepOn.Coming s.finished t)
    : .resume t ∈ as ∧ ((∀ a ∈ as, ¬ Alters t a) → s'.tasks.state t = .TASK_RUNNING) := by
  obtain ⟨_, bs, hexec, hbs⟩ := step_stutters.exec hinv hok h
  rw [finished_of_none hdone] at hexec
  obtain ⟨hresume, hrun⟩ := SleepOn.woken_exec hinv.sleepers hexec hcoming hquiet
  constructor
  . obtain ⟨a, ha, hatomic⟩ := hbs _ hresume
    exact resume_of_atomic hatomic ▸ ha
  . intro hothers
    apply hrun
    intro b hb halters
    obtain ⟨a, ha, hatomic⟩ := hbs b hb
    exact hothers a ha (alters_of_atomic hatomic halters)

/--
In every state reached by steps that meet the condition: each sleeper is reached, what a call has saved is still
inside of its own call, and after a `wake_up`, when no call is half done and no runnable task is left inside, each
task that slept before it has resumed and, unless it has gone on to another state by itself, is running.
-/
theorem sleepers_reached_and_woken {state : τ → TaskState} {s : SleepQueue τ}
    (h : Run.Reaches (step idle) Undisturbed (init state) s)
    : (∀ t, SleepOn.Asleep s.tasks t → s.tasks.Reached t) ∧ (∀ t u, s.tasks.Saves t u → s.tasks.Inside u)
      ∧ s.fault = false
      ∧ ∀ a as s', a = .wakeUp ∨ a = .interrupt → Run.AllOk (step idle) Undisturbed s (a :: as) →
        Run.exec (step idle) s (a :: as) = some s' → s'.doing = none → (∀ r, ¬ s'.tasks.Runnable r) →
        ∀ t, SleepOn.Asleep s.tasks t →
          .resume t ∈ as ∧ ((∀ a ∈ as, ¬ Alters t a) → s'.tasks.state t = .TASK_RUNNING) := by
  have hinv : Inv s := h.invariant Inv (init_inv state) fun s s' a hinv hok hstep => (step_stutters s a s' hinv hok hstep).left
  refine ⟨fun t ht => hinv.reached ht, ?_, hinv.sound, ?_⟩
  . intro t u htu
    rw [← finished_saves] at htu
    exact (s.finished_inside_iff u).mp (hinv.sleepers.saves_asleep t u htu).left
  . intro a as s' ha hok hexec hdone hquiet t ht
    unfold Run.exec at hexec
    split at hexec
    . next s₁ hstep =>
      have hinv₁ : Inv s₁ := (step_stutters s a s₁ hinv hok.left hstep).left
      have hcoming : SleepOn.Coming s₁.finished t := by
        cases ha with
        | inl hwake =>
          subst hwake
          rw [(hinv.wakeUp hstep).right]
          have hdoing : s.doing = none := by
            unfold step at hstep
            by_contra hne
            simp [hne] at hstep
          have hold := hinv.sleepers
          rw [finished_of_none hdoing] at hold
          exact SleepOn.coming_of_asleep hold ht
        | inr hinterrupt =>
          subst hinterrupt
          exact coming_of_interrupt hinv hok.left hstep ht
      exact woken_of_coming hinv₁ (hok.right s₁ hstep) hexec hdone hquiet hcoming
    . cases hexec

theorem sleepers_woken_oneTwo
    : ∃ s s' : SleepQueue (Fin 4),
      Run.exec (step 0) (init fun _ => .TASK_RUNNING) [.sleepOn 1, .goOn, .goOn, .sleepOn 2, .goOn, .goOn] = some s
        ∧ Run.exec (step 0) s [.interrupt, .sleepOn 3, .interrupt, .goOn, .goOn, .resume 2, .resume 1] = some s'
        ∧ s.tasks.Reached 1 ∧ s'.tasks.state 1 = .TASK_RUNNING := by
  have hexec : Run.exec (step 0) (init fun _ : Fin 4 => .TASK_RUNNING)
      [.sleepOn 1, .goOn, .goOn, .sleepOn 2, .goOn, .goOn] = some _ := rfl
  have hok : Run.AllOk (step 0) Undisturbed (init fun _ : Fin 4 => .TASK_RUNNING)
      [.sleepOn 1, .goOn, .goOn, .sleepOn 2, .goOn, .goOn, .interrupt, .sleepOn 3, .interrupt, .goOn, .goOn, .resume 2,
        .resume 1] := by
    decide +kernel
  refine ⟨_, _, hexec, rfl, ?_⟩
  have hreach := Run.Reaches.of_exec (hok.initial (List.take_prefix 6 _)) hexec
  obtain ⟨hreached, _, _, hwoken⟩ := sleepers_reached_and_woken hreach
  refine ⟨hreached 1 (by decide), ?_⟩
  apply (hwoken .interrupt [.sleepOn 3, .interrupt, .goOn, .goOn, .resume 2, .resume 1] _ (.inr rfl)
    (hok.of_append hexec) rfl rfl ?_ 1 (by decide)).right
  . simp [Alters]
  . decide

-- The interrupt comes when the task is already in the queue and has not yet changed its state.
theorem not_reached_of_interrupt
    : ¬ ∀ (as : List (SleepCall (Fin 2))) (s : SleepQueue (Fin 2)),
        Run.exec (step 0) (init fun _ => .TASK_RUNNING) as = some s →
        ∀ t, SleepOn.Asleep s.tasks t → s.tasks.Reached t := by
  intro h
  obtain ⟨r, hroot, -⟩ := h [.sleepOn 1, .goOn, .interrupt, .goOn] _ rfl 1 (by decide)
  cases hroot with
  | inl hqueue => cases hqueue
  | inr hrunnable =>
    revert hrunnable
    revert r
    decide

end SleepQueue
end OS
