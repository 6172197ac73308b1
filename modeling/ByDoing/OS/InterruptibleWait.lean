import ByDoing.OS.WaitQueue

/-!
This module contains a wait queue of `sched.c` that is used through `interruptible_sleep_on` only. A task that
resumes while another one is at the head of the queue makes that one runnable and sleeps again: it is then woken
only if the queue still leads to it.
-/

namespace OS

inductive InterruptibleAct (τ : Type) where
  | sleepOn (t : τ)
  | wakeUp
  | signal (t : τ)
  | resume (t : τ)
  | change (t : τ) (state : TaskState)

namespace InterruptibleSleepOn

open TaskQueue

variable {τ : Type}

def Blocked (s : TaskQueue τ) (t : τ) : Prop :=
  s.Inside t ∧ s.state t = .TASK_INTERRUPTIBLE

instance decidableBlocked (s : TaskQueue τ) (t : τ) : Decidable (Blocked s t) :=
  inferInstanceAs (Decidable (s.Inside t ∧ s.state t = .TASK_INTERRUPTIBLE))

/--
No blocked task is lost: it is `*p` or the `tmp` of another task inside of the call, and a chain of these leads to
it from `*p` or from a task that will run on in the call.
-/
def NoneLost (s : TaskQueue τ) : Prop :=
  ∀ t, Blocked s t → (s.queue = some t ∨ ∃ u, u ≠ t ∧ s.Saves u t) ∧ s.Reached t

-- A task that goes to `repeat` is in the chain of `*p` or of another runnable task.
def Linked (s : TaskQueue τ) : InterruptibleAct τ → Prop
  | .resume t => s.queue ≠ none → s.queue ≠ some t →
      Rooted.Reaches s.Saves (fun r => s.queue = some r ∨ (s.Runnable r ∧ r ≠ t)) t
  | _ => True

theorem blocked_not_running {s : TaskQueue τ} {t : τ} (h : Blocked s t) : s.state t ≠ .TASK_RUNNING := by
  rw [h.right]
  decide

structure Inv (s : TaskQueue τ) : Prop where
  queue_inside : ∀ t, s.queue = some t → s.Inside t
  saves_ne : ∀ t u, s.Saves t u → t ≠ u
  reached : ∀ t, Blocked s t → s.Reached t

theorem init_inv (state : τ → TaskState) : Inv (init state) where
  queue_inside := by simp [init]
  saves_ne := by simp [init, Saves]
  reached := by simp [init, Blocked, Inside]

theorem Inv.noneLost {s : TaskQueue τ} (hinv : Inv s) : NoneLost s := by
  intro t ht
  have hreached := hinv.reached t ht
  refine ⟨?_, hreached⟩
  cases hreached.root_or_edge with
  | inl hroot =>
    cases hroot with
    | inl hqueue => exact .inl hqueue
    | inr hrun => exact absurd hrun.right (blocked_not_running ht)
  | inr hedge =>
    obtain ⟨u, hu⟩ := hedge
    exact .inr ⟨u, hinv.saves_ne u t hu, hu⟩

variable [DecidableEq τ] {idle : τ}

-- The branch to `repeat`.
def sleepAgain (s : TaskQueue τ) (t : τ) : TaskQueue τ :=
  (s.wake s.queue).setState t .TASK_INTERRUPTIBLE

def resume (s : TaskQueue τ) (t : τ) : Option (TaskQueue τ) :=
  match s.frame t with
  | none => none
  | some tmp =>
    if s.state t = .TASK_RUNNING then
      if s.queue ≠ none ∧ s.queue ≠ some t then
        some (sleepAgain s t)
      else
        some ({ s with queue := none }.leave t tmp)
    else
      none

def step (idle : τ) (s : TaskQueue τ) : InterruptibleAct τ → Option (TaskQueue τ)
  | .sleepOn t => enter idle s t .TASK_INTERRUPTIBLE
  | .wakeUp => some s.wakeUp
  -- `schedule` finds a signal that the task does not block.
  | .signal t => if s.state t = .TASK_INTERRUPTIBLE then some (s.setState t .TASK_RUNNING) else none
  | .resume t => resume s t
  | .change t state => if s.frame t = none then some (s.setState t state) else none

theorem resume_eq_some {s s' : TaskQueue τ} {t : τ} (h : resume s t = some s')
    : ∃ tmp, s.frame t = some tmp ∧ s.state t = .TASK_RUNNING
      ∧ ((s.queue ≠ none ∧ s.queue ≠ some t ∧ s' = sleepAgain s t)
        ∨ ((s.queue = none ∨ s.queue = some t) ∧ s' = { s with queue := none }.leave t tmp)) := by
  unfold resume at h
  split at h
  . simp at h
  . next tmp hframe =>
    split at h
    . next hrun =>
      refine ⟨tmp, hframe, hrun, ?_⟩
      split at h
      . next hrepeat =>
        rw [Option.some.injEq] at h
        exact .inl ⟨hrepeat.left, hrepeat.right, h.symm⟩
      . next hleave =>
        rw [Option.some.injEq] at h
        refine .inr ⟨?_, h.symm⟩
        rwa [not_and_or, not_not, not_not] at hleave
    . simp at h

theorem Inv.sleepOn {s s' : TaskQueue τ} {t : τ} (hinv : Inv s) (h : Entered s s' t .TASK_INTERRUPTIBLE) : Inv s' := by
  constructor
  . intro u hu
    rw [h.queue_eq, Option.some.injEq] at hu
    exact hu ▸ h.inside_self
  . intro x y hxy
    cases (h.saves_iff x y).mp hxy with
    | inl hnew =>
      rw [hnew.left]
      exact (h.ne_of_inside (hinv.queue_inside y hnew.right)).symm
    | inr hold => exact hinv.saves_ne x y hold
  . intro u hu
    by_cases heq : u = t
    . exact heq ▸ h.reached_self
    . apply h.reached
      exact hinv.reached u ⟨(h.inside_iff heq).mp hu.left, (h.state_of_ne heq).symm.trans hu.right⟩

theorem Inv.wakeUp {s : TaskQueue τ} (hinv : Inv s) : Inv s.wakeUp := by
  have hhead : ∀ u, s.queue = some u → s.wakeUp.Runnable u := by
    intro u hu
    refine ⟨(s.inside_wakeUp_iff u).mpr (hinv.queue_inside u hu), ?_⟩
    unfold TaskQueue.wakeUp
    rw [hu]
    exact s.wake_state_self u
  constructor
  . intro u hu
    simp [TaskQueue.wakeUp] at hu
  . intro x y hxy
    rw [saves_wakeUp] at hxy
    exact hinv.saves_ne x y hxy
  . intro u hu
    have hblocked : Blocked s u := by
      refine ⟨(s.inside_wakeUp_iff u).mp hu.left, ?_⟩
      have hne : s.queue ≠ some u := fun heq => blocked_not_running hu (hhead u heq).right
      exact (s.wake_state_of_ne hne).symm.trans hu.right
    unfold Reached
    rw [saves_wakeUp]
    apply (hinv.reached u hblocked).trans
    intro r hr
    cases hr with
    | inl hqueue => exact Rooted.of_root (.inr (hhead r hqueue))
    | inr hrun => exact Rooted.of_root (.inr (runnable_wakeUp hrun))

theorem Inv.setState {s : TaskQueue τ} {t : τ} {state : TaskState} (hinv : Inv s)
    (hroot : s.Runnable t → state = .TASK_RUNNING) (hblocked : s.Inside t → state ≠ .TASK_INTERRUPTIBLE)
    : Inv (s.setState t state) := by
  refine ⟨hinv.queue_inside, hinv.saves_ne, ?_⟩
  intro u hu
  have hne : u ≠ t := by
    intro heq
    subst heq
    have hstate := hu.right
    simp only [TaskQueue.setState, Function.update_self] at hstate
    exact hblocked hu.left hstate
  have hstate : (s.setState t state).state u = s.state u := Function.update_of_ne hne _ _
  apply (hinv.reached u ⟨hu.left, hstate.symm.trans hu.right⟩).trans
  intro r hr
  apply Rooted.of_root
  cases hr with
  | inl hqueue => exact .inl hqueue
  | inr hrun =>
    refine .inr ⟨hrun.left, ?_⟩
    by_cases heq : r = t
    . subst heq
      simp only [TaskQueue.setState, Function.update_self]
      exact hroot hrun
    . exact (Function.update_of_ne heq _ _).trans hrun.right

theorem Inv.leave {s : TaskQueue τ} {t : τ} {tmp : Option τ} (hinv : Inv s) (hframe : s.frame t = some tmp)
    (hqueue : s.queue = none ∨ s.queue = some t)
    : Inv ({ s with queue := none }.leave t tmp) := by
  constructor
  . intro u hu
    rw [leave_queue] at hu
    simp at hu
  . intro x y hxy
    rw [saves_leave_iff] at hxy
    exact hinv.saves_ne x y hxy.right
  . intro u hu
    obtain ⟨hut, hinside⟩ := (inside_leave_iff _ t u tmp).mp hu.left
    have htmp : tmp ≠ some u := by
      intro htmp
      subst htmp
      exact blocked_not_running hu (leave_state_saved _ t u)
    have hstate : s.state u = .TASK_INTERRUPTIBLE := by
      rw [← hu.right, leave_state_of_ne _ t htmp]
    apply (hinv.reached u ⟨hinside, hstate⟩).cut hut hinside fun _ _ => Saves.inside
    . intro x y hx hxy
      exact (saves_leave_iff _ t x y tmp).mpr ⟨hx, hxy⟩
    . intro r hr hroot
      apply Rooted.of_root
      cases hroot with
      | inl hhead =>
        rw [hhead] at hqueue
        simp [hr] at hqueue
      | inr hrun => exact .inr (runnable_leave tmp hr hrun)
    . -- The saved task may have left its own call before; then it leads nowhere.
      intro v hv hlive
      have hvt : v ≠ t := (hinv.saves_ne t v hv).symm
      unfold Saves at hv
      rw [hframe, Option.some.injEq] at hv
      subst hv
      exact Rooted.of_root (.inr (runnable_leave_saved hvt hlive))

theorem sleepAgain_queue (s : TaskQueue τ) (t : τ) : (sleepAgain s t).queue = s.queue :=
  s.wake_queue s.queue

theorem inside_sleepAgain_iff (s : TaskQueue τ) (t u : τ) : (sleepAgain s t).Inside u ↔ s.Inside u := by
  unfold Inside
  rw [show (sleepAgain s t).frame = s.frame from s.wake_frame s.queue]

theorem saves_sleepAgain (s : TaskQueue τ) (t : τ) : (sleepAgain s t).Saves = s.Saves := by
  unfold Saves
  rw [show (sleepAgain s t).frame = s.frame from s.wake_frame s.queue]

theorem sleepAgain_state_self (s : TaskQueue τ) (t : τ) : (sleepAgain s t).state t = .TASK_INTERRUPTIBLE :=
  Function.update_self _ _ _

theorem sleepAgain_state_of_ne (s : TaskQueue τ) {t u : τ} (h : u ≠ t)
    : (sleepAgain s t).state u = (s.wake s.queue).state u :=
  Function.update_of_ne h _ _

theorem reached_sleepAgain_iff (s : TaskQueue τ) (t u : τ)
    : (sleepAgain s t).Reached u
      ↔ Rooted.Reaches s.Saves (fun r => s.queue = some r ∨ (s.Runnable r ∧ r ≠ t)) u := by
  unfold Reached
  rw [saves_sleepAgain, sleepAgain_queue]
  constructor
  . intro h
    apply h.trans
    intro r hr
    apply Rooted.of_root
    by_cases hhead : s.queue = some r
    . exact .inl hhead
    . cases hr with
      | inl hqueue => exact .inl hqueue
      | inr hrun =>
        have hrt : r ≠ t := by
          intro heq
          have hstate := hrun.right
          rw [heq, sleepAgain_state_self] at hstate
          simp at hstate
        have hstate := hrun.right
        rw [sleepAgain_state_of_ne s hrt, s.wake_state_of_ne hhead] at hstate
        exact .inr ⟨⟨(inside_sleepAgain_iff s t r).mp hrun.left, hstate⟩, hrt⟩
  . intro h
    apply h.trans
    intro r hr
    apply Rooted.of_root
    cases hr with
    | inl hqueue => exact .inl hqueue
    | inr hrun =>
      refine .inr ⟨(inside_sleepAgain_iff s t r).mpr hrun.left.left, ?_⟩
      rw [sleepAgain_state_of_ne s hrun.right]
      exact wake_state_of_running s.queue hrun.left.right

theorem Inv.sleepAgain {s : TaskQueue τ} {t : τ} (hinv : Inv s)
    (hlinked : Rooted.Reaches s.Saves (fun r => s.queue = some r ∨ (s.Runnable r ∧ r ≠ t)) t)
    : Inv (sleepAgain s t) := by
  constructor
  . intro u hu
    rw [sleepAgain_queue] at hu
    exact (inside_sleepAgain_iff s t u).mpr (hinv.queue_inside u hu)
  . intro x y hxy
    rw [saves_sleepAgain] at hxy
    exact hinv.saves_ne x y hxy
  . intro u hu
    rw [reached_sleepAgain_iff]
    by_cases hut : u = t
    . exact hut ▸ hlinked
    . have hhead : s.queue ≠ some u := by
        intro hhead
        have hstate := hu.right
        rw [sleepAgain_state_of_ne s hut, hhead, wake_state_self] at hstate
        simp at hstate
      have hstate := hu.right
      rw [sleepAgain_state_of_ne s hut, s.wake_state_of_ne hhead] at hstate
      apply (hinv.reached u ⟨(inside_sleepAgain_iff s t u).mp hu.left, hstate⟩).trans
      intro r hr
      by_cases hrt : r = t
      . exact hrt ▸ hlinked
      . apply Rooted.of_root
        cases hr with
        | inl hqueue => exact .inl hqueue
        | inr hrun => exact .inr ⟨hrun, hrt⟩

theorem step_inv (s s' : TaskQueue τ) (a : InterruptibleAct τ) (hinv : Inv s) (hlinked : Linked s a)
    (h : step idle s a = some s')
    : Inv s' := by
  cases a with
  | sleepOn t => exact hinv.sleepOn (enter_eq_some h)
  | wakeUp =>
    cases h
    exact hinv.wakeUp
  | signal t =>
    unfold step at h
    dsimp only at h
    split at h
    . cases h
      exact hinv.setState (fun _ => rfl) fun _ => by decide
    . simp at h
  | resume t =>
    obtain ⟨tmp, hframe, _, hbranch⟩ := resume_eq_some h
    cases hbranch with
    | inl hrepeat =>
      obtain ⟨hnone, hne, rfl⟩ := hrepeat
      exact hinv.sleepAgain (hlinked hnone hne)
    | inr hleave =>
      obtain ⟨hqueue, rfl⟩ := hleave
      exact hinv.leave hframe hqueue
  | change t state =>
    unfold step at h
    dsimp only at h
    split at h
    . next hout =>
      cases h
      exact hinv.setState (fun hrun => absurd hout hrun.left) fun hinside => absurd hout hinside
    . simp at h

theorem linked_of_noneLost {s s' : TaskQueue τ} {a : InterruptibleAct τ} (h : step idle s a = some s')
    (hnone : NoneLost s')
    : Linked s a := by
  cases a with
  | resume t =>
    intro hsome hne
    obtain ⟨tmp, hframe, _, hbranch⟩ := resume_eq_some h
    cases hbranch with
    | inl hrepeat =>
      obtain ⟨_, _, rfl⟩ := hrepeat
      have hinside : s.Inside t := by simp [Inside, hframe]
      have hblocked : Blocked (sleepAgain s t) t :=
        ⟨(inside_sleepAgain_iff s t t).mpr hinside, sleepAgain_state_self s t⟩
      exact (reached_sleepAgain_iff s t t).mp (hnone t hblocked).right
    | inr hleave =>
      cases hleave.left with
      | inl hqueue => exact absurd hqueue hsome
      | inr hqueue => exact absurd hqueue hne
  | _ => trivial

end InterruptibleSleepOn
end OS
