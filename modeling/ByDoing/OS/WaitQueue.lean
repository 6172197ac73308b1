import Mathlib.Logic.Function.Basic
import ByDoing.Lib.Rooted
import ByDoing.Lib.Run
import ByDoing.OS.Kernel

/-!
This module contains a wait queue of `sched.c`: `*p` and the `tmp` of each task that is still inside of the call.
The kernel is not preemptive, so a call that no interrupt disturbs runs up to its `schedule` in one step, and from
there to its end in another one. Which runnable task comes next is left open.
-/

namespace OS

structure TaskQueue (τ : Type) where
  queue : Option τ
  state : τ → TaskState
  -- The `tmp` of a task inside of the call, `none` for the other tasks.
  frame : τ → Option (Option τ)

namespace TaskQueue

variable {τ : Type}

def init (state : τ → TaskState) : TaskQueue τ :=
  { queue := none, state, frame := fun _ => none }

def Inside (s : TaskQueue τ) (t : τ) : Prop :=
  s.frame t ≠ none

def Runnable (s : TaskQueue τ) (t : τ) : Prop :=
  s.Inside t ∧ s.state t = .TASK_RUNNING

instance decidableInside (s : TaskQueue τ) (t : τ) : Decidable (s.Inside t) :=
  inferInstanceAs (Decidable (s.frame t ≠ none))

instance decidableRunnable (s : TaskQueue τ) (t : τ) : Decidable (s.Runnable t) :=
  inferInstanceAs (Decidable (s.Inside t ∧ s.state t = .TASK_RUNNING))

def Saves (s : TaskQueue τ) (t u : τ) : Prop :=
  s.frame t = some (some u)

instance decidableSaves [DecidableEq τ] (s : TaskQueue τ) (t u : τ) : Decidable (s.Saves t u) :=
  inferInstanceAs (Decidable (s.frame t = some (some u)))

theorem Saves.inside {s : TaskQueue τ} {t u : τ} (h : s.Saves t u) : s.Inside t := by
  unfold Inside
  rw [h]
  exact Option.some_ne_none _

/--
By following `tmp` from `*p`, or from a task that will run on in the call.
-/
def Reached (s : TaskQueue τ) (t : τ) : Prop :=
  Rooted.Reaches s.Saves (fun r => s.queue = some r ∨ s.Runnable r) t

variable [DecidableEq τ]

def setState (s : TaskQueue τ) (t : τ) (state : TaskState) : TaskQueue τ :=
  { s with state := Function.update s.state t state }

def wake (s : TaskQueue τ) : Option τ → TaskQueue τ
  | none => s
  | some t => s.setState t .TASK_RUNNING

def wakeUp (s : TaskQueue τ) : TaskQueue τ :=
  { s.wake s.queue with queue := none }

-- `idle` is `init_task.task`.
def enter (idle : τ) (s : TaskQueue τ) (t : τ) (state : TaskState) : Option (TaskQueue τ) :=
  if t = idle then
    none
  else if s.frame t = none ∧ s.state t = .TASK_RUNNING then
    some { queue := some t, state := Function.update s.state t state, frame := Function.update s.frame t (some s.queue) }
  else
    none

def leave (s : TaskQueue τ) (t : τ) (tmp : Option τ) : TaskQueue τ :=
  { s.wake tmp with frame := Function.update s.frame t none }

theorem wake_queue (s : TaskQueue τ) (t : Option τ) : (s.wake t).queue = s.queue := by
  cases t <;> rfl

theorem wake_frame (s : TaskQueue τ) (t : Option τ) : (s.wake t).frame = s.frame := by
  cases t <;> rfl

theorem wake_state_self (s : TaskQueue τ) (t : τ) : (s.wake (some t)).state t = .TASK_RUNNING := by
  simp [wake, setState]

theorem wake_state_of_ne (s : TaskQueue τ) {t : Option τ} {u : τ} (h : t ≠ some u) : (s.wake t).state u = s.state u := by
  cases t with
  | none => rfl
  | some t =>
    have hne : u ≠ t := fun heq => h (congrArg some heq.symm)
    exact Function.update_of_ne hne _ _

theorem wake_state_of_running {s : TaskQueue τ} {u : τ} (t : Option τ) (h : s.state u = .TASK_RUNNING)
    : (s.wake t).state u = .TASK_RUNNING := by
  by_cases heq : t = some u
  . rw [heq]
    exact s.wake_state_self u
  . rw [s.wake_state_of_ne heq, h]

/--
What a call has done at its `schedule`.
-/
structure Entered (s s' : TaskQueue τ) (t : τ) (state : TaskState) : Prop where
  outside : s.frame t = none
  queue_eq : s'.queue = some t
  state_eq : s'.state = Function.update s.state t state
  frame_eq : s'.frame = Function.update s.frame t (some s.queue)

theorem enter_eq_some {idle : τ} {s s' : TaskQueue τ} {t : τ} {state : TaskState} (h : enter idle s t state = some s')
    : Entered s s' t state := by
  unfold enter at h
  split at h
  . simp at h
  . split at h
    . next hguard =>
      rw [Option.some.injEq] at h
      subst h
      exact ⟨hguard.left, rfl, rfl, rfl⟩
    . simp at h

namespace Entered

variable {s s' : TaskQueue τ} {t : τ} {state : TaskState}

theorem ne_of_inside (h : Entered s s' t state) {u : τ} (hu : s.Inside u) : u ≠ t := by
  intro heq
  exact hu (heq ▸ h.outside)

theorem inside_self (h : Entered s s' t state) : s'.Inside t := by
  unfold Inside
  rw [h.frame_eq, Function.update_self]
  exact Option.some_ne_none _

theorem state_self (h : Entered s s' t state) : s'.state t = state := by
  rw [h.state_eq, Function.update_self]

theorem inside_iff (h : Entered s s' t state) {u : τ} (hu : u ≠ t) : s'.Inside u ↔ s.Inside u := by
  unfold Inside
  rw [h.frame_eq, Function.update_of_ne hu]

theorem state_of_ne (h : Entered s s' t state) {u : τ} (hu : u ≠ t) : s'.state u = s.state u := by
  rw [h.state_eq, Function.update_of_ne hu]

theorem saves_iff (h : Entered s s' t state) (x y : τ)
    : s'.Saves x y ↔ (x = t ∧ s.queue = some y) ∨ s.Saves x y := by
  unfold Saves
  rw [h.frame_eq]
  by_cases hx : x = t
  . subst hx
    rw [Function.update_self, h.outside]
    simp
  . rw [Function.update_of_ne hx]
    simp [hx]

theorem runnable (h : Entered s s' t state) {u : τ} (hu : s.Runnable u) : s'.Runnable u := by
  have hne := h.ne_of_inside hu.left
  exact ⟨(h.inside_iff hne).mpr hu.left, (h.state_of_ne hne).trans hu.right⟩

theorem reached_self (h : Entered s s' t state) : s'.Reached t :=
  Rooted.of_root (.inl h.queue_eq)

theorem reached (h : Entered s s' t state) {u : τ} (hu : s.Reached u) : s'.Reached u := by
  apply hu.mono
  . intro x y hxy
    exact (h.saves_iff x y).mpr (.inr hxy)
  . intro r hr
    cases hr with
    | inl hqueue =>
      -- The old queue is what the new head has saved.
      exact h.reached_self.tail ((h.saves_iff t r).mpr (.inl ⟨rfl, hqueue⟩))
    | inr hrun => exact Rooted.of_root (.inr (h.runnable hrun))

end Entered

theorem inside_wakeUp_iff (s : TaskQueue τ) (t : τ) : s.wakeUp.Inside t ↔ s.Inside t := by
  unfold Inside wakeUp
  rw [wake_frame]

theorem saves_wakeUp (s : TaskQueue τ) : s.wakeUp.Saves = s.Saves := by
  unfold Saves wakeUp
  rw [wake_frame]

theorem runnable_wakeUp {s : TaskQueue τ} {t : τ} (h : s.Runnable t) : s.wakeUp.Runnable t := by
  refine ⟨(s.inside_wakeUp_iff t).mpr h.left, ?_⟩
  exact wake_state_of_running s.queue h.right

theorem leave_queue (s : TaskQueue τ) (t : τ) (tmp : Option τ) : (s.leave t tmp).queue = s.queue :=
  s.wake_queue tmp

theorem leave_state_of_ne (s : TaskQueue τ) (t : τ) {tmp : Option τ} {u : τ} (h : tmp ≠ some u)
    : (s.leave t tmp).state u = s.state u :=
  s.wake_state_of_ne h

theorem leave_state_saved (s : TaskQueue τ) (t u : τ) : (s.leave t (some u)).state u = .TASK_RUNNING :=
  s.wake_state_self u

theorem inside_leave_iff (s : TaskQueue τ) (t u : τ) (tmp : Option τ)
    : (s.leave t tmp).Inside u ↔ u ≠ t ∧ s.Inside u := by
  unfold Inside leave
  dsimp only
  by_cases hu : u = t
  . subst hu
    simp
  . rw [Function.update_of_ne hu]
    simp [hu]

theorem saves_leave_iff (s : TaskQueue τ) (t x y : τ) (tmp : Option τ)
    : (s.leave t tmp).Saves x y ↔ x ≠ t ∧ s.Saves x y := by
  unfold Saves leave
  dsimp only
  by_cases hx : x = t
  . subst hx
    simp
  . rw [Function.update_of_ne hx]
    simp [hx]

theorem runnable_leave {s : TaskQueue τ} {t u : τ} (tmp : Option τ) (hne : u ≠ t) (hu : s.Runnable u)
    : (s.leave t tmp).Runnable u := by
  refine ⟨(s.inside_leave_iff t u tmp).mpr ⟨hne, hu.left⟩, ?_⟩
  exact wake_state_of_running tmp hu.right

theorem runnable_leave_saved {s : TaskQueue τ} {t u : τ} (hne : u ≠ t) (hu : s.Inside u)
    : (s.leave t (some u)).Runnable u := by
  exact ⟨(s.inside_leave_iff t u (some u)).mpr ⟨hne, hu⟩, s.leave_state_saved t u⟩

end TaskQueue

end OS
