import Mathlib.Logic.Function.Basic
import ByDoing.Lib.Run
import ByDoing.OS.Pid

/-!
This module contains forks that overlap. A parent runs from `find_empty_process` to the first `fprintk`
of `copy_process` without losing the CPU; each of the two `fprintk` calls may block, so other parents
may run before the call returns `last_pid`. `pageOk` and `memOk` are the answers of `get_free_page` and
`copy_mem`. A task that has been reaped leaves its slot.
-/

namespace OS

inductive ForkPc where
  | newLine
  | readyLine
  deriving Repr, DecidableEq

-- A call of `copy_process` in one of its `fprintk` calls; `child` is `p->pid`.
structure ForkCall where
  child : Nat
  pc : ForkPc
  deriving Repr, DecidableEq

structure ForkResult where
  parent : Slot
  child : Option Nat
  value : Int
  deriving Repr, DecidableEq

structure Forks where
  pids : Slot → Option Nat
  lastPid : Nat
  calls : Slot → Option ForkCall
  returned : List ForkResult

def EAGAIN : Int := 11

namespace Forks

inductive Act where
  | fork (parent : Slot) (pageOk memOk : Bool)
  | newLogged (parent : Slot)
  | readyLogged (parent : Slot)
  | release (slot : Slot)
  deriving Repr, DecidableEq

def init : Forks :=
  {
    pids := Function.update (fun _ => none) 0 (some 0)
    lastPid := 0
    calls := fun _ => none
    returned := []
  }

def fail (s : Forks) (parent : Slot) : Forks :=
  { s with returned := s.returned ++ [{ parent, child := none, value := -EAGAIN }] }

-- `sys_fork` up to the first `fprintk`.
def sysFork (s : Forks) (parent : Slot) (pageOk memOk : Bool) : Option Forks :=
  match findEmptyProcess s.pids s.lastPid with
  | none => none
  | some (lastPid, none) => some ({ s with lastPid }.fail parent)
  | some (lastPid, some nr) =>
    if pageOk && memOk then
      some { s with
        lastPid
        pids := Function.update s.pids nr (some lastPid)
        calls := Function.update s.calls parent (some { child := lastPid, pc := .newLine })
      }
    else
      some ({ s with lastPid }.fail parent)

def step (s : Forks) : Act → Option Forks
  | .fork parent pageOk memOk =>
    if (s.pids parent).isSome && (s.calls parent).isNone then s.sysFork parent pageOk memOk else none
  | .newLogged parent =>
    match s.calls parent with
    | some { child, pc := .newLine } =>
      some { s with calls := Function.update s.calls parent (some { child, pc := .readyLine }) }
    | _ => none
  | .readyLogged parent =>
    match s.calls parent with
    | some { child, pc := .readyLine } =>
      some { s with
        calls := Function.update s.calls parent none
        returned := s.returned ++ [{ parent, child := some child, value := s.lastPid }]
      }
    | _ => none
  | .release slot =>
    if slot.val ≠ 0 ∧ (s.calls slot).isNone then
      some { s with pids := Function.update s.pids slot none }
    else
      none

def ReturnsChild (s : Forks) : Prop :=
  ∀ r ∈ s.returned, ∀ child, r.child = some child → r.value = child

def Alone (s : Forks) : Act → Prop
  | .fork _ _ _ => ∀ parent, s.calls parent = none
  | _ => True

instance (s : Forks) (a : Act) : Decidable (s.Alone a) :=
  match a with
  | .fork _ _ _ => inferInstanceAs (Decidable (∀ parent, s.calls parent = none))
  | .newLogged _ | .readyLogged _ | .release _ => isTrue trivial

structure Inv (s : Forks) : Prop where
  returnsChild : s.ReturnsChild
  child_eq : ∀ parent call, s.calls parent = some call → call.child = s.lastPid

theorem init_inv : init.Inv := by
  constructor
  . intro r hr
    simp [init] at hr
  . intro parent call hcall
    simp [init] at hcall

theorem fail_returnsChild {s : Forks} (h : s.ReturnsChild) (parent : Slot)
    : (s.fail parent).ReturnsChild := by
  intro r hr child hchild
  rw [fail, List.mem_append, List.mem_singleton] at hr
  cases hr with
  | inl hr => exact h r hr child hchild
  | inr hr =>
    subst hr
    simp at hchild

theorem sysFork_inv {s s' : Forks} {parent : Slot} {pageOk memOk : Bool} (hinv : s.Inv)
    (halone : ∀ parent, s.calls parent = none) (h : s.sysFork parent pageOk memOk = some s')
    : s'.Inv := by
  unfold sysFork at h
  split at h
  . simp at h
  . cases h
    constructor
    . exact fail_returnsChild hinv.returnsChild parent
    . intro parent' call hcall
      simp [fail, halone] at hcall
  . split at h
    . cases h
      constructor
      . exact hinv.returnsChild
      . intro parent' call hcall
        dsimp only at hcall
        by_cases hparent : parent' = parent
        . subst hparent
          rw [Function.update_self, Option.some.injEq] at hcall
          rw [← hcall]
        . rw [Function.update_of_ne hparent, halone] at hcall
          simp at hcall
    . cases h
      constructor
      . exact fail_returnsChild hinv.returnsChild parent
      . intro parent' call hcall
        simp [fail, halone] at hcall

theorem step_inv (s s' : Forks) (a : Act) (hinv : s.Inv) (halone : s.Alone a) (h : s.step a = some s')
    : s'.Inv := by
  cases a with
  | fork parent pageOk memOk =>
    dsimp only [step] at h
    split at h
    . exact sysFork_inv hinv halone h
    . simp at h
  | newLogged parent =>
    dsimp only [step] at h
    split at h
    . next child hcall =>
      cases h
      constructor
      . exact hinv.returnsChild
      . intro parent' call hcall'
        dsimp only at hcall'
        by_cases hparent : parent' = parent
        . subst hparent
          rw [Function.update_self, Option.some.injEq] at hcall'
          have := hinv.child_eq _ _ hcall
          rw [← hcall']
          exact this
        . rw [Function.update_of_ne hparent] at hcall'
          exact hinv.child_eq _ _ hcall'
    . simp at h
  | readyLogged parent =>
    dsimp only [step] at h
    split at h
    . next child hcall =>
      cases h
      constructor
      . intro r hr child' hchild
        dsimp only at hr
        rw [List.mem_append, List.mem_singleton] at hr
        cases hr with
        | inl hr => exact hinv.returnsChild r hr child' hchild
        | inr hr =>
          subst hr
          rw [Option.some.injEq] at hchild
          subst hchild
          have := hinv.child_eq _ _ hcall
          dsimp only at this ⊢
          rw [this]
      . intro parent' call hcall'
        dsimp only at hcall'
        by_cases hparent : parent' = parent
        . subst hparent
          rw [Function.update_self] at hcall'
          simp at hcall'
        . rw [Function.update_of_ne hparent] at hcall'
          exact hinv.child_eq _ _ hcall'
    . simp at h
  | release slot =>
    dsimp only [step] at h
    split at h
    . cases h
      exact ⟨hinv.returnsChild, hinv.child_eq⟩
    . simp at h

theorem sysFork_lastPid_le {s s' : Forks} {parent : Slot} {pageOk memOk : Bool}
    (h : s.sysFork parent pageOk memOk = some s')
    : s'.lastPid ≤ maxPid := by
  unfold sysFork at h
  split at h
  . simp at h
  . next hfind =>
    cases h
    exact findEmptyProcess_le hfind
  . next hfind =>
    split at h
    . cases h
      exact findEmptyProcess_le hfind
    . cases h
      exact findEmptyProcess_le hfind

theorem step_lastPid_le (s s' : Forks) (a : Act) (hle : s.lastPid ≤ maxPid) (h : s.step a = some s')
    : s'.lastPid ≤ maxPid := by
  cases a with
  | fork parent pageOk memOk =>
    dsimp only [step] at h
    split at h
    . exact sysFork_lastPid_le h
    . simp at h
  | newLogged parent =>
    dsimp only [step] at h
    split at h
    . cases h
      exact hle
    . simp at h
  | readyLogged parent =>
    dsimp only [step] at h
    split at h
    . cases h
      exact hle
    . simp at h
  | release slot =>
    dsimp only [step] at h
    split at h
    . cases h
      exact hle
    . simp at h

theorem sysFork_isSome {s : Forks} {ok : Forks → Act → Prop} (h : Run.Reaches step ok init s)
    (parent : Slot) (pageOk memOk : Bool)
    : (s.sysFork parent pageOk memOk).isSome = true := by
  have hle : s.lastPid ≤ maxPid := by
    apply h.invariant (fun s => s.lastPid ≤ maxPid)
    . exact Nat.zero_le maxPid
    . intro s s' a hle _ hstep
      exact step_lastPid_le s s' a hle hstep
  have hsome := findEmptyProcess_isSome s.pids hle
  unfold sysFork
  split
  . next hnone =>
    rw [hnone] at hsome
    simp at hsome
  . rfl
  . split <;> rfl

theorem returnsChild_of_alone (s : Forks) (h : Run.Reaches step Alone init s) : s.ReturnsChild := by
  have hinv : s.Inv := by
    apply h.invariant
    . exact init_inv
    . apply step_inv
  exact hinv.returnsChild

def forkInit : List Act :=
  [.fork 0 true true, .newLogged 0, .readyLogged 0]

-- Task 0 forks, and behind it its child.
theorem returnsChild_forkInit_fork
    : ∃ s, Run.Reaches step Alone init s
        ∧ s.returned = [{ parent := 0, child := some 1, value := 1 }, { parent := 1, child := some 2, value := 2 }]
        ∧ s.ReturnsChild := by
  have hrun : (Run.exec step init (forkInit ++ ([.fork 1 true true, .newLogged 1, .readyLogged 1] : List Act))).map returned
      = some [{ parent := 0, child := some 1, value := 1 }, { parent := 1, child := some 2, value := 2 }] := by
    decide +kernel
  obtain ⟨s, hexec, hreturned⟩ := Option.map_eq_some_iff.mp hrun
  have hreaches : Run.Reaches step Alone init s := by
    apply Run.Reaches.of_exec _ hexec
    decide +kernel
  exact ⟨s, hreaches, hreturned, returnsChild_of_alone s hreaches⟩

-- Task 1 forks while task 0 waits in its `fprintk`: task 0 gets the pid of task 1's child.
theorem not_returnsChild_of_overlap
    : ¬ ∀ (s : Forks), Run.Reaches step (fun _ _ => True) init s → s.ReturnsChild := by
  intro h
  have hrun : (Run.exec step init
        (forkInit ++ ([.fork 0 true true, .fork 1 true true, .newLogged 0, .readyLogged 0] : List Act))).map
      (fun s => decide ({ parent := 0, child := some 2, value := 3 } ∈ s.returned)) = some true := by
    decide +kernel
  obtain ⟨s, hexec, hmem⟩ := Option.map_eq_some_iff.mp hrun
  have hreaches := Run.Reaches.of_exec (Run.allOk_of_forall fun _ _ => trivial) hexec
  have hreturns := h s hreaches _ (of_decide_eq_true hmem) 2 rfl
  simp at hreturns

-- The tasks in the table have different pids, which `last_pid` has had once.
structure Distinct (s : Forks) : Prop where
  lastPid_le : s.lastPid ≤ maxPid
  pid_le : ∀ i pid, s.pids i = some pid → pid ≤ maxPid
  slot_eq : ∀ i j pid, s.pids i = some pid → s.pids j = some pid → i = j

theorem init_distinct : init.Distinct := by
  have hzero : ∀ i pid, init.pids i = some pid → i = 0 ∧ pid = 0 := by
    intro i pid hpid
    dsimp only [init] at hpid
    by_cases hi : i = 0
    . rw [hi, Function.update_self, Option.some.injEq] at hpid
      exact ⟨hi, hpid.symm⟩
    . rw [Function.update_of_ne hi] at hpid
      cases hpid
  constructor
  . exact Nat.zero_le maxPid
  . intro i pid hpid
    rw [(hzero i pid hpid).right]
    exact Nat.zero_le maxPid
  . intro i j pid hi hj
    rw [(hzero i pid hi).left, (hzero j pid hj).left]

theorem sysFork_distinct {s s' : Forks} {parent : Slot} {pageOk memOk : Bool} (hs : s.Distinct)
    (h : s.sysFork parent pageOk memOk = some s')
    : s'.Distinct := by
  unfold sysFork at h
  split at h
  . cases h
  . next hfind =>
    cases h
    exact ⟨findEmptyProcess_le hfind, hs.pid_le, hs.slot_eq⟩
  . next pid nr hfind =>
    have hle := findEmptyProcess_le hfind
    have hfresh := (findEmptyProcess_spec hfind).left.right
    split at h
    . cases h
      constructor
      . exact hle
      . intro i pid' hi
        dsimp only at hi
        by_cases hnr : i = nr
        . rw [hnr, Function.update_self, Option.some.injEq] at hi
          rw [← hi]
          exact hle
        . rw [Function.update_of_ne hnr] at hi
          exact hs.pid_le i pid' hi
      . intro i j pid' hi hj
        dsimp only at hi hj
        by_cases hinr : i = nr
        . rw [hinr, Function.update_self, Option.some.injEq] at hi
          by_cases hjnr : j = nr
          . rw [hinr, hjnr]
          . rw [Function.update_of_ne hjnr, ← hi] at hj
            exact absurd hj (hfresh j)
        . rw [Function.update_of_ne hinr] at hi
          by_cases hjnr : j = nr
          . rw [hjnr, Function.update_self, Option.some.injEq] at hj
            rw [← hj] at hi
            exact absurd hi (hfresh i)
          . rw [Function.update_of_ne hjnr] at hj
            exact hs.slot_eq i j pid' hi hj
    . cases h
      exact ⟨hle, hs.pid_le, hs.slot_eq⟩

theorem step_distinct (s s' : Forks) (a : Act) (hs : s.Distinct) (h : s.step a = some s') : s'.Distinct := by
  cases a with
  | fork parent pageOk memOk =>
    dsimp only [step] at h
    split at h
    . exact sysFork_distinct hs h
    . cases h
  | newLogged parent =>
    dsimp only [step] at h
    split at h
    . cases h
      exact ⟨hs.lastPid_le, hs.pid_le, hs.slot_eq⟩
    . cases h
  | readyLogged parent =>
    dsimp only [step] at h
    split at h
    . cases h
      exact ⟨hs.lastPid_le, hs.pid_le, hs.slot_eq⟩
    . cases h
  | release slot =>
    dsimp only [step] at h
    split at h
    . cases h
      have hold : ∀ i pid, Function.update s.pids slot none i = some pid → s.pids i = some pid := by
        intro i pid hi
        by_cases hslot : i = slot
        . rw [hslot, Function.update_self] at hi
          cases hi
        . rw [Function.update_of_ne hslot] at hi
          exact hi
      constructor
      . exact hs.lastPid_le
      . intro i pid hi
        exact hs.pid_le i pid (hold i pid hi)
      . intro i j pid hi hj
        exact hs.slot_eq i j pid (hold i pid hi) (hold j pid hj)
    . cases h

-- The value that `find_empty_process` returns.
def emptyProcess : Option Slot → Int
  | some nr => nr.val
  | none => -EAGAIN

/--
In every run the tasks have different pids that are not negative, and `find_empty_process` comes to an end: with an
unused slot other than 0, or with `-EAGAIN` exactly if there is none.
-/
theorem emptyProcess_of_reaches {s : Forks} (h : Run.Reaches step (fun _ _ => True) init s)
    : (∀ i j pid, s.pids i = some pid → s.pids j = some pid → i = j)
        ∧ (∀ i pid, s.pids i = some pid → pid ≤ maxPid)
        ∧ ∃ pid nr, findEmptyProcess s.pids s.lastPid = some (pid, nr) ∧ pid ≤ maxPid
          ∧ (∀ i, nr = some i → emptyProcess nr = i.val ∧ i ≠ 0 ∧ s.pids i = none)
          ∧ (emptyProcess nr = -EAGAIN ↔ ∀ i, i ≠ 0 → (s.pids i).isSome = true) := by
  have hs : s.Distinct := by
    apply h.invariant
    . exact init_distinct
    . intro s s' a hs _ hstep
      exact step_distinct s s' a hs hstep
  refine ⟨hs.slot_eq, hs.pid_le, ?_⟩
  obtain ⟨⟨pid, nr⟩, hfind⟩ := Option.isSome_iff_exists.mp (findEmptyProcess_isSome s.pids hs.lastPid_le)
  refine ⟨pid, nr, hfind, findEmptyProcess_le hfind, ?_, ?_⟩
  . intro i hi
    have hslot := (findEmptyProcess_spec hfind).right i hi
    rw [hi]
    exact ⟨rfl, hslot⟩
  . rw [← findEmptyProcess_eq_none_iff hfind]
    cases nr with
    | none => simp [emptyProcess]
    | some nr =>
      simp [emptyProcess, EAGAIN]

-- Task 0 has forked, and its child has been released again.
theorem emptyProcess_released
    : ∃ s, Run.Reaches step (fun _ _ => True) init s ∧ s.lastPid = 1 ∧ s.pids 1 = none
        ∧ ∃ pid nr, findEmptyProcess s.pids s.lastPid = some (pid, nr) ∧ emptyProcess nr ≠ -EAGAIN := by
  have hexec : ∃ s, Run.exec step init (forkInit ++ [.release 1]) = some s ∧ s.lastPid = 1
      ∧ s.pids 1 = none := ⟨_, rfl, rfl, rfl⟩
  obtain ⟨s, hexec, hlast, hfree⟩ := hexec
  have hreaches := Run.Reaches.of_exec (Run.allOk_of_forall fun _ _ => trivial) hexec
  obtain ⟨_, _, pid, nr, hfind, _, _, hfull⟩ := emptyProcess_of_reaches hreaches
  refine ⟨s, hreaches, hlast, hfree, pid, nr, hfind, ?_⟩
  intro hret
  have hused := hfull.mp hret 1 (by decide)
  rw [hfree] at hused
  cases hused

end Forks
end OS
