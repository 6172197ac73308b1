import ByDoing.Lib.Run
import ByDoing.OS.KernelLedger
import ByDoing.OS.LedgerLog

namespace OS

def Phase.isRun : Phase → Bool
  | .run _ _ => true
  | _ => false

instance (state : TaskState) : Decidable state.asleep :=
  inferInstanceAs (Decidable (state = .TASK_INTERRUPTIBLE ∨ state = .TASK_UNINTERRUPTIBLE))

namespace Kernel

def Truthful (s : Kernel) : Prop :=
  s.phase = .user → ∀ i p, s.task i = some p → (s.mem p).pid ≠ 0 →
    (lastLetter s.log (s.mem p).pid = some .R ↔ p = s.current)
      ∧ (lastLetter s.log (s.mem p).pid = some .J ↔ (s.mem p).state = .TASK_RUNNING ∧ p ≠ s.current)
      ∧ (lastLetter s.log (s.mem p).pid = some .W ↔ (s.mem p).state.asleep)
      ∧ (lastLetter s.log (s.mem p).pid = some .E ↔ (s.mem p).state = .TASK_ZOMBIE)

/--
The task that has the CPU: between the `R` line of `schedule` and its `switch_to` that is the next task
already.
-/
def front (s : Kernel) : Page :=
  match s.phase with
  | .switch next _ => (s.task next).getD s.current
  | _ => s.current

/--
No task but `p` has the pid of `p`, and `p` does not have the CPU, or `schedule` has already written its
last line about it.
-/
def Undisturbed (s : Kernel) (p : Page) : Prop :=
  ∀ i, ∀ q ∈ s.task i, (s.mem q).pid = (s.mem p).pid → q = p ∧ (q = s.front → s.phase.isRun = true)

def WakesOthers (s : Kernel) (a : Act) : Prop :=
  ∀ p ∈ s.wakes a, s.Undisturbed p

def Sleeper (s : Kernel) (p : Page) : Prop :=
  (∃ i, s.task i = some p) ∧ (s.mem p).pid ≠ 0 ∧ (s.mem p).state.asleep
    ∧ (p = s.front → s.phase.isRun = true)

def newPid (s : Kernel) : Act → Option Nat
  | .fork (some _) true =>
    match findEmptyProcess s.pids s.lastPid with
    | some (pid, some _) => some pid
    | _ => none
  | _ => none

/--
Only sleeping tasks are woken, no pid is used again, and `jiffies` does not overflow.
-/
def Checkable (s : Kernel) (a : Act) : Prop :=
  (∀ p ∈ s.wakes a, s.Sleeper p)
    ∧ (∀ pid ∈ s.newPid a, lastLetter s.log pid = none)
    ∧ (a = .tick → s.jiffies ≠ BitVec.intMax 32)

instance (s : Kernel) (p : Page) : Decidable (s.Undisturbed p) :=
  inferInstanceAs (Decidable (∀ i, ∀ q ∈ s.task i, _))

instance (s : Kernel) (a : Act) : Decidable (s.WakesOthers a) :=
  inferInstanceAs (Decidable (∀ p ∈ s.wakes a, _))

instance (s : Kernel) (p : Page) : Decidable (s.Sleeper p) :=
  inferInstanceAs (Decidable (_ ∧ _))

instance (s : Kernel) (a : Act) : Decidable (s.Checkable a) :=
  inferInstanceAs (Decidable (_ ∧ _))

theorem init_orderly (jiffies : BitVec 32) : (init jiffies).ledger.Orderly := by
  have hpid : ∀ p, (init jiffies).ledger.pid p = 0 := fun _ => rfl
  have hhas : ∀ p, (init jiffies).ledger.Has p → p = 0 := by
    intro p ⟨i, hi⟩
    by_cases hzero : i = 0
    . subst hzero
      simpa [ledger, init] using hi.symm
    . simp [ledger, init, hzero] at hi
  constructor
  . exact ⟨0, rfl, rfl⟩
  . intro p q hp hq _
    rw [hhas p hp, hhas q hq]
  . intro p hp _
    exact hhas p hp
  . intro _
    exact ⟨0, rfl⟩
  . intro _ hne
    exact absurd (hpid _) hne
  . intro child hstage
    cases hstage
  . intro next hstage
    rcases hstage with hstage | hstage | hstage <;> cases hstage

theorem init_idlePlain (jiffies : BitVec 32) : (init jiffies).IdlePlain := by
  intro p _
  exact ⟨rfl, fun _ => rfl⟩

theorem init_truthful (jiffies : BitVec 32) : (init jiffies).ledger.Truthful := by
  intro p _ hne
  exact absurd rfl hne

theorem init_readable {jiffies : BitVec 32} (h : 40 ≤ jiffies.toInt) : (init jiffies).ledger.Readable := by
  constructor
  . exact StatLog.accepted_nil
  . exact h
  . simp [ledger, init]
  . simp [ledger, init]
  . intro child hstage
    cases hstage
  . intro hstage
    cases hstage
  . exact .inl ⟨0, rfl⟩

theorem isRun_iff {phase : Phase} : phase.isRun = true ↔ ∃ next, phase.stage = .run next := by
  cases phase <;> simp [Phase.isRun, Phase.stage]

theorem ledger_front (s : Kernel) : s.ledger.front = s.front := by
  unfold front Ledger.front
  rw [show s.ledger.stage = s.phase.stage from rfl]
  cases s.phase <;> rfl

theorem Undisturbed.ledger {s : Kernel} {p : Page} (h : s.Undisturbed p) : s.ledger.Undisturbed p := by
  intro q ⟨i, hi⟩ hpid
  obtain ⟨heq, hcurrent⟩ := h i q hi hpid
  rw [ledger_front]
  exact ⟨heq, fun hself => isRun_iff.mp (hcurrent hself)⟩

theorem Sleeper.ledger {s : Kernel} {p : Page} (h : s.Sleeper p) : s.ledger.Sleeper p := by
  obtain ⟨hhas, hpid, hasleep, hcurrent⟩ := h
  rw [Ledger.Sleeper, ledger_front]
  exact ⟨hhas, hpid, hasleep, fun hself => isRun_iff.mp (hcurrent hself)⟩

theorem toInt_le_toInt_succ {jiffies : BitVec 32} (h : jiffies ≠ BitVec.intMax 32)
    : jiffies.toInt ≤ (jiffies + 1).toInt := by
  have hne : jiffies.toNat ≠ 2 ^ 31 - 1 := by
    intro heq
    apply h
    apply BitVec.eq_of_toNat_eq
    rw [heq]
    rfl
  have hlt := jiffies.isLt
  rw [BitVec.toInt_eq_toNat_cond, BitVec.toInt_eq_toNat_cond, BitVec.toNat_add]
  have hone : (1 : BitVec 32).toNat = 1 := rfl
  rw [hone]
  omega

theorem Arises.acceptable {s : Kernel} {a : Act} {e : Ledger.Event} (h : s.Arises a e)
    (hok : s.Checkable a)
    : s.ledger.Acceptable e := by
  obtain ⟨hwakes, hpid, htick⟩ := hok
  cases e with
  | tick time =>
    obtain ⟨rfl, rfl⟩ := h
    exact toInt_le_toInt_succ (htick rfl)
  | expire time =>
    obtain ⟨rfl, rfl⟩ := h
    exact toInt_le_toInt_succ (htick rfl)
  | wake p => exact (hwakes p h).ledger
  | fork p nr pid =>
    obtain ⟨rfl, hfind⟩ := h
    apply hpid
    simp [newPid, hfind]
  | _ => trivial

theorem truthful_step {s s' : Kernel} {a : Act} (hplain : s.IdlePlain) (horder : s.ledger.Orderly)
    (htrue : s.ledger.Truthful) (hok : ∀ p ∈ s.wakes a, s.ledger.Undisturbed p) (h : s.step a = some s')
    : s'.IdlePlain ∧ s'.ledger.Orderly ∧ s'.ledger.Truthful := by
  obtain ⟨e, henabled, heq, harises⟩ := step_simulates hplain horder h
  rw [heq]
  refine ⟨hplain.step h, horder.apply henabled, htrue.apply horder henabled ?_⟩
  intro p he
  subst he
  exact hok p harises

theorem readable_step {s s' : Kernel} {a : Act} (hplain : s.IdlePlain) (horder : s.ledger.Orderly)
    (htrue : s.ledger.Truthful) (hread : s.ledger.Readable) (hok : s.Checkable a) (h : s.step a = some s')
    : s'.ledger.Readable := by
  obtain ⟨e, henabled, heq, harises⟩ := step_simulates hplain horder h
  rw [heq]
  exact hread.apply horder htrue henabled (harises.acceptable hok)

theorem truthful_of_ledger {s : Kernel} (horder : s.ledger.Orderly) (htrue : s.ledger.Truthful)
    : s.Truthful := by
  intro hphase i p hp hpid
  have hstage : s.ledger.stage = .running := by
    rw [ledger, hphase]
    rfl
  have hletter : lastLetter s.log (s.mem p).pid = s.ledger.expected p :=
    (htrue p ⟨i, hp⟩ hpid).resolve_left (by simp [hstage])
  have hfront : s.ledger.front = s.current := by
    rw [ledger_front]
    simp [front, hphase]
  rw [hletter]
  by_cases hcurrent : p = s.current
  . subst hcurrent
    have hrunning : (s.mem s.current).state = .TASK_RUNNING := horder.running (.inl hstage) hpid
    have hr : s.ledger.expected s.current = some .R := by
      unfold Ledger.expected
      rw [if_pos ⟨hfront.symm, hrunning, by simp [hstage]⟩]
    rw [hr, hrunning]
    simp [TaskState.asleep]
  . rw [Ledger.expected_of_ne (by rw [hfront]; exact hcurrent)]
    have hstate : s.ledger.state p = (s.mem p).state := rfl
    rw [hstate]
    cases (s.mem p).state <;> simp [letterOf, TaskState.asleep, hcurrent]

theorem truthful_of_wakesOthers {jiffies : BitVec 32} {s : Kernel}
    (h : Run.Reaches step WakesOthers (init jiffies) s)
    : s.Truthful := by
  have hinv : s.IdlePlain ∧ s.ledger.Orderly ∧ s.ledger.Truthful := by
    refine h.invariant (fun s => s.IdlePlain ∧ s.ledger.Orderly ∧ s.ledger.Truthful) ?_ ?_
    . exact ⟨init_idlePlain jiffies, init_orderly jiffies, init_truthful jiffies⟩
    . intro s s' a ⟨hplain, horder, htrue⟩ hok hstep
      exact truthful_step hplain horder htrue (fun p hp => (hok p hp).ledger) hstep
  exact truthful_of_ledger hinv.right.left hinv.right.right

def firstSwitch : List Act :=
  ([.enter, .fork (some 1) true, .go, .pause] : List Act) ++ List.replicate 69 Act.go

-- The first task pauses with a signal pending: `schedule` wakes it and gives it the CPU again.
def pauseWithSignal : List Act :=
  firstSwitch ++ ([.enter, .signal 1 (signalBit SIGALRM), .pause] : List Act) ++ List.replicate 66 Act.go
    ++ ([.leave, .go] : List Act)

def sleepAndWake : List Act :=
  firstSwitch ++ ([.enter, .fork (some 2) true, .go, .sleepOn 0] : List Act) ++ List.replicate 69 Act.go
    ++ ([.interrupt 0] : List Act)

theorem truthful_sleepAndWake
    : ∃ s, Run.Reaches step WakesOthers (init 48) s ∧ s.phase = .user ∧ s.current = 2 ∧ s.Truthful := by
  have hrun : (Run.exec step (init 48) sleepAndWake).map (fun s => (s.phase, s.current)) = some (.user, 2) := by
    decide +kernel
  obtain ⟨s, hs, hfacts⟩ := Option.map_eq_some_iff.mp hrun
  simp only [Prod.mk.injEq] at hfacts
  have hok : Run.AllOk step WakesOthers (init 48) sleepAndWake := by decide +kernel
  have hreach := Run.Reaches.of_exec hok hs
  exact ⟨s, hreach, hfacts.left, hfacts.right, truthful_of_wakesOthers hreach⟩

theorem not_truthful_of_pauseWithSignal
    : ¬ ∀ jiffies s, Run.Reaches step (fun _ _ => True) (init jiffies) s → s.Truthful := by
  intro hall
  have hrun : (Run.exec step (init 48) pauseWithSignal).map
      (fun s => (s.phase, s.current, s.task 1, (s.mem 1).pid, lastLetter s.log 1))
        = some (.user, 1, some 1, 1, some .J) := by
    decide +kernel
  obtain ⟨s, hs, hfacts⟩ := Option.map_eq_some_iff.mp hrun
  simp only [Prod.mk.injEq] at hfacts
  obtain ⟨hphase, hcurrent, htask, hpid, hletter⟩ := hfacts
  have hreach := Run.Reaches.of_exec (Run.allOk_of_forall (fun _ _ => trivial)) hs
  have htrue := hall 48 s hreach hphase 1 1 htask (by simp [hpid])
  have hj := htrue.right.left
  rw [hpid, hletter, hcurrent] at hj
  simp at hj

theorem accepted_of_checkable {jiffies : BitVec 32} (hjiffies : 40 ≤ jiffies.toInt) {s : Kernel}
    (h : Run.Reaches step Checkable (init jiffies) s)
    : ∃ c, StatLog.check StatLog.init s.log = .ok c := by
  have hinv : (s.IdlePlain ∧ s.ledger.Orderly ∧ s.ledger.Truthful) ∧ s.ledger.Readable := by
    refine h.invariant
      (fun s => (s.IdlePlain ∧ s.ledger.Orderly ∧ s.ledger.Truthful) ∧ s.ledger.Readable) ?_ ?_
    . exact ⟨⟨init_idlePlain jiffies, init_orderly jiffies, init_truthful jiffies⟩, init_readable hjiffies⟩
    . intro s s' a ⟨⟨hplain, horder, htrue⟩, hread⟩ hok hstep
      constructor
      . apply truthful_step hplain horder htrue _ hstep
        intro p hp
        exact (hok.left p hp).ledger.undisturbed horder
      . exact readable_step hplain horder htrue hread hok hstep
  obtain ⟨c, hcheck, _⟩ := hinv.right.accepted
  exact ⟨c, hcheck⟩

theorem accepted_sleepAndWake
    : ∃ s, Run.Reaches step Checkable (init 48) s ∧ s.log.length = 8
        ∧ ∃ c, StatLog.check StatLog.init s.log = .ok c := by
  have hrun : (Run.exec step (init 48) sleepAndWake).map (fun s => s.log.length) = some 8 := by decide +kernel
  obtain ⟨s, hs, hlength⟩ := Option.map_eq_some_iff.mp hrun
  have hok : Run.AllOk step Checkable (init 48) sleepAndWake := by decide +kernel
  have hreach := Run.Reaches.of_exec hok hs
  exact ⟨s, hreach, hlength, accepted_of_checkable (by decide) hreach⟩

-- As `pauseWithSignal`, but there is a second task that gets the CPU: the first one has two `J` lines, with a
-- tick between them.
def readyTwice : List Act :=
  firstSwitch ++ ([.enter, .fork (some 2) true, .go, .signal 1 (signalBit SIGALRM), .pause] : List Act)
    ++ List.replicate 64 Act.go ++ ([.tick, .go, .go] : List Act)

theorem not_accepted_of_readyTwice
    : ¬ ∀ jiffies s, 40 ≤ jiffies.toInt → Run.Reaches step (fun _ _ => True) (init jiffies) s →
        ∃ c, StatLog.check StatLog.init s.log = .ok c := by
  intro hall
  have hrun : (Run.exec step (init 48) readyTwice).map (fun s => StatLog.check StatLog.init s.log)
      = some (.error (.RepeatState 1)) := by
    decide +kernel
  obtain ⟨s, hs, hcheck⟩ := Option.map_eq_some_iff.mp hrun
  have hreach := Run.Reaches.of_exec (Run.allOk_of_forall (fun _ _ => trivial)) hs
  obtain ⟨c, hc⟩ := hall 48 s (by decide) hreach
  rw [hcheck] at hc
  simp at hc

end Kernel
end OS
