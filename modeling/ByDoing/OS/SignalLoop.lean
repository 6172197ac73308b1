import ByDoing.OS.ProcessLog

namespace OS

-- What the current task goes on with after the `schedule` it is in.
def Phase.frame? : Phase → Option Frame
  | .signals _ frame => some frame
  | .select frame => some frame
  | .ready _ frame => some frame
  | .run _ frame => some frame
  | .switch _ frame => some frame
  | .resumed frame => some frame
  | _ => none

-- `sys_waitpid` for any child.
def Frame.waitsForAny : Frame → Bool
  | .waitpid args => args.pid == -1
  | _ => false

def Phase.waitsForAny (phase : Phase) : Bool :=
  phase.frame?.any Frame.waitsForAny

namespace Task

def roused (t : Task) (jiffies : BitVec 32) : Bool :=
  (t.checkAlarm jiffies).hasSignal

theorem hasSignal_iff {t : Task}
    : t.hasSignal = true ↔ ∃ k, t.signal.getLsbD k = true ∧ (~~~(BLOCKABLE &&& t.blocked)).getLsbD k = true := by
  unfold hasSignal
  rw [bne_iff_ne]
  constructor
  . intro hne
    by_contra hnone
    apply hne
    apply BitVec.eq_of_getLsbD_eq
    intro k _
    rw [BitVec.getLsbD_and, show (0 : BitVec 32).getLsbD k = false from BitVec.getLsbD_zero,
      Bool.and_eq_false_imp]
    intro hsignal
    by_contra hset
    exact hnone ⟨k, hsignal, (Bool.not_eq_false _).mp hset⟩
  . intro ⟨k, hsignal, hmask⟩ hzero
    have hbit := congrArg (fun b => b.getLsbD k) hzero
    simp only [BitVec.getLsbD_and, hsignal, hmask] at hbit
    simp at hbit

theorem hasSignal_mono {t t' : Task} (hblocked : t'.blocked = t.blocked)
    (hsignal : ∀ k, t.signal.getLsbD k = true → t'.signal.getLsbD k = true) (h : t.hasSignal = true)
    : t'.hasSignal = true := by
  obtain ⟨k, hbit, hmask⟩ := hasSignal_iff.mp h
  rw [← hblocked] at hmask
  exact hasSignal_iff.mpr ⟨k, hsignal k hbit, hmask⟩

theorem blocked_checkAlarm (t : Task) (jiffies : BitVec 32) : (t.checkAlarm jiffies).blocked = t.blocked := by
  unfold checkAlarm
  split <;> rfl

theorem signal_checkAlarm (t : Task) (jiffies : BitVec 32) (k : Nat)
    : (t.checkAlarm jiffies).signal.getLsbD k = true ↔
        t.signal.getLsbD k = true
          ∨ (t.alarm != 0 && t.alarm.slt jiffies) = true ∧ (signalBit SIGALRM).getLsbD k = true := by
  unfold checkAlarm
  split
  . next halarm =>
    rw [halarm]
    simp [raise]
  . next halarm =>
    rw [Bool.not_eq_true] at halarm
    rw [halarm]
    simp

theorem roused_mono {t t' : Task} {jiffies jiffies' : BitVec 32} (hblocked : t'.blocked = t.blocked)
    (hsignal : ∀ k, t.signal.getLsbD k = true → t'.signal.getLsbD k = true)
    (halarm : (t.alarm != 0 && t.alarm.slt jiffies) = true → (t'.alarm != 0 && t'.alarm.slt jiffies') = true)
    (h : t.roused jiffies = true)
    : t'.roused jiffies' = true := by
  unfold roused at h ⊢
  apply hasSignal_mono _ _ h
  . rw [blocked_checkAlarm, blocked_checkAlarm, hblocked]
  . intro k
    rw [signal_checkAlarm, signal_checkAlarm]
    exact Or.imp (hsignal k) (And.imp_left halarm)

theorem roused_of_hasSignal {t : Task} (h : t.hasSignal = true) (jiffies : BitVec 32)
    : t.roused jiffies = true := by
  apply hasSignal_mono (blocked_checkAlarm t jiffies) _ h
  intro k hbit
  exact (signal_checkAlarm t jiffies k).mpr (.inl hbit)

theorem roused_raise {t : Task} {jiffies : BitVec 32} (h : t.roused jiffies = true) (bits : BitVec 32)
    : (t.raise bits).roused jiffies = true := by
  refine roused_mono (t := t) rfl ?_ id h
  intro k hbit
  simp [raise, hbit]

theorem roused_father {t : Task} {jiffies : BitVec 32} (h : t.roused jiffies = true) (father : Int)
    : { t with father }.roused jiffies = true :=
  roused_mono (t := t) rfl (fun _ => id) id h

theorem roused_checkAlarm {t : Task} {jiffies : BitVec 32} (h : t.roused jiffies = true)
    : (t.checkAlarm jiffies).roused jiffies = true :=
  roused_of_hasSignal h jiffies

theorem slt_succ {a jiffies : BitVec 32} (h : a.slt jiffies = true) (hwrap : jiffies ≠ BitVec.intMax 32)
    : a.slt (jiffies + 1) = true := by
  rw [BitVec.slt_iff_toInt_lt] at h ⊢
  exact Int.lt_of_lt_of_le h (Kernel.toInt_le_toInt_succ hwrap)

theorem roused_succ {t : Task} {jiffies : BitVec 32} (h : t.roused jiffies = true)
    (hwrap : jiffies ≠ BitVec.intMax 32)
    : t.roused (jiffies + 1) = true := by
  refine roused_mono rfl (fun _ => id) ?_ h
  rw [Bool.and_eq_true, Bool.and_eq_true]
  exact And.imp_right (fun hslt => slt_succ hslt hwrap)

structure Keeps (t t' : Task) (jiffies jiffies' : BitVec 32) : Prop where
  pid : t'.pid = t.pid
  father : t'.father = t.father
  zombie : t'.state = .TASK_ZOMBIE → t.state = .TASK_ZOMBIE
  asleep : t'.state = .TASK_INTERRUPTIBLE → t.state = .TASK_INTERRUPTIBLE
  roused : t'.state = .TASK_INTERRUPTIBLE → t.roused jiffies = true → t'.roused jiffies' = true

theorem Keeps.same (t : Task) (jiffies : BitVec 32) : Keeps t t jiffies jiffies :=
  ⟨rfl, rfl, id, id, fun _ => id⟩

theorem Keeps.awake {t t' : Task} {jiffies jiffies' : BitVec 32} (hpid : t'.pid = t.pid)
    (hfather : t'.father = t.father) (hstate : t'.state = .TASK_RUNNING)
    : Keeps t t' jiffies jiffies' := by
  constructor <;> simp [hpid, hfather, hstate]

theorem Keeps.unread {t t' : Task} {jiffies : BitVec 32} (hpid : t'.pid = t.pid)
    (hfather : t'.father = t.father) (hstate : t'.state = t.state) (hsignal : t'.signal = t.signal)
    (hblocked : t'.blocked = t.blocked) (halarm : t'.alarm = t.alarm)
    : Keeps t t' jiffies jiffies := by
  refine ⟨hpid, hfather, fun h => hstate ▸ h, fun h => hstate ▸ h, ?_⟩
  intro _
  apply roused_mono hblocked
  . rw [hsignal]
    exact fun _ => id
  . rw [halarm]
    exact id

theorem Keeps.raise (t : Task) (jiffies bits : BitVec 32) : Keeps t (t.raise bits) jiffies jiffies :=
  ⟨rfl, rfl, id, id, fun _ h => roused_raise h bits⟩

theorem Keeps.checkAlarm (t : Task) (jiffies : BitVec 32)
    : Keeps t (t.checkAlarm jiffies) jiffies jiffies := by
  have hfields : (t.checkAlarm jiffies).pid = t.pid ∧ (t.checkAlarm jiffies).father = t.father
      ∧ (t.checkAlarm jiffies).state = t.state := by
    unfold Task.checkAlarm
    split <;> exact ⟨rfl, rfl, rfl⟩
  obtain ⟨hpid, hfather, hstate⟩ := hfields
  exact ⟨hpid, hfather, fun h => hstate ▸ h, fun h => hstate ▸ h, fun _ => roused_checkAlarm⟩

end Task

namespace Kernel

def frameOf (s : Kernel) (p : Page) : Option Frame :=
  if p = s.current then s.phase.frame? else some (s.frame p)

-- The task sleeps in `sys_waitpid(-1, ...)`.
def Waits (s : Kernel) (p : Page) : Prop :=
  (s.mem p).state = .TASK_INTERRUPTIBLE ∧ (s.frameOf p).any Frame.waitsForAny = true

-- `do_exit` has called `tell_father`, and the task has not been released.
def Zombie (s : Kernel) (c : Page) : Prop :=
  (s.mem c).state = .TASK_ZOMBIE ∧ ¬(s.phase = .exited ∧ c = s.current)

/--
The signal loop of `schedule` makes every task runnable that sleeps in `sys_waitpid(-1, ...)` and has a
zombie child.
-/
def NoneStranded (s : Kernel) : Prop :=
  ∀ i p j c, s.task i = some p → s.task j = some c → s.Waits p → c ≠ p →
    (s.mem c).father = (s.mem p).pid → s.Zombie c →
      i ∈ lastToFirst ∧ (s.mem p).roused s.jiffies = true

structure KeepsTask (s s' : Kernel) (p : Page) : Prop where
  pid : (s'.mem p).pid = (s.mem p).pid
  father : (s'.mem p).father = (s.mem p).father
  zombie : s'.Zombie p → s.Zombie p
  waits : s'.Waits p → s.Waits p
  roused : s'.Waits p → (s.mem p).roused s.jiffies = true → (s'.mem p).roused s'.jiffies = true

-- A step that puts no task to sleep in `sys_waitpid` and makes no zombie.
structure Keeps (s s' : Kernel) : Prop where
  task : ∀ i p, s'.task i = some p → s.task i = some p
  kept : ∀ i p, s'.task i = some p → s.KeepsTask s' p

theorem NoneStranded.of_kept {s s' : Kernel} (hnone : s.NoneStranded)
    (h : ∀ i p, s'.task i = some p → s'.Waits p ∨ s'.Zombie p → s.task i = some p ∧ s.KeepsTask s' p)
    : s'.NoneStranded := by
  intro i p j c hp hc hwaits hne hfather hzombie
  obtain ⟨hp', hkp⟩ := h i p hp (.inl hwaits)
  obtain ⟨hc', hkc⟩ := h j c hc (.inr hzombie)
  rw [hkc.father, hkp.pid] at hfather
  obtain ⟨hslot, hroused⟩ := hnone i p j c hp' hc' (hkp.waits hwaits) hne hfather (hkc.zombie hzombie)
  exact ⟨hslot, hkp.roused hwaits hroused⟩

theorem Keeps.noneStranded {s s' : Kernel} (h : s.Keeps s') (hnone : s.NoneStranded)
    : s'.NoneStranded :=
  hnone.of_kept fun i p hp _ => ⟨h.task i p hp, h.kept i p hp⟩

theorem Keeps.trans {s s' s'' : Kernel} (h : s.Keeps s') (h' : s'.Keeps s'') : s.Keeps s'' := by
  constructor
  . intro i p hp
    exact h.task i p (h'.task i p hp)
  . intro i p hp
    have hk' := h'.kept i p hp
    have hk := h.kept i p (h'.task i p hp)
    refine ⟨hk'.pid.trans hk.pid, hk'.father.trans hk.father, hk.zombie ∘ hk'.zombie, hk.waits ∘ hk'.waits, ?_⟩
    intro hwaits hroused
    exact hk'.roused hwaits (hk.roused (hk'.waits hwaits) hroused)

theorem KeepsTask.same (s : Kernel) (p : Page) : s.KeepsTask s p :=
  ⟨rfl, rfl, id, id, fun _ => id⟩

theorem Keeps.same (s : Kernel) : s.Keeps s :=
  ⟨fun _ _ => id, fun _ p _ => KeepsTask.same s p⟩

theorem zombie_of_ne {s : Kernel} {p : Page} (hne : p ≠ s.current)
    : s.Zombie p ↔ (s.mem p).state = .TASK_ZOMBIE := by
  simp [Zombie, hne]

theorem waits_of_ne {s : Kernel} {p : Page} (hne : p ≠ s.current)
    : s.Waits p ↔ (s.mem p).state = .TASK_INTERRUPTIBLE ∧ (s.frame p).waitsForAny = true := by
  simp [Waits, frameOf, hne]

theorem waits_current {s : Kernel}
    : s.Waits s.current ↔
        (s.mem s.current).state = .TASK_INTERRUPTIBLE ∧ s.phase.waitsForAny = true := by
  simp [Waits, frameOf, Phase.waitsForAny]

theorem KeepsTask.other {s s' : Kernel} {p : Page} (hne : p ≠ s.current) (hcurrent : s'.current = s.current)
    (hframe : s'.frame p = s.frame p) (h : (s.mem p).Keeps (s'.mem p) s.jiffies s'.jiffies)
    : s.KeepsTask s' p := by
  have hne' : p ≠ s'.current := by
    rw [hcurrent]
    exact hne
  refine ⟨h.pid, h.father, ?_, ?_, ?_⟩
  . rw [zombie_of_ne hne, zombie_of_ne hne']
    exact h.zombie
  . rw [waits_of_ne hne, waits_of_ne hne', hframe]
    exact And.imp_left h.asleep
  . intro hwaits
    exact h.roused hwaits.left

theorem KeepsTask.current {s s' : Kernel} (hcurrent : s'.current = s.current)
    (h : (s.mem s.current).Keeps (s'.mem s.current) s.jiffies s'.jiffies)
    (hwaits : s'.phase.waitsForAny = true → s.phase.waitsForAny = true)
    (hexited : s.phase = .exited → s'.phase = .exited)
    : s.KeepsTask s' s.current := by
  refine ⟨h.pid, h.father, ?_, ?_, ?_⟩
  . intro ⟨hstate, hnot⟩
    refine ⟨h.zombie hstate, ?_⟩
    intro hself
    exact hnot ⟨hexited hself.left, hcurrent.symm⟩
  . rw [waits_current, ← hcurrent, waits_current, hcurrent]
    exact And.imp h.asleep hwaits
  . intro hw
    exact h.roused hw.left

theorem KeepsTask.currentAwake {s s' : Kernel}
    (hpid : (s'.mem s.current).pid = (s.mem s.current).pid)
    (hfather : (s'.mem s.current).father = (s.mem s.current).father)
    (hzombie : s'.Zombie s.current → s.Zombie s.current) (hwaits : ¬s'.Waits s.current)
    : s.KeepsTask s' s.current :=
  ⟨hpid, hfather, hzombie, fun h => absurd h hwaits, fun h => absurd h hwaits⟩

theorem KeepsTask.unchanged {s s' : Kernel} {p : Page} (hmem : s'.mem p = s.mem p)
    (hjiffies : s'.jiffies = s.jiffies) (hframe : s'.frame p = s.frame p) (hcurrent : s'.current = s.current)
    (hwaits : s'.phase.waitsForAny = true → s.phase.waitsForAny = true)
    (hexited : s.phase = .exited → s'.phase = .exited)
    : s.KeepsTask s' p := by
  have hkeeps : (s.mem p).Keeps (s'.mem p) s.jiffies s'.jiffies := by
    rw [hmem, hjiffies]
    exact Task.Keeps.same _ _
  by_cases hp : p = s.current
  . subst hp
    exact KeepsTask.current hcurrent hkeeps hwaits hexited
  . exact KeepsTask.other hp hcurrent hframe hkeeps

theorem Keeps.of {s s' : Kernel} (htask : ∀ i p, s'.task i = some p → s.task i = some p)
    (hcurrent : s'.current = s.current) (hframe : s'.frame = s.frame)
    (hother : ∀ p, p ≠ s.current → (s.mem p).Keeps (s'.mem p) s.jiffies s'.jiffies)
    (hself : s.KeepsTask s' s.current)
    : s.Keeps s' := by
  refine ⟨htask, ?_⟩
  intro i p _
  by_cases hp : p = s.current
  . exact hp ▸ hself
  . exact KeepsTask.other hp hcurrent (congrFun hframe p) (hother p hp)

theorem Keeps.phase {s : Kernel} {phase : Phase}
    (hwaits : phase.waitsForAny = true → s.phase.waitsForAny = true)
    (hexited : s.phase = .exited → phase = .exited)
    : s.Keeps { s with phase } :=
  Keeps.of (fun _ _ => id) rfl rfl (fun _ _ => Task.Keeps.same _ _)
    (KeepsTask.current rfl (Task.Keeps.same _ _) hwaits hexited)

theorem Keeps.leave {s : Kernel} {phase : Phase} (hwaits : phase.waitsForAny = false) (h : s.phase ≠ .exited)
    : s.Keeps { s with phase } :=
  Keeps.phase (by simp [hwaits]) (fun hexited => absurd hexited h)

theorem Keeps.queue (s : Kernel) (queue : Nat → Option Page) : s.Keeps { s with queue } :=
  Keeps.of (fun _ _ => id) rfl rfl (fun _ _ => Task.Keeps.same _ _)
    (KeepsTask.current rfl (Task.Keeps.same _ _) id id)

theorem Keeps.mem {s : Kernel} {mem : Page → Task} (h : ∀ p, (s.mem p).Keeps (mem p) s.jiffies s.jiffies)
    : s.Keeps { s with mem } :=
  Keeps.of (fun _ _ => id) rfl rfl (fun p _ => h p) (KeepsTask.current rfl (h s.current) id id)

theorem Keeps.setTask {s : Kernel} {p : Page} {t : Task} (h : (s.mem p).Keeps t s.jiffies s.jiffies)
    : s.Keeps (s.setTask p t) := by
  apply Keeps.mem
  intro q
  by_cases hq : q = p
  . subst hq
    rw [Function.update_self]
    exact h
  . rw [Function.update_of_ne hq]
    exact Task.Keeps.same _ _

theorem Keeps.wake (s : Kernel) (p : Page) : s.Keeps (s.wake p).fst :=
  Keeps.setTask (Task.Keeps.awake rfl rfl rfl)

theorem Keeps.setSlot {s : Kernel} (i : Slot) {f : Task → Task}
    (h : ∀ t : Task, t.Keeps (f t) s.jiffies s.jiffies)
    : s.Keeps (s.setSlot i f) := by
  unfold Kernel.setSlot
  split
  . exact Keeps.same s
  . exact Keeps.setTask (h _)

theorem Keeps.release {s : Kernel} (i : Slot) : s.Keeps { s with task := Function.update s.task i none } := by
  apply Keeps.of
  . intro j p hp
    by_cases hj : j = i
    . subst hj
      simp at hp
    . simpa [Function.update_of_ne hj] using hp
  . rfl
  . rfl
  . intro p _
    exact Task.Keeps.same _ _
  . exact KeepsTask.current rfl (Task.Keeps.same _ _) id id

theorem Keeps.setCurrent {s : Kernel} {f : Task → Task} {phase : Phase}
    (hpid : (f (s.mem s.current)).pid = (s.mem s.current).pid)
    (hfather : (f (s.mem s.current)).father = (s.mem s.current).father)
    (hzombie : { s.setCurrent f with phase }.Zombie s.current → s.Zombie s.current)
    (hwaits : ¬{ s.setCurrent f with phase }.Waits s.current)
    : s.Keeps { s.setCurrent f with phase } := by
  apply Keeps.of
  . exact fun _ _ => id
  . rfl
  . rfl
  . intro p hp
    rw [show ({ s.setCurrent f with phase } : Kernel).mem p = s.mem p from Function.update_of_ne hp _ _]
    exact Task.Keeps.same _ _
  . apply KeepsTask.currentAwake
    . rw [show ({ s.setCurrent f with phase } : Kernel).mem s.current = f (s.mem s.current) from
        Function.update_self _ _ _]
      exact hpid
    . rw [show ({ s.setCurrent f with phase } : Kernel).mem s.current = f (s.mem s.current) from
        Function.update_self _ _ _]
      exact hfather
    . exact hzombie
    . exact hwaits

theorem not_waits_of_phase {s : Kernel} (h : s.phase.waitsForAny = false) : ¬s.Waits s.current := by
  rw [waits_current, h]
  simp

theorem Keeps.sleep {s : Kernel} {state : TaskState} {frame : Frame} (hstate : state ≠ .TASK_ZOMBIE)
    (hframe : frame.waitsForAny = false)
    : s.Keeps (s.sleep state frame).fst := by
  have hset := @Keeps.setCurrent s (fun t => { t with state }) (.signals lastToFirst frame) rfl rfl
  apply hset
  . intro hzombie
    have heq := hzombie.left
    rw [show ({ s.setCurrent (fun t => { t with state }) with phase := .signals lastToFirst frame } :
      Kernel).mem s.current = { s.mem s.current with state } from Function.update_self _ _ _] at heq
    exact absurd heq hstate
  . apply not_waits_of_phase
    exact hframe

theorem Keeps.switchTo {s : Kernel} {p : Page} {frame : Frame} (hphase : s.phase.frame? = some frame)
    (hexited : s.phase ≠ .exited)
    : s.Keeps (s.switchTo p frame) := by
  have hmem : (s.switchTo p frame).mem = s.mem := by
    unfold Kernel.switchTo
    split <;> rfl
  have hjiffies : (s.switchTo p frame).jiffies = s.jiffies := by
    unfold Kernel.switchTo
    split <;> rfl
  have htask : (s.switchTo p frame).task = s.task := by
    unfold Kernel.switchTo
    split <;> rfl
  have hframe : ∀ q, (s.switchTo p frame).frameOf q = s.frameOf q := by
    intro q
    unfold Kernel.switchTo
    split
    . unfold frameOf
      rw [hphase]
      rfl
    . next hne =>
      unfold frameOf
      by_cases hq : q = s.current
      . subst hq
        simp [Ne.symm hne, hphase]
      . by_cases hqp : q = p
        . subst hqp
          simp [hq, Phase.frame?]
        . simp [hq, hqp]
  refine ⟨fun i q hq => htask ▸ hq, ?_⟩
  intro i q _
  refine ⟨by rw [hmem], by rw [hmem], ?_, ?_, ?_⟩
  . intro hzombie
    refine ⟨hmem ▸ hzombie.left, ?_⟩
    intro hself
    exact hexited hself.left
  . unfold Waits
    rw [hmem, hframe]
    exact id
  . rw [hmem, hjiffies]
    exact fun _ => id

end Kernel
end OS
