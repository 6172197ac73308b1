import ByDoing.OS.Kernel

namespace OS

-- Task 0 waits in no other way than in `pause`.
def Frame.plain : Frame → Bool
  | .user => true
  | .ret => true
  | .kernel => true
  | .sleepOn _ => false
  | .interruptibleSleepOn _ _ => false
  | .waitpid _ => false

def Phase.plain : Phase → Bool
  | .user => true
  | .ret => true
  | .kernel => true
  | .forked _ => true
  | .exited => false
  | .signals _ frame => frame.plain
  | .select frame => frame.plain
  | .ready _ frame => frame.plain
  | .run _ frame => frame.plain
  | .switch _ frame => frame.plain
  | .resumed frame => frame.plain
  | .again _ _ => false

namespace Kernel

def IdlePlain (s : Kernel) : Prop :=
  ∀ p, s.task 0 = some p → (s.frame p).plain = true ∧ (s.current = p → s.phase.plain = true)

def written : Move → Kernel
  | (s, none) => s
  | (s, some (p, letter)) => s.fprintk p letter

theorem step_eq (s : Kernel) (a : Act) : s.step a = (s.move a).map written := by
  unfold step
  cases s.move a with
  | none => rfl
  | some m =>
    obtain ⟨s', line⟩ := m
    cases line <;> rfl

theorem scan_zombie {s : Kernel} {args : WaitArgs} {flag : Bool} {slots : List Slot} {i : Slot}
    (h : sysWaitpid.scan s args flag slots = .zombie i)
    : i ∈ slots ∧ s.task i ≠ some s.current := by
  induction slots generalizing flag with
  | nil =>
    unfold sysWaitpid.scan at h
    split at h <;> simp at h
  | cons j slots ih =>
    have hcons : ∀ {flag}, sysWaitpid.scan s args flag slots = .zombie i →
        i ∈ j :: slots ∧ s.task i ≠ some s.current := by
      intro flag hscan
      obtain ⟨hmem, hne⟩ := ih hscan
      exact ⟨List.mem_cons_of_mem j hmem, hne⟩
    unfold sysWaitpid.scan at h
    split at h
    . exact hcons h
    . next p hp =>
      split at h
      . next hchild =>
        split at h
        . split at h
          . simp at h
          . exact hcons h
        . simp only [sysWaitpid.Scan.zombie.injEq] at h
          subst h
          refine ⟨List.mem_cons_self, ?_⟩
          intro heq
          rw [hp, Option.some.injEq] at heq
          simp [sysWaitpid.isChild, heq] at hchild
        . exact hcons h
      . exact hcons h

theorem inTable_iff {s : Kernel} {p : Page} : s.inTable p = true ↔ ∃ i, s.task i = some p := by
  simp [inTable]

theorem IdlePlain.keep {s s' : Kernel} (h : s.IdlePlain) (htask : s'.task 0 = s.task 0)
    (hframe : ∀ p, s.task 0 = some p → s'.frame p = s.frame p) (hcurrent : s'.current = s.current)
    (hphase : s.task 0 = some s.current → s.phase.plain = true → s'.phase.plain = true)
    : s'.IdlePlain := by
  intro p hp
  rw [htask] at hp
  obtain ⟨hplain, hself⟩ := h p hp
  constructor
  . rw [hframe p hp]
    exact hplain
  . intro heq
    rw [hcurrent] at heq
    apply hphase
    . rw [heq, hp]
    . exact hself heq

theorem IdlePlain.toPlain {s s' : Kernel} (h : s.IdlePlain) (htask : s'.task = s.task)
    (hframe : s'.frame = s.frame) (hcurrent : s'.current = s.current) (hphase : s'.phase.plain = true)
    : s'.IdlePlain :=
  h.keep (congrFun htask 0) (fun p _ => congrFun hframe p) hcurrent (fun _ _ => hphase)

theorem IdlePlain.samePhase {s s' : Kernel} (h : s.IdlePlain) (htask : s'.task = s.task)
    (hframe : s'.frame = s.frame) (hcurrent : s'.current = s.current) (hphase : s'.phase = s.phase)
    : s'.IdlePlain :=
  h.keep (congrFun htask 0) (fun p _ => congrFun hframe p) hcurrent (fun _ hplain => hphase ▸ hplain)

theorem IdlePlain.notIdle {s s' : Kernel} (h : s.IdlePlain) (htask : s'.task = s.task)
    (hframe : s'.frame = s.frame) (hcurrent : s'.current = s.current) (hidle : s.task 0 ≠ some s.current)
    : s'.IdlePlain :=
  h.keep (congrFun htask 0) (fun p _ => congrFun hframe p) hcurrent (fun heq _ => absurd heq hidle)

theorem IdlePlain.switchTo {s : Kernel} (h : s.IdlePlain) {frame : Frame}
    (hphase : s.phase.plain = frame.plain) (p : Page)
    : (s.switchTo p frame).IdlePlain := by
  unfold Kernel.switchTo
  split
  . refine h.keep rfl (fun _ _ => rfl) rfl ?_
    intro _ hplain
    exact hphase.symm.trans hplain
  . next hne =>
    intro q hq
    obtain ⟨hplain, hself⟩ := h q hq
    have hframe : (Function.update s.frame s.current frame q).plain = true := by
      by_cases heq : q = s.current
      . rw [heq, Function.update_self]
        exact hphase.symm.trans (hself heq.symm)
      . rw [Function.update_of_ne heq]
        exact hplain
    refine ⟨hframe, ?_⟩
    intro heq
    subst heq
    exact hplain

theorem IdlePlain.sysWaitpid {s : Kernel} (h : s.IdlePlain) (hidle : s.task 0 ≠ some s.current)
    (args : WaitArgs)
    : (s.sysWaitpid args).fst.IdlePlain := by
  unfold Kernel.sysWaitpid
  split
  . next i hscan =>
    have hne := mem_lastToFirst (scan_zombie hscan).left
    refine h.keep ?_ (fun _ _ => rfl) rfl (fun _ _ => rfl)
    exact Function.update_of_ne (Ne.symm hne) _ _
  . split
    . exact h.toPlain rfl rfl rfl rfl
    . exact h.notIdle rfl rfl rfl hidle
  . exact h.toPlain rfl rfl rfl rfl

theorem IdlePlain.tellFather {s s' : Kernel} (h : s.IdlePlain) (heq : s.tellFather = some s')
    : s'.IdlePlain := by
  unfold Kernel.tellFather at heq
  dsimp only at heq
  split at heq
  . cases heq
    exact h.toPlain rfl rfl rfl rfl
  . split at heq
    . simp at heq
    . next i hfind =>
      cases heq
      have hmem := List.mem_of_find?_eq_some hfind
      have hall : ∀ i ∈ (List.finRange NR_TASKS).drop 1, i ≠ 0 := by decide
      refine h.keep ?_ (fun _ _ => rfl) rfl (fun _ _ => rfl)
      exact Function.update_of_ne (Ne.symm (hall i hmem)) _ _

theorem IdlePlain.sysFork {s : Kernel} {m : Move} {page : Option Page} {memOk : Bool} (h : s.IdlePlain)
    (heq : s.sysFork page memOk = some m)
    : m.fst.IdlePlain := by
  unfold Kernel.sysFork at heq
  split at heq
  . simp at heq
  . next pid nr? hfind =>
    split at heq
    . next nr p =>
      split at heq
      . simp at heq
      . next hnew =>
        rw [Bool.or_eq_true, not_or, inTable_iff] at hnew
        obtain ⟨_, hslot⟩ := findEmptyProcess_spec hfind
        dsimp only at heq
        split at heq
        . cases heq
          apply h.keep
          . exact Function.update_of_ne (Ne.symm (hslot nr rfl).left) _ _
          . intro q hq
            apply Function.update_of_ne
            intro hqp
            exact hnew.left ⟨0, hqp ▸ hq⟩
          . rfl
          . intro _ _
            rfl
        . cases heq
          exact h.samePhase rfl rfl rfl rfl
    . cases heq
      exact h.samePhase rfl rfl rfl rfl

theorem IdlePlain.resume {s : Kernel} (h : s.IdlePlain) {frame : Frame} (hphase : s.phase = .resumed frame)
    : (s.resume frame).fst.IdlePlain := by
  cases frame with
  | user => exact h.toPlain rfl rfl rfl rfl
  | ret => exact h.toPlain rfl rfl rfl rfl
  | kernel => exact h.toPlain rfl rfl rfl rfl
  | sleepOn tmp =>
    cases tmp <;> exact h.toPlain rfl rfl rfl rfl
  | interruptibleSleepOn q tmp =>
    have htail : (resume.resumeTail s q tmp).fst.IdlePlain := by
      unfold resume.resumeTail
      dsimp only
      split <;> exact h.toPlain rfl rfl rfl rfl
    have hbusy : s.phase.plain ≠ true := by
      rw [hphase]
      simp [Phase.plain, Frame.plain]
    dsimp only [Kernel.resume]
    split
    . split
      . exact htail
      . exact h.keep rfl (fun _ _ => rfl) rfl (fun _ hplain => absurd hplain hbusy)
    . exact htail
  | waitpid args =>
    have hidle : s.task 0 ≠ some s.current := by
      intro heq
      have hplain := (h s.current heq).right rfl
      rw [hphase] at hplain
      simp [Phase.plain, Frame.plain] at hplain
    have hset : (s.setTask s.current { s.mem s.current with
        signal := (s.mem s.current).signal &&& ~~~signalBit SIGCHLD }).IdlePlain :=
      h.samePhase rfl rfl rfl rfl
    dsimp only [Kernel.resume]
    split
    . exact hset.sysWaitpid hidle args
    . exact hset.toPlain rfl rfl rfl rfl

theorem IdlePlain.go {s : Kernel} {m : Move} (h : s.IdlePlain) (heq : s.go = some m)
    : m.fst.IdlePlain := by
  unfold Kernel.go at heq
  split at heq
  . simp at heq
  . cases heq
    exact h.toPlain rfl rfl rfl rfl
  . simp at heq
  . cases heq
    exact h.toPlain rfl rfl rfl rfl
  . obtain ⟨s', hs', rfl⟩ := Option.map_eq_some_iff.mp heq
    exact h.tellFather hs'
  . next frame hphase =>
    cases heq
    refine h.keep rfl (fun _ _ => rfl) rfl ?_
    rw [hphase]
    exact fun _ hplain => hplain
  . next i slots frame hphase =>
    have hstep : ∀ m : Move, m.fst.task = s.task → m.fst.frame = s.frame → m.fst.current = s.current →
        m.fst.phase = .signals slots frame → m.fst.IdlePlain := by
      intro m htask hframe hcurrent hslots
      refine h.keep (congrFun htask 0) (fun p _ => congrFun hframe p) hcurrent ?_
      rw [hphase, hslots]
      exact fun _ hplain => hplain
    dsimp only at heq
    split at heq
    . cases heq
      exact hstep _ rfl rfl rfl rfl
    . split at heq
      . cases heq
        exact hstep _ rfl rfl rfl rfl
      . cases heq
        exact hstep _ rfl rfl rfl rfl
  . next frame hphase =>
    have hplain : s.phase.plain = frame.plain := by rw [hphase]; rfl
    dsimp only at heq
    split at heq
    . cases heq
      exact h.samePhase rfl rfl rfl rfl
    . split at heq
      . simp at heq
      . split at heq
        . cases heq
          exact h.keep rfl (fun _ _ => rfl) rfl (fun _ hself => hplain.symm.trans hself)
        . cases heq
          exact h.switchTo hplain _
  . next next frame hphase =>
    have hplain : s.phase.plain = frame.plain := by rw [hphase]; rfl
    dsimp only at heq
    split at heq
    . cases heq
      exact h.keep rfl (fun _ _ => rfl) rfl (fun _ hself => hplain.symm.trans hself)
    . cases heq
      exact h.keep rfl (fun _ _ => rfl) rfl (fun _ hself => hplain.symm.trans hself)
  . next next frame hphase =>
    have hplain : s.phase.plain = frame.plain := by rw [hphase]; rfl
    split at heq
    . simp at heq
    . cases heq
      exact h.keep rfl (fun _ _ => rfl) rfl (fun _ hself => hplain.symm.trans hself)
  . next next frame hphase =>
    have hplain : s.phase.plain = frame.plain := by rw [hphase]; rfl
    split at heq
    . simp at heq
    . cases heq
      exact h.switchTo hplain _
  . next frame hphase =>
    cases heq
    exact h.resume hphase
  . next q tmp hphase =>
    cases heq
    refine h.keep rfl (fun _ _ => rfl) rfl ?_
    intro _ hplain
    rw [hphase] at hplain
    simp [Phase.plain] at hplain

theorem IdlePlain.wakeUp {s : Kernel} (h : s.IdlePlain) (q : Nat) : (s.wakeUp q).fst.IdlePlain := by
  unfold Kernel.wakeUp
  split
  . exact h
  . exact h.samePhase rfl rfl rfl rfl

theorem IdlePlain.call {s : Kernel} {m : Move} {a : Act} (h : s.IdlePlain) (heq : s.call a = some m)
    : m.fst.IdlePlain := by
  have hidle : s.isIdle ≠ true → s.task 0 ≠ some s.current := by
    intro hne hself
    apply hne
    rw [isIdle, hself]
    simp
  unfold Kernel.call at heq
  split at heq
  . dsimp only at heq
    split at heq
    . cases heq
      exact h.toPlain rfl rfl rfl rfl
    . cases heq
      exact h.toPlain rfl rfl rfl rfl
  . exact h.sysFork heq
  . cases heq
    unfold sysPause
    dsimp only
    split <;> exact h.toPlain rfl rfl rfl rfl
  . cases heq
    apply h.wakeUp
  . split at heq
    . simp at heq
    . next hne =>
      cases heq
      exact h.notIdle rfl rfl rfl (hidle hne)
  . split at heq
    . simp at heq
    . next hne =>
      cases heq
      exact h.notIdle rfl rfl rfl (hidle hne)
  . split at heq
    . simp at heq
    . next hne =>
      cases heq
      exact h.sysWaitpid (hidle hne) _
  . split at heq
    . simp at heq
    . cases heq
      exact h.samePhase rfl rfl rfl rfl
  . split at heq
    . simp at heq
    . next hne =>
      cases heq
      unfold doExit
      dsimp only
      split <;> exact h.notIdle rfl rfl rfl (hidle hne)
  . cases heq
    exact h.samePhase rfl rfl rfl rfl
  . cases heq
    exact h.samePhase rfl rfl rfl rfl
  . cases heq
    exact h.samePhase rfl rfl rfl rfl
  . simp at heq

theorem IdlePlain.inKernel {s : Kernel} {m : Move} {a : Act} (h : s.IdlePlain)
    (heq : (if s.phase = .kernel then s.call a else none) = some m)
    : m.fst.IdlePlain := by
  split at heq
  . exact h.call heq
  . simp at heq

theorem IdlePlain.setSlot {s : Kernel} (h : s.IdlePlain) (i : Slot) (f : Task → Task)
    : (s.setSlot i f).IdlePlain := by
  unfold Kernel.setSlot
  split
  . exact h
  . exact h.samePhase rfl rfl rfl rfl

theorem IdlePlain.doTimer {s : Kernel} (h : s.IdlePlain) : s.doTimer.IdlePlain := by
  unfold Kernel.doTimer
  dsimp only
  split
  . exact h.samePhase rfl rfl rfl rfl
  . split
    . exact h.toPlain rfl rfl rfl rfl
    . exact h.samePhase rfl rfl rfl rfl

theorem IdlePlain.move {s : Kernel} {m : Move} {a : Act} (h : s.IdlePlain) (heq : s.move a = some m)
    : m.fst.IdlePlain := by
  cases a with
  | enter =>
    dsimp only [Kernel.move] at heq
    split at heq
    . cases heq
      exact h.toPlain rfl rfl rfl rfl
    . simp at heq
  | doSignal sig exits =>
    dsimp only [Kernel.move] at heq
    split at heq
    . cases heq
      refine h.keep rfl (fun _ _ => rfl) rfl ?_
      intro _ _
      cases exits <;> rfl
    . simp at heq
  | setIds i pgrp session leader =>
    cases heq
    apply h.setSlot
  | signal i bits =>
    cases heq
    apply h.setSlot
  | go => exact h.go heq
  | tick =>
    cases heq
    exact h.doTimer
  | interrupt q =>
    cases heq
    apply h.wakeUp
  | leave | fork _ _ | pause | sleepOn _ | interruptibleSleepOn _ | wakeUp _ | waitpid _ | reparent | exit
  | alarm _ | ssetmask _ | nice _ => exact h.inKernel heq

theorem IdlePlain.step {s s' : Kernel} {a : Act} (h : s.IdlePlain) (heq : s.step a = some s')
    : s'.IdlePlain := by
  rw [step_eq, Option.map_eq_some_iff] at heq
  obtain ⟨⟨t, line⟩, hm, rfl⟩ := heq
  have hmove := h.move hm
  cases line with
  | none => exact hmove
  | some line => exact hmove.samePhase rfl rfl rfl rfl

end Kernel
end OS
