import ByDoing.OS.SignalLoop

/-!
This module contains the wake-up of a parent that sleeps in `sys_waitpid`: `tell_father` raises its
`SIGCHLD`, and the signal loop of `schedule` makes it runnable if that signal is not blocked. No parent
sleeps on a zombie child as long as every `SIGCHLD` that is raised for such a parent can be heard.
-/

namespace OS

theorem Ledger.idle_alive {v : Ledger} (horder : v.Orderly) {e : Event} (he : v.Enabled e)
    (h : ∀ p, v.task 0 = some p → v.state p ≠ .TASK_ZOMBIE) {p : Page} (hp : (v.apply e).task 0 = some p)
    : (v.apply e).state p ≠ .TASK_ZOMBIE := by
  have hset : ∀ (q : Page) (state : TaskState), v.task 0 = some p → state ≠ .TASK_ZOMBIE →
      Function.update v.state q state p ≠ .TASK_ZOMBIE := by
    intro q state hslot hstate
    by_cases hq : p = q
    . subst hq
      rw [Function.update_self]
      exact hstate
    . rw [Function.update_of_ne hq]
      exact h p hslot
  cases e with
  | wake q => exact hset q _ hp (by simp)
  | sleep state => exact hset _ _ hp (fun heq => by simp [Enabled, TaskState.asleep, heq] at he)
  | idle => exact hset _ _ hp (by simp)
  | exit =>
    obtain ⟨q, hq, hidle⟩ := horder.idle
    have hpq : p = q := Option.some.inj (hp.symm.trans hq)
    have hne : p ≠ v.current := by
      intro hself
      apply he.right
      rw [← hself, hpq]
      exact hidle
    rw [show (v.apply .exit).state p = v.state p from Function.update_of_ne hne _ _]
    exact h p hp
  | fork q nr pid =>
    have hnr : (0 : Slot) ≠ nr := Ne.symm he.right.left
    rw [show (v.apply (.fork q nr pid)).task 0 = v.task 0 from Function.update_of_ne hnr _ _] at hp
    exact hset q .TASK_RUNNING hp (by simp)
  | release i =>
    rw [show (v.apply (.release i)).task 0 = v.task 0 from Function.update_of_ne (Ne.symm he.left) _ _] at hp
    exact h p hp
  | scrap q pid state =>
    have hne : p ≠ q := by
      intro hpq
      exact he.left ⟨0, hpq ▸ hp⟩
    rw [show (v.apply (.scrap q pid state)).state p = v.state p from Function.update_of_ne hne _ _]
    exact h p hp
  | quiet | tick _ | expire _ | schedule | select _ | reselect _ | switch _ => exact h p hp
  | preempt | pass | give _ | childReady =>
    dsimp only [apply] at hp ⊢
    split at hp <;> exact h p hp

namespace Kernel

/--
The `SIGCHLD` that a step raises can be heard: the father that sleeps in `sys_waitpid(-1, ...)` does not
block it, or has another reason to wake up, and the orphans' new father is task 1. An alarm that is to wake
such a father has been turned into a signal when `jiffies` overflows.
-/
def Heard (s : Kernel) : Act → Prop
  | .go => s.phase = .exited → ∀ i, ∀ p ∈ s.task i, s.Waits p →
      (s.mem p).pid = (s.mem s.current).father →
        ((s.mem p).raise (signalBit SIGCHLD)).roused s.jiffies = true
  | .reparent => (∃ j, ∃ c ∈ s.task j, (s.mem c).father = (s.mem s.current).pid ∧ s.Zombie c) →
      ∀ i, ∀ p ∈ s.task i, s.Waits p → (s.mem p).pid = 1 →
        (s.mem p).roused s.jiffies = true
          ∨ s.task 1 = some p ∧ ((s.mem p).raise (signalBit SIGCHLD)).roused s.jiffies = true
  | .tick => s.jiffies = BitVec.intMax 32 → ∀ i, ∀ p ∈ s.task i, s.Waits p →
      (s.mem p).roused s.jiffies = true → (s.mem p).hasSignal = true
  | _ => True

instance (s : Kernel) (p : Page) : Decidable (s.Waits p) :=
  inferInstanceAs (Decidable (_ ∧ _))

instance (s : Kernel) (c : Page) : Decidable (s.Zombie c) :=
  inferInstanceAs (Decidable (_ ∧ ¬_))

instance (s : Kernel) : (a : Act) → Decidable (s.Heard a)
  | .go => inferInstanceAs (Decidable (_ → ∀ i, ∀ p ∈ s.task i, _))
  | .reparent => inferInstanceAs (Decidable ((∃ j, ∃ c ∈ s.task j, _) → ∀ i, ∀ p ∈ s.task i, _))
  | .tick => inferInstanceAs (Decidable (_ → ∀ i, ∀ p ∈ s.task i, _))
  | .enter | .leave | .doSignal _ _ | .fork _ _ | .pause | .sleepOn _ | .interruptibleSleepOn _ | .wakeUp _
  | .waitpid _ | .exit | .alarm _ | .ssetmask _ | .nice _ | .setIds _ _ _ _ | .signal _ _ | .interrupt _ =>
    isTrue trivial

theorem scan_waiting {s : Kernel} {args : WaitArgs} {flag : Bool} {slots : List Slot}
    (h : sysWaitpid.scan s args flag slots = .waiting) {j : Slot} (hj : j ∈ slots) {c : Page}
    (hc : s.task j = some c) (hchild : sysWaitpid.isChild s args c = true)
    : (s.mem c).state ≠ .TASK_ZOMBIE := by
  induction slots generalizing flag with
  | nil => simp at hj
  | cons i slots ih =>
    unfold sysWaitpid.scan at h
    rcases List.mem_cons.mp hj with rfl | hj
    . rw [hc] at h
      dsimp only at h
      rw [if_pos hchild] at h
      intro hzombie
      rw [hzombie] at h
      simp at h
    . split at h
      . exact ih h hj
      . split at h
        . split at h
          . split at h
            . simp at h
            . exact ih h hj
          . simp at h
          . exact ih h hj
        . exact ih h hj

def IdleAlive (s : Kernel) : Prop :=
  ∀ p, s.task 0 = some p → (s.mem p).state ≠ .TASK_ZOMBIE

theorem noneStranded_sleep {s : Kernel} {args : WaitArgs} (halive : s.IdleAlive) (hphase : s.phase ≠ .exited)
    (hscan : sysWaitpid.scan s args false lastToFirst = .waiting) (h : s.NoneStranded)
    : (s.sleep .TASK_INTERRUPTIBLE (.waitpid args)).fst.NoneStranded := by
  have hother : ∀ p, p ≠ s.current →
      (s.sleep .TASK_INTERRUPTIBLE (.waitpid args)).fst.mem p = s.mem p := by
    intro p hp
    exact Function.update_of_ne hp _ _
  have hself : (s.sleep .TASK_INTERRUPTIBLE (.waitpid args)).fst.mem s.current
      = { s.mem s.current with state := .TASK_INTERRUPTIBLE } := Function.update_self _ _ _
  have hstate : ∀ c, ((s.sleep .TASK_INTERRUPTIBLE (.waitpid args)).fst.mem c).state = .TASK_ZOMBIE →
      c ≠ s.current := by
    intro c hzombie heq
    rw [heq, hself] at hzombie
    simp at hzombie
  intro i p j c hp hc hwaits hne hfather hzombie
  have hcne := hstate c hzombie.left
  rw [hother c hcne] at hfather
  have hzc : (s.mem c).state = .TASK_ZOMBIE := hother c hcne ▸ hzombie.left
  by_cases hpc : p = s.current
  . -- The loop of `sys_waitpid` has just looked at every child.
    exfalso
    subst hpc
    rw [hself] at hfather
    have hframe : (args.pid == -1) = true := (waits_current.mp hwaits).right
    have hpid : args.pid = -1 := by simpa using hframe
    have hchild : sysWaitpid.isChild s args c = true := by
      simp [sysWaitpid.isChild, hcne, hfather, hpid]
    by_cases hj : j = 0
    . subst hj
      exact halive c hc hzc
    . exact scan_waiting hscan (mem_lastToFirst_of_ne hj) hc hchild hzc
  . rw [hother p hpc] at hfather ⊢
    refine h i p j c hp hc ?_ hne hfather ⟨hzc, fun hself => hphase hself.left⟩
    rw [waits_of_ne hpc, ← hother p hpc]
    exact (@waits_of_ne (s.sleep .TASK_INTERRUPTIBLE (.waitpid args)).fst p hpc).mp hwaits

theorem noneStranded_sysWaitpid {s : Kernel} {args : WaitArgs} (halive : s.IdleAlive)
    (hphase : s.phase ≠ .exited) (h : s.NoneStranded)
    : (s.sysWaitpid args).fst.NoneStranded := by
  unfold sysWaitpid
  split
  . next i hscan =>
    have hrelease := Keeps.release (s := s) i
    apply (hrelease.trans (Keeps.leave _ _)).noneStranded h
    . rfl
    . exact hphase
  . next hscan =>
    split
    . exact (Keeps.leave rfl hphase).noneStranded h
    . exact noneStranded_sleep halive hphase hscan h
  . exact (Keeps.leave rfl hphase).noneStranded h

theorem waitsForAny_of_plain (frame : Frame) (h : frame.plain = true) : frame.waitsForAny = false := by
  cases frame <;> first | rfl | simp [Frame.plain] at h

theorem phase_waitsForAny_of_plain {phase : Phase} (h : phase.plain = true)
    : phase.waitsForAny = false := by
  cases phase with
  | signals _ frame | select frame | ready _ frame | run _ frame | switch _ frame | resumed frame =>
    exact waitsForAny_of_plain frame h
  | user | ret | kernel | forked _ | exited | again _ _ => rfl

theorem IdlePlain.mem_lastToFirst {s : Kernel} (h : s.IdlePlain) {i : Slot} {p : Page} (hp : s.task i = some p)
    (hwaits : s.Waits p)
    : i ∈ lastToFirst := by
  apply mem_lastToFirst_of_ne
  intro hi
  subst hi
  obtain ⟨hframe, hphase⟩ := h p hp
  by_cases hself : p = s.current
  . subst hself
    have hw := (waits_current.mp hwaits).right
    rw [phase_waitsForAny_of_plain (hphase rfl)] at hw
    simp at hw
  . have hw := ((waits_of_ne hself).mp hwaits).right
    rw [waitsForAny_of_plain _ hframe] at hw
    simp at hw

theorem noneStranded_schedule {s : Kernel} (hplain : s.IdlePlain) (h : s.NoneStranded)
    (htold : ∀ i p, s.task i = some p → s.Waits p → (s.mem s.current).father = (s.mem p).pid →
      (s.mem p).roused s.jiffies = true)
    : (s.schedule .kernel).NoneStranded := by
  intro i p j c hp hc hwaits hne hfather hzombie
  have hself : p ≠ s.current := by
    intro hself
    subst hself
    exact not_waits_of_phase rfl hwaits
  have hwaits' : s.Waits p := by
    rw [waits_of_ne hself]
    exact (@waits_of_ne (s.schedule .kernel) p hself).mp hwaits
  by_cases hcc : c = s.current
  . subst hcc
    exact ⟨hplain.mem_lastToFirst hp hwaits', htold i p hp hwaits' hfather⟩
  . exact h i p j c hp hc hwaits' hne hfather ((zombie_of_ne hcc).mpr hzombie.left)

theorem noneStranded_tellFather {s s' : Kernel} (hplain : s.IdlePlain) (horder : s.ledger.Orderly)
    (hphase : s.phase = .exited) (hheard : s.Heard .go) (h : s.NoneStranded) (heq : s.tellFather = some s')
    : s'.NoneStranded := by
  unfold tellFather at heq
  dsimp only at heq
  split at heq
  . next father hfound =>
    cases heq
    split at hfound
    . simp at hfound
    . obtain ⟨k, _, hk⟩ := List.exists_of_findSome?_eq_some hfound
      split at hk
      . simp at hk
      . next q hq =>
        rw [Option.ite_none_right_eq_some, Option.some.injEq] at hk
        obtain ⟨hpid, rfl⟩ := hk
        have hkeeps := Keeps.setTask (s := s) (Task.Keeps.raise (s.mem q) s.jiffies (signalBit SIGCHLD))
        apply noneStranded_schedule
        . exact hplain.samePhase rfl rfl rfl rfl
        . exact hkeeps.noneStranded h
        . intro i p hp hwaits hfather
          have hk := hkeeps.kept i p hp
          have hsame : ((s.setTask q ((s.mem q).raise (signalBit SIGCHLD))).mem s.current).father
              = (s.mem s.current).father := by
            by_cases hself : s.current = q <;> simp [Kernel.setTask, hself, Task.raise]
          have hfather' : (s.mem s.current).father = (s.mem p).pid := by
            rw [← hsame, ← hk.pid]
            exact hfather
          have hpq : p = q := by
            apply horder.inj p q ⟨i, hp⟩ ⟨k, hq⟩
            have hpids : ((s.mem p).pid : Int) = (s.mem q).pid := by rw [← hfather', hpid]
            exact Int.ofNat.inj hpids
          subst hpq
          rw [show (s.setTask p ((s.mem p).raise (signalBit SIGCHLD))).mem p
            = (s.mem p).raise (signalBit SIGCHLD) from Function.update_self _ _ _]
          exact hheard hphase i p hp (hk.waits hwaits) hpid
  . next hfound =>
    split at heq
    . simp at heq
    . next i _ =>
      cases heq
      have hkeeps := Keeps.release (s := s) i
      apply noneStranded_schedule
      . intro p hp
        exact hplain p (hkeeps.task 0 p hp)
      . exact hkeeps.noneStranded h
      . intro k p hp hwaits hfather
        exfalso
        have htask := hkeeps.task k p hp
        have hwaits' := (hkeeps.kept k p hp).waits hwaits
        split at hfound
        . next hzero =>
          obtain ⟨q, hq, hidle⟩ := horder.idle
          have hpid : (s.mem p).pid = 0 := by
            rw [← Int.natCast_eq_zero, ← hzero]
            exact hfather.symm
          have hpq : p = q := horder.inj p q ⟨k, htask⟩ ⟨0, hq⟩ (hpid.trans hidle.symm)
          subst hpq
          exact OS.mem_lastToFirst (hplain.mem_lastToFirst hq hwaits') rfl
        . rw [List.findSome?_eq_none_iff] at hfound
          have hk := hfound k (List.mem_finRange k)
          simp only [htask, ite_eq_right_iff, reduceCtorEq] at hk
          exact hk hfather.symm

theorem reparent_father (s : Kernel) {j : Slot} {c : Page} (hc : s.task j = some c)
    : (s.reparent.mem c).father
        = if (s.mem c).father = (s.mem s.current).pid then 1 else (s.mem c).father := by
  have htable : s.inTable c = true := inTable_iff.mpr ⟨j, hc⟩
  dsimp only [reparent]
  by_cases hchild : (s.mem c).father = (s.mem s.current).pid
  . simp only [htable, hchild, BEq.rfl, Bool.and_self, if_true]
    split <;> rfl
  . simp only [htable, hchild, beq_false_of_ne hchild, Bool.and_false, if_false]
    split <;> rfl

theorem reparent_roused {s : Kernel} {p : Page} (h : (s.mem p).roused s.jiffies = true)
    : (s.reparent.mem p).roused s.jiffies = true := by
  dsimp only [reparent]
  split
  . apply Task.roused_raise
    split
    . exact Task.roused_father h 1
    . exact h
  . split
    . exact Task.roused_father h 1
    . exact h

theorem reparent_told {s : Kernel} {j : Slot} {c p : Page} (hc : s.task j = some c)
    (hfather : (s.mem c).father = (s.mem s.current).pid) (hzombie : (s.mem c).state = .TASK_ZOMBIE)
    (hp : s.task 1 = some p) (h : ((s.mem p).raise (signalBit SIGCHLD)).roused s.jiffies = true)
    : (s.reparent.mem p).roused s.jiffies = true := by
  have htable : s.inTable c = true := inTable_iff.mpr ⟨j, hc⟩
  dsimp only [reparent]
  rw [if_pos]
  . split
    . exact Task.roused_father h 1
    . exact h
  . rw [Bool.and_eq_true, List.any_eq_true]
    refine ⟨⟨j, List.mem_finRange j, ?_⟩, by simp [hp]⟩
    simp [hc, htable, hfather, hzombie]

theorem noneStranded_reparent {s : Kernel} (hplain : s.IdlePlain) (hphase : s.phase ≠ .exited)
    (hheard : s.Heard .reparent) (h : s.NoneStranded)
    : s.reparent.NoneStranded := by
  have hpid : ∀ p, (s.reparent.mem p).pid = (s.mem p).pid := by
    intro p
    exact congrFun (congrArg Ledger.pid (ledger_reparent s)) p
  have hstate : ∀ p, (s.reparent.mem p).state = (s.mem p).state := by
    intro p
    exact congrFun (congrArg Ledger.state (ledger_reparent s)) p
  intro i p j c hp hc hwaits hne hfather hzombie
  have hwaits' : s.Waits p := by
    refine ⟨?_, hwaits.right⟩
    rw [← hstate]
    exact hwaits.left
  have hzombie' : s.Zombie c := by
    refine ⟨?_, fun hself => hphase hself.left⟩
    rw [← hstate]
    exact hzombie.left
  refine ⟨hplain.mem_lastToFirst hp hwaits', ?_⟩
  rw [hpid, reparent_father s hc] at hfather
  split at hfather
  . next hchild =>
    have hinit : (s.mem p).pid = 1 := Int.ofNat.inj hfather.symm
    rcases hheard ⟨j, c, hc, hchild, hzombie'⟩ i p hp hwaits' hinit with hroused | ⟨hfirst, hroused⟩
    . exact reparent_roused hroused
    . exact reparent_told hc hchild hzombie'.left hfirst hroused
  . exact reparent_roused (h i p j c hp hc hwaits' hne hfather hzombie').right

theorem noneStranded_sysFork {s : Kernel} {m : Move} {page : Option Page} {memOk : Bool}
    (hphase : s.phase = .kernel) (h : s.NoneStranded) (heq : s.sysFork page memOk = some m)
    : m.fst.NoneStranded := by
  unfold sysFork at heq
  split at heq
  . simp at heq
  . next pid nr? hfind =>
    split at heq
    . next nr p =>
      split at heq
      . simp at heq
      . next hnew =>
        rw [Bool.or_eq_true, not_or, inTable_iff, beq_iff_eq] at hnew
        have hold : ∀ i q, s.task i = some q → q ≠ p := by
          intro i q hq hqp
          exact hnew.left ⟨i, hqp ▸ hq⟩
        dsimp only at heq
        split at heq
        . cases heq
          apply h.of_kept
          intro i q hq hcases
          have hqp : q ≠ p := by
            intro hqp
            subst hqp
            rcases hcases with hwaits | hzombie
            . have hstate := hwaits.left
              simp [Kernel.setTask, Task.childOf] at hstate
            . have hstate := hzombie.left
              simp [Kernel.setTask, Task.childOf] at hstate
          have hi : i ≠ nr := by
            intro hi
            subst hi
            simp only [Function.update_self, Option.some.injEq] at hq
            exact hqp hq.symm
          refine ⟨?_, ?_⟩
          . dsimp only at hq
            rw [Function.update_of_ne hi] at hq
            exact hq
          . apply KeepsTask.unchanged
            . exact Function.update_of_ne hqp _ _
            . rfl
            . exact Function.update_of_ne hqp _ _
            . rfl
            . intro hforked
              exact absurd hforked (by simp [Phase.waitsForAny, Phase.frame?])
            . rw [hphase]
              simp
        . cases heq
          apply h.of_kept
          intro i q hq _
          refine ⟨hq, ?_⟩
          apply KeepsTask.unchanged
          . exact Function.update_of_ne (hold i q hq) _ _
          . rfl
          . rfl
          . rfl
          . exact id
          . exact id
    . cases heq
      exact (Keeps.same s).noneStranded h

theorem Keeps.doExit (s : Kernel) : s.Keeps s.doExit.fst := by
  have hexit : ∀ t : Kernel, t.Keeps { t.setState t.current .TASK_ZOMBIE with phase := .exited } := by
    intro t
    have hset := @Keeps.setCurrent t (fun u => { u with state := .TASK_ZOMBIE }) .exited rfl rfl
    apply hset
    . intro hzombie
      exact absurd ⟨rfl, rfl⟩ hzombie.right
    . exact not_waits_of_phase rfl
  unfold Kernel.doExit
  dsimp only
  split
  . have hkill : s.Keeps s.killSession := by
      apply Keeps.mem
      intro p
      split
      . exact Task.Keeps.raise _ _ _
      . exact Task.Keeps.same _ _
    exact hkill.trans (hexit s.killSession)
  . exact hexit s

theorem noneStranded_doTimer {s : Kernel} (hheard : s.Heard .tick) (h : s.NoneStranded)
    : s.doTimer.NoneStranded := by
  have hlater : { s with jiffies := s.jiffies + 1 }.NoneStranded := by
    intro i p j c hp hc hwaits hne hfather hzombie
    obtain ⟨hslot, hroused⟩ := h i p j c hp hc hwaits hne hfather hzombie
    refine ⟨hslot, ?_⟩
    by_cases hwrap : s.jiffies = BitVec.intMax 32
    . exact Task.roused_of_hasSignal (hheard hwrap i p hp hwaits hroused) _
    . exact Task.roused_succ hroused hwrap
  have hcounter : ∀ counter, { s with jiffies := s.jiffies + 1 }.Keeps
      { s.setCurrent (fun t => { t with counter }) with jiffies := s.jiffies + 1 } :=
    fun _ => Keeps.setTask (s := { s with jiffies := s.jiffies + 1 }) (Task.Keeps.unread rfl rfl rfl rfl rfl rfl)
  unfold doTimer
  dsimp only
  split
  . exact (hcounter _).noneStranded hlater
  . split
    . next huser =>
      refine ((hcounter 0).trans (Keeps.leave rfl ?_)).noneStranded hlater
      rw [show ({ s.setCurrent (fun t => { t with counter := 0 }) with
        jiffies := s.jiffies + 1 } : Kernel).phase = s.phase from rfl, huser]
      simp
    . exact (hcounter 0).noneStranded hlater

theorem noneStranded_resume {s : Kernel} {frame : Frame} (hplain : s.IdlePlain) (horder : s.ledger.Orderly)
    (halive : s.IdleAlive) (hphase : s.phase = .resumed frame) (h : s.NoneStranded)
    : (s.resume frame).fst.NoneStranded := by
  have hne : s.phase ≠ .exited := by simp [hphase]
  have hwake : ∀ (t : Kernel) (p : Page), s.Keeps t → (t.wake p).fst.NoneStranded := by
    intro t p ht
    exact (ht.trans (Keeps.wake t p)).noneStranded h
  have hkernel : s.Keeps { s with phase := .kernel } := Keeps.leave rfl hne
  cases frame with
  | user => exact (Keeps.leave rfl hne).noneStranded h
  | ret => exact (Keeps.leave rfl hne).noneStranded h
  | kernel => exact hkernel.noneStranded h
  | sleepOn tmp =>
    cases tmp with
    | none => exact hkernel.noneStranded h
    | some p => exact hwake _ p hkernel
  | interruptibleSleepOn q tmp =>
    have htail : (resume.resumeTail s q tmp).fst.NoneStranded := by
      unfold resume.resumeTail
      dsimp only
      have hqueue := hkernel.trans (Keeps.queue { s with phase := .kernel } (Function.update s.queue q none))
      split
      . exact hqueue.noneStranded h
      . next p => exact hwake _ p hqueue
    dsimp only [resume]
    split
    . next p _ =>
      split
      . exact htail
      . exact hwake _ p (Keeps.leave rfl hne)
    . exact htail
  | waitpid args =>
    have hstate : (s.mem s.current).state = .TASK_RUNNING := by
      apply horder.running
      . exact .inl (by rw [ledger, hphase]; rfl)
      . apply hplain.pid_ne_zero horder
        rw [hphase]
        rfl
    have hclear : s.Keeps (s.setTask s.current { s.mem s.current with
        signal := (s.mem s.current).signal &&& ~~~signalBit SIGCHLD }) :=
      Keeps.setTask (Task.Keeps.awake rfl rfl hstate)
    have halive' : (s.setTask s.current { s.mem s.current with
        signal := (s.mem s.current).signal &&& ~~~signalBit SIGCHLD }).IdleAlive := by
      intro p hp
      by_cases hself : p = s.current
      . subst hself
        simp [Kernel.setTask, hstate]
      . rw [show (s.setTask s.current { s.mem s.current with
          signal := (s.mem s.current).signal &&& ~~~signalBit SIGCHLD }).mem p = s.mem p from
            Function.update_of_ne hself _ _]
        exact halive p hp
    dsimp only [resume]
    split
    . exact noneStranded_sysWaitpid halive' hne (hclear.noneStranded h)
    . exact (hclear.trans (Keeps.leave rfl hne)).noneStranded h

theorem noneStranded_go {s : Kernel} {m : Move} (hplain : s.IdlePlain) (horder : s.ledger.Orderly)
    (halive : s.IdleAlive) (hheard : s.Heard .go) (h : s.NoneStranded) (heq : s.go = some m)
    : m.fst.NoneStranded := by
  unfold go at heq
  split at heq
  . simp at heq
  . next hphase =>
    cases heq
    exact (Keeps.leave rfl (by simp [hphase])).noneStranded h
  . simp at heq
  . next hphase =>
    cases heq
    exact (Keeps.leave rfl (by simp [hphase])).noneStranded h
  . next hphase =>
    obtain ⟨s', hs', rfl⟩ := Option.map_eq_some_iff.mp heq
    exact noneStranded_tellFather hplain horder hphase hheard h hs'
  . next frame hphase =>
    cases heq
    exact (Keeps.phase (by rw [hphase]; exact id) (by simp [hphase])).noneStranded h
  . next i slots frame hphase =>
    have hnext : s.Keeps { s with phase := .signals slots frame } :=
      Keeps.phase (by rw [hphase]; exact id) (by simp [hphase])
    dsimp only at heq
    split at heq
    . cases heq
      exact hnext.noneStranded h
    . next p hp =>
      have halarm := hnext.trans (Keeps.setTask (s := { s with phase := .signals slots frame })
        (Task.Keeps.checkAlarm (s.mem p) s.jiffies))
      split at heq
      . cases heq
        exact (halarm.trans (Keeps.wake _ p)).noneStranded h
      . cases heq
        exact halarm.noneStranded h
  . next frame hphase =>
    dsimp only at heq
    split at heq
    . cases heq
      have hrefill : s.Keeps s.refill := by
        apply Keeps.mem
        intro p
        split
        . exact Task.Keeps.unread rfl rfl rfl rfl rfl rfl
        . exact Task.Keeps.same _ _
      exact hrefill.noneStranded h
    . split at heq
      . simp at heq
      . split at heq
        . cases heq
          exact (Keeps.phase (by rw [hphase]; exact id) (by simp [hphase])).noneStranded h
        . cases heq
          exact (Keeps.switchTo (by rw [hphase]; rfl) (by simp [hphase])).noneStranded h
  . next next frame hphase =>
    have hrun : s.Keeps { s with phase := .run next frame } :=
      Keeps.phase (by rw [hphase]; exact id) (by simp [hphase])
    dsimp only at heq
    split at heq
    . cases heq
      exact hrun.noneStranded h
    . cases heq
      exact hrun.noneStranded h
  . next next frame hphase =>
    split at heq
    . simp at heq
    . cases heq
      exact (Keeps.phase (by rw [hphase]; exact id) (by simp [hphase])).noneStranded h
  . next next frame hphase =>
    split at heq
    . simp at heq
    . cases heq
      exact (Keeps.switchTo (by rw [hphase]; rfl) (by simp [hphase])).noneStranded h
  . next frame hphase =>
    cases heq
    exact noneStranded_resume hplain horder halive hphase h
  . cases heq
    exact (Keeps.sleep (by simp) rfl).noneStranded h

theorem Keeps.wakeUp (s : Kernel) (q : Nat) : s.Keeps (s.wakeUp q).fst := by
  unfold Kernel.wakeUp
  split
  . exact Keeps.same s
  . next p _ =>
    have hqueue := Keeps.queue s (Function.update s.queue q none)
    exact hqueue.trans (Keeps.wake _ p)

theorem NoneStranded.setCurrent {s : Kernel} (h : s.NoneStranded) (hphase : s.phase = .kernel)
    (f : Task → Task) (hpid : (f (s.mem s.current)).pid = (s.mem s.current).pid)
    (hfather : (f (s.mem s.current)).father = (s.mem s.current).father)
    (hstate : (f (s.mem s.current)).state = (s.mem s.current).state)
    : (s.setCurrent f).NoneStranded := by
  have hkeeps : s.Keeps { s.setCurrent f with phase := s.phase } := by
    apply Keeps.setCurrent hpid hfather
    . intro hzombie
      have hself := hzombie.left
      rw [show ({ s.setCurrent f with phase := s.phase } : Kernel).mem s.current = f (s.mem s.current) from
        Function.update_self _ _ _, hstate] at hself
      exact ⟨hself, by simp [hphase]⟩
    . apply not_waits_of_phase
      rw [show ({ s.setCurrent f with phase := s.phase } : Kernel).phase = s.phase from rfl, hphase]
      rfl
  exact hkeeps.noneStranded h

theorem noneStranded_call {s : Kernel} {m : Move} {a : Act} (hplain : s.IdlePlain) (halive : s.IdleAlive)
    (hphase : s.phase = .kernel) (hheard : s.Heard a) (h : s.NoneStranded) (heq : s.call a = some m)
    : m.fst.NoneStranded := by
  have hne : s.phase ≠ .exited := by simp [hphase]
  cases a with
  | leave =>
    dsimp only [call] at heq
    split at heq
    . cases heq
      exact (Keeps.leave rfl hne).noneStranded h
    . cases heq
      exact (Keeps.leave rfl hne).noneStranded h
  | fork page memOk => exact noneStranded_sysFork hphase h heq
  | pause =>
    cases heq
    have hsleep : s.Keeps (s.sleep .TASK_INTERRUPTIBLE .kernel).fst := Keeps.sleep (by simp) rfl
    unfold sysPause
    dsimp only
    split
    . exact hsleep.noneStranded h
    . exact hsleep.noneStranded h
  | wakeUp q =>
    cases heq
    exact (Keeps.wakeUp s q).noneStranded h
  | sleepOn q =>
    dsimp only [call] at heq
    split at heq
    . simp at heq
    . cases heq
      have hqueue := Keeps.queue s (Function.update s.queue q (some s.current))
      exact (hqueue.trans (Keeps.sleep (by simp) rfl)).noneStranded h
  | interruptibleSleepOn q =>
    dsimp only [call] at heq
    split at heq
    . simp at heq
    . cases heq
      have hqueue := Keeps.queue s (Function.update s.queue q (some s.current))
      exact (hqueue.trans (Keeps.sleep (by simp) rfl)).noneStranded h
  | waitpid args =>
    dsimp only [call] at heq
    split at heq
    . simp at heq
    . cases heq
      exact noneStranded_sysWaitpid halive hne h
  | reparent =>
    dsimp only [call] at heq
    split at heq
    . simp at heq
    . cases heq
      exact noneStranded_reparent hplain hne hheard h
  | exit =>
    dsimp only [call] at heq
    split at heq
    . simp at heq
    . cases heq
      exact (Keeps.doExit s).noneStranded h
  | alarm seconds =>
    cases heq
    dsimp only
    apply h.setCurrent hphase <;> rfl
  | ssetmask mask =>
    cases heq
    dsimp only
    apply h.setCurrent hphase <;> rfl
  | nice increment =>
    cases heq
    obtain ⟨priority, hnice⟩ := (s.mem s.current).nice_eq increment
    apply h.setCurrent hphase fun t => t.nice increment
    all_goals rw [hnice]
  | enter => simp [call] at heq
  | doSignal sig exits => simp [call] at heq
  | setIds i pgrp session leader => simp [call] at heq
  | signal i bits => simp [call] at heq
  | go => simp [call] at heq
  | tick => simp [call] at heq
  | interrupt q => simp [call] at heq

theorem noneStranded_inKernel {s : Kernel} {m : Move} {a : Act} (hplain : s.IdlePlain) (halive : s.IdleAlive)
    (hheard : s.Heard a) (h : s.NoneStranded)
    (heq : (if s.phase = .kernel then s.call a else none) = some m)
    : m.fst.NoneStranded := by
  split at heq
  . next hphase => exact noneStranded_call hplain halive hphase hheard h heq
  . simp at heq

theorem noneStranded_doSignal {s : Kernel} {m : Move} {sig : Nat} {exits : Bool} (h : s.NoneStranded)
    (heq : s.move (.doSignal sig exits) = some m)
    : m.fst.NoneStranded := by
  dsimp only [move] at heq
  split at heq
  . next hand =>
    have hphase : s.phase ≠ .exited := by simp [hand.left]
    cases heq
    refine (Keeps.setCurrent rfl rfl ?_ ?_).noneStranded h
    . intro hzombie
      refine ⟨?_, fun hself => hphase hself.left⟩
      have hstate := hzombie.left
      simpa [Kernel.setCurrent, Kernel.setTask] using hstate
    . apply not_waits_of_phase
      cases exits <;> rfl
  . simp at heq

theorem noneStranded_move {s : Kernel} {m : Move} {a : Act} (hplain : s.IdlePlain) (horder : s.ledger.Orderly)
    (halive : s.IdleAlive) (hheard : s.Heard a) (h : s.NoneStranded) (heq : s.move a = some m)
    : m.fst.NoneStranded := by
  cases a with
  | enter =>
    dsimp only [move] at heq
    split at heq
    . next huser =>
      cases heq
      exact (Keeps.leave rfl (by simp [huser])).noneStranded h
    . simp at heq
  | doSignal sig exits => exact noneStranded_doSignal h heq
  | setIds i pgrp session leader =>
    cases heq
    refine (Keeps.setSlot i ?_).noneStranded h
    intro t
    exact Task.Keeps.unread rfl rfl rfl rfl rfl rfl
  | signal i bits =>
    cases heq
    exact (Keeps.setSlot i fun t => Task.Keeps.raise t s.jiffies bits).noneStranded h
  | go => exact noneStranded_go hplain horder halive hheard h heq
  | tick =>
    cases heq
    exact noneStranded_doTimer hheard h
  | interrupt q =>
    cases heq
    exact (Keeps.wakeUp s q).noneStranded h
  | leave | fork _ _ | pause | sleepOn _ | interruptibleSleepOn _ | wakeUp _ | waitpid _ | reparent | exit
  | alarm _ | ssetmask _ | nice _ => exact noneStranded_inKernel hplain halive hheard h heq

theorem NoneStranded.step {s s' : Kernel} {a : Act} (hplain : s.IdlePlain) (horder : s.ledger.Orderly)
    (halive : s.IdleAlive) (hheard : s.Heard a) (h : s.NoneStranded) (heq : s.step a = some s')
    : s'.NoneStranded := by
  rw [step_eq, Option.map_eq_some_iff] at heq
  obtain ⟨⟨t, line⟩, hm, rfl⟩ := heq
  have hmove := noneStranded_move hplain horder halive hheard h hm
  cases line with
  | none => exact hmove
  | some line => exact hmove

theorem IdleAlive.step {s s' : Kernel} {a : Act} (hplain : s.IdlePlain) (horder : s.ledger.Orderly)
    (h : s.IdleAlive) (heq : s.step a = some s')
    : s'.IdleAlive := by
  obtain ⟨e, henabled, hledger, _⟩ := step_simulates hplain horder heq
  intro p hp
  rw [show s'.task = (s.ledger.apply e).task from congrArg Ledger.task hledger] at hp
  rw [show (s'.mem p).state = (s.ledger.apply e).state p from congrFun (congrArg Ledger.state hledger) p]
  exact Ledger.idle_alive horder henabled h hp

end Kernel
end OS
