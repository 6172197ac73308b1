import ByDoing.OS.FileRun

namespace OS
namespace Files
namespace State

variable {s s' : State} {c nr : Slot} {task task' : Task} {fd : Fd} {f : FileNr} {r : Int}

namespace copyProcess

variable {filp : Fd → Option FileNr} {fds : List Fd}

theorem countFiles_eq : countFiles s filp fds = { s with file := (countFiles s filp fds).file } := by
  induction fds generalizing s with
  | nil => rfl
  | cons d fds ih =>
    unfold countFiles
    split
    . exact ih
    . exact ih

theorem countFiles_task : (countFiles s filp fds).task = s.task := by
  rw [countFiles_eq]

theorem countFiles_super : (countFiles s filp fds).super = s.super := by
  rw [countFiles_eq]

theorem countFiles_inodes : (countFiles s filp fds).inodes = s.inodes := by
  rw [countFiles_eq]

theorem countFiles_fInode {g : FileNr} : ((countFiles s filp fds).file g).fInode = (s.file g).fInode := by
  induction fds generalizing s with
  | nil => rfl
  | cons d fds ih =>
    unfold countFiles
    split
    . exact ih
    . rw [ih, fInode_setCount]

theorem countFiles_tallied {ref : Slot × Fd → Option FileNr} (h : Tallied ref s.fCount) (hnodup : fds.Nodup)
    (hnone : ∀ d ∈ fds, ref (nr, d) = none)
    : Tallied (fun k => if k.fst = nr ∧ k.snd ∈ fds then filp k.snd else ref k) (countFiles s filp fds).fCount := by
  induction fds generalizing s ref with
  | nil => simpa [countFiles] using h
  | cons d fds ih =>
    obtain ⟨hd, hnodup⟩ := List.nodup_cons.mp hnodup
    unfold countFiles
    split
    . next hfilp =>
      have hrest := ih h hnodup fun e he => hnone e (List.mem_cons_of_mem d he)
      have heq : (fun k : Slot × Fd => if k.fst = nr ∧ k.snd ∈ d :: fds then filp k.snd else ref k)
          = fun k => if k.fst = nr ∧ k.snd ∈ fds then filp k.snd else ref k := by
        funext k
        obtain ⟨i, e⟩ := k
        by_cases he : e = d
        . subst he
          by_cases hi : i = nr
          . subst hi
            simp [hd, hfilp, hnone e List.mem_cons_self]
          . simp [hi]
        . simp [he]
      rw [heq]
      exact hrest
    . next f hfilp =>
      have hcount : (s.setCount f (succShort (s.file f).fCount)).fCount
          = Function.update s.fCount f (s.fCount f + 1) := by
        rw [fCount_setCount, ← h.succShort_count Counted.card_keys]
        rfl
      have hattach : Tallied (Function.update ref (nr, d) (some f)) (s.setCount f (succShort (s.file f).fCount)).fCount :=
        h.attach (hnone d List.mem_cons_self) hcount
      have hrest := ih hattach hnodup fun e he => by
        have hne : (nr, e) ≠ (nr, d) := by
          intro heq
          rw [Prod.mk.injEq] at heq
          exact hd (heq.right ▸ he)
        rw [Function.update_of_ne hne]
        exact hnone e (List.mem_cons_of_mem d he)
      have heq : (fun k : Slot × Fd => if k.fst = nr ∧ k.snd ∈ d :: fds then filp k.snd else ref k)
          = fun k => if k.fst = nr ∧ k.snd ∈ fds then filp k.snd else Function.update ref (nr, d) (some f) k := by
        funext k
        obtain ⟨i, e⟩ := k
        by_cases he : e = d
        . subst he
          by_cases hi : i = nr
          . subst hi
            simp [hd, hfilp]
          . simp [hi]
        . simp [he]
      rw [heq]
      exact hrest

end copyProcess

theorem Tallied.share {κ : Type} [Fintype κ] [DecidableEq κ] {ref : κ → Option InodeNr} {t : Inodes} {k : κ}
    (h : Tallied ref t.count) (hcard : Fintype.card κ < 65535) (hk : ref k = none) (v : Option InodeNr)
    : Tallied (Function.update ref k v) (t.share v).count := by
  cases v with
  | none =>
    rw [Function.update_eq_self_iff.mpr hk.symm]
    exact h
  | some n =>
    apply h.attach hk
    rw [Inodes.count_share, h.succShort_count hcard]

theorem filpOf_child (htask : s'.task = Function.update s.task nr (some task))
    : s'.filpOf = fun k => if k.fst = nr ∧ k.snd ∈ List.finRange NR_OPEN then task.filp k.snd else s.filpOf k := by
  funext k
  obtain ⟨i, d⟩ := k
  unfold filpOf
  rw [htask]
  by_cases hi : i = nr
  . subst hi
    simp
  . simp [hi]

theorem inodeOf_child (hnr : s.task nr = none) (htask : s'.task = Function.update s.task nr (some task))
    (hfile : ∀ g, s'.inodeOf (.inl g) = s.inodeOf (.inl g)) (hsuper : s'.super = s.super)
    : s'.inodeOf
        = Function.update (Function.update (Function.update s.inodeOf (.inr (.inl (nr, .pwd))) task.pwd)
            (.inr (.inl (nr, .root))) task.root) (.inr (.inl (nr, .executable))) task.executable := by
  funext k
  rcases k with g | ⟨i, q⟩ | k
  . rw [hfile]
    rfl
  . by_cases hi : i = nr
    . subst hi
      unfold inodeOf
      rw [htask]
      cases q <;> simp [Task.ref, Function.update]
    . unfold inodeOf
      rw [htask]
      simp [hi]
  . unfold inodeOf
    rw [hsuper]
    rfl

section fork

-- The child in the slot `nr` has the descriptors and the inodes of the task `c`.
variable (h : s.Counted) (hc : s.task c = some task) (hnr : s.task nr = none)
    (hchild : s'.task = Function.update s.task nr (some task')) (hfilp : task'.filp = task.filp)
    (href : task'.ref = task.ref) (hfiles : Tallied s'.filpOf s'.fCount)
    (hfile : ∀ g, (s'.file g).fInode = (s.file g).fInode)

include h hc hchild hfilp hfiles

theorem Counted.fCount_fork (hnr : s.task nr = none) : s'.fCount f = 0 ↔ s.fCount f = 0 := by
  rw [hfiles.count_eq_zero_iff, h.files.count_eq_zero_iff, filpOf_child hchild]
  constructor
  . intro hunused k hk
    apply hunused k
    have hne : k.fst ≠ nr := by
      intro heq
      unfold filpOf at hk
      rw [heq, hnr] at hk
      simp at hk
    simp only [hne, false_and, if_false]
    exact hk
  . intro hunused k hk
    simp only at hk
    split at hk
    . rw [hfilp, ← filpOf_eq hc] at hk
      exact hunused _ hk
    . exact hunused k hk

include hnr hfile

theorem Counted.inodeOf_fork : s'.inodeOf (.inl f) = s.inodeOf (.inl f) := by
  have hlive : s'.fCount f = 0 ↔ s.fCount f = 0 := h.fCount_fork hc hchild hfilp hfiles hnr
  by_cases hf : s.fCount f = 0
  . rw [inodeOf_dead hf, inodeOf_dead (hlive.mpr hf)]
  . rw [inodeOf_live hf, inodeOf_live (hlive.not.mpr hf), hfile]

include href

theorem Counted.fork (halive : s.alive c = true) (hzombie : task'.zombie = task.zombie) (hsuper : s'.super = s.super)
    (hicount : s'.inodes.count = (((s.inodes.share task.pwd).share task.root).share task.executable).count)
    : s'.Counted := by
  have hinodeOf : s'.inodeOf
      = Function.update (Function.update (Function.update s.inodeOf (.inr (.inl (nr, .pwd))) (task'.ref .pwd))
          (.inr (.inl (nr, .root))) (task'.ref .root)) (.inr (.inl (nr, .executable))) (task'.ref .executable) :=
    inodeOf_child hnr hchild (fun g => h.inodeOf_fork hc hnr hchild hfilp hfiles hfile) hsuper
  have hunset : ∀ q, s.inodeOf (.inr (.inl (nr, q))) = none := by
    intro q
    show (s.task nr).bind _ = none
    rw [hnr]
    rfl
  have hcard := Counted.card_holders
  have hpwd := Tallied.share h.inodes hcard (hunset .pwd) task.pwd
  have hunset_root : Function.update s.inodeOf (.inr (.inl (nr, .pwd))) task.pwd (.inr (.inl (nr, .root))) = none := by
    rw [Function.update_of_ne (by simp)]
    exact hunset .root
  have hroot := Tallied.share hpwd hcard hunset_root task.root
  have hunset_executable : Function.update (Function.update s.inodeOf (.inr (.inl (nr, .pwd))) task.pwd)
      (.inr (.inl (nr, .root))) task.root (.inr (.inl (nr, .executable))) = none := by
    rw [Function.update_of_ne (by simp), Function.update_of_ne (by simp)]
    exact hunset .executable
  have hall := Tallied.share hroot hcard hunset_executable task.executable
  refine ⟨hfiles, ?_, ?_, ?_⟩
  . rw [hinodeOf, href, hicount]
    exact hall
  . intro g hg
    rw [hfile]
    exact h.backed g ((h.fCount_fork hc hchild hfilp hfiles hnr).not.mp hg)
  . intro i hi
    have hne : i ≠ nr := by
      intro heq
      unfold reapable at hi
      rw [hchild, heq, Function.update_self] at hi
      obtain ⟨task₁, htask₁, halive⟩ := task_of_alive halive
      rw [hc, Option.some.injEq] at htask₁
      subst htask₁
      simp [hzombie, halive] at hi
    have htask₁ : s'.task i = s.task i := by
      rw [hchild]
      exact Function.update_of_ne hne _ _
    have hi' : s.reapable i = true := by
      unfold reapable at hi ⊢
      rw [← htask₁]
      exact hi
    obtain ⟨hnone, hrefs⟩ := h.exited i hi'
    constructor
    . intro d
      unfold filpOf
      rw [htask₁]
      exact hnone d
    . intro q
      show (s'.task i).bind _ = none
      rw [htask₁]
      exact hrefs q

end fork

theorem Counted.copyProcess (h : s.Counted) (hc : s.alive c = true) (htask : s.task c = some task) (hnr : s.task nr = none)
    {pid : Nat} {pageOk memOk : Bool}
    : (State.copyProcess s nr task pid pageOk memOk).snd.Counted := by
  unfold State.copyProcess
  split
  . let child : Task := { task with pid := pid, leader := false }
    let s₁ := copyProcess.countFiles (s.setTask nr child) child.filp (List.finRange NR_OPEN)
    have htask₁ : s₁.task = Function.update s.task nr (some child) := copyProcess.countFiles_task
    have hinodes : s₁.inodes = s.inodes := copyProcess.countFiles_inodes
    have hbefore : Tallied s.filpOf (s.setTask nr child).fCount := h.files
    have hfiles : Tallied s₁.filpOf s₁.fCount := by
      rw [filpOf_child htask₁]
      apply copyProcess.countFiles_tallied hbefore (List.nodup_finRange NR_OPEN)
      intro d _
      unfold filpOf
      rw [hnr]
      rfl
    refine h.fork htask hnr htask₁ rfl rfl hfiles (fun g => copyProcess.countFiles_fInode) hc rfl
      copyProcess.countFiles_super ?_
    show Inodes.count (((s₁.inodes.share task.pwd).share task.root).share task.executable) = _
    rw [hinodes]
  . exact h

theorem Counted.sysFork (h : s.Counted) (hc : s.alive c = true) {pageOk memOk : Bool}
    (hok : s.sysFork c pageOk memOk = some (r, s'))
    : s'.Counted := by
  obtain ⟨task, htask, hzombie⟩ := task_of_alive hc
  have hlast : ∀ pid, ({ s with lastPid := pid } : State).Counted := fun _ => h.congr rfl rfl rfl rfl fun _ hi => hi
  unfold State.sysFork at hok
  rw [htask] at hok
  simp only at hok
  split at hok
  . simp at hok
  . next pid _ =>
    rw [Option.some.injEq, Prod.mk.injEq] at hok
    exact hok.right ▸ hlast pid
  . next pid nr hfind =>
    rw [Option.some.injEq] at hok
    have hnr : s.task nr = none := by
      unfold findEmptyProcess at hfind
      split at hfind
      . simp at hfind
      . rw [Option.some.injEq, Prod.mk.injEq] at hfind
        exact Option.map_eq_none_iff.mp (findEmptyProcess.findSlot_spec hfind.right).right
    rw [show s' = (r, s').snd from rfl, ← hok]
    exact (hlast pid).copyProcess (c := c) hc htask hnr

theorem Counted.closeFds (h : s.Counted) (hc : s.alive c = true) {p : Task → Fd → Bool} {fds : List Fd}
    (hok : s.closeFds p c fds = some s')
    : s'.Counted ∧ s'.alive c = true ∧ (∀ k, s.filpOf k = none → s'.filpOf k = none)
        ∧
      ∀ d ∈ fds, (∀ task, p task d = (task.filp d).isSome) → s'.filpOf (c, d) = none := by
  induction fds generalizing s with
  | nil =>
    rw [State.closeFds, Option.some.injEq] at hok
    subst hok
    exact ⟨h, hc, fun _ hk => hk, fun d hd => absurd hd List.not_mem_nil⟩
  | cons d fds ih =>
    obtain ⟨task, htask, hzombie⟩ := task_of_alive hc
    rw [State.closeFds, htask] at hok
    simp only at hok
    split at hok
    . split at hok
      . simp at hok
      . next s₁ hclose =>
        obtain ⟨hcounted, halive, hkeep, hself⟩ := h.sysClose hc hclose
        obtain ⟨hcounted', halive', hkeep', hself'⟩ := ih hcounted halive hok
        refine ⟨hcounted', halive', fun k hk => hkeep' k (hkeep k hk), ?_⟩
        intro e he hp
        rcases List.mem_cons.mp he with rfl | he
        . exact hkeep' _ (hself e.isLt)
        . exact hself' e he hp
    . next hp =>
      obtain ⟨hcounted', halive', hkeep', hself'⟩ := ih h hc hok
      refine ⟨hcounted', halive', hkeep', ?_⟩
      intro e he hopen
      rcases List.mem_cons.mp he with rfl | he
      . apply hkeep'
        rw [hopen task, Bool.not_eq_true, Option.isSome_eq_false_iff, Option.isNone_iff_eq_none] at hp
        exact (filpOf_eq htask).trans hp
      . exact hself' e he hopen

theorem Counted.closeFds_isSome (h : s.Counted) (hc : s.alive c = true) (p : Task → Fd → Bool) (fds : List Fd)
    : (s.closeFds p c fds).isSome := by
  induction fds generalizing s with
  | nil => rfl
  | cons d fds ih =>
    obtain ⟨task, htask, hzombie⟩ := task_of_alive hc
    rw [State.closeFds, htask]
    simp only
    split
    . split
      . next hnone =>
        have hsome := h.sysClose_isSome hc (d := d.val)
        rw [hnone] at hsome
        simp at hsome
      . next s₁ hclose =>
        obtain ⟨hcounted, halive, _⟩ := h.sysClose hc hclose
        exact ih hcounted halive
    . exact ih h hc

theorem Tallied.replace {κ : Type} [Fintype κ] [DecidableEq κ] {ref : κ → Option InodeNr} {count : InodeNr → Nat}
    {t u : Inodes} {k : κ} {v : Option InodeNr} (h : Tallied ref count)
    (hsome : ∀ n, v = some n → t.count = Function.update count n (count n + 1)) (hnone : v = none → t.count = count)
    (hu : t.iput (ref k) = some u)
    : Tallied (Function.update ref k v) u.count := by
  cases hk : ref k with
  | none =>
    rw [hk, Inodes.iput, Option.some.injEq] at hu
    subst hu
    cases v with
    | none =>
      rw [hnone rfl, Function.update_eq_self_iff.mpr hk.symm]
      exact h
    | some n => exact h.attach hk (hsome n rfl)
  | some m =>
    rw [hk] at hu
    have hput := Inodes.count_iput hu
    have hdetached : Tallied (Function.update ref k none) (Function.update count m (count m - 1)) := h.detach hk rfl
    cases v with
    | none =>
      rw [hput, hnone rfl]
      exact hdetached
    | some n =>
      have hidem : Function.update (Function.update ref k none) k (some n) = Function.update ref k (some n) :=
        Function.update_idem _ _ _
      rw [← hidem]
      apply hdetached.attach (Function.update_self _ _ _)
      have hpos : 0 < count m := h.count_pos hk
      rw [hput, hsome n rfl]
      funext g
      simp only [Function.update_apply]
      by_cases hg : g = n
      . subst hg
        by_cases hm : g = m
        . subst hm
          simp only [if_true]
          omega
        . simp only [hm, if_true, if_false]
      . by_cases hm : m = n
        . subst hm
          simp only [hg, if_false]
        . simp only [hg, hm, if_false]

section putRef

variable {q : TaskRef} {n : InodeNr}

theorem inodeOf_ref (hc : s.task c = some task) : s.inodeOf (.inr (.inl (c, q))) = task.ref q := by
  show (s.task c).bind _ = _
  rw [hc]
  rfl

theorem filpOf_putRef (hc : s.task c = some task) {v : Option InodeNr}
    (htask : s'.task = Function.update s.task c (some (task.setRef v q)))
    : s'.filpOf = s.filpOf := by
  apply filpOf_same hc htask
  cases q <;> rfl

theorem Counted.putRef {t : Inodes} {v : Option InodeNr} (h : s.Counted) (hc : s.alive c = true)
    (ht : ∀ n, v = some n → t.count = Function.update s.inodes.count n (s.inodes.count n + 1))
    (hnone : v = none → t.count = s.inodes.count) (hok : (s.setInodes t).putRef c q v = some s')
    : s'.Counted ∧ s'.alive c = true ∧ s'.filpOf = s.filpOf
        ∧
      s'.inodeOf = Function.update s.inodeOf (.inr (.inl (c, q))) v := by
  obtain ⟨task, htask, hzombie⟩ := task_of_alive hc
  unfold State.putRef at hok
  rw [show (s.setInodes t).task c = some task from htask] at hok
  obtain ⟨u, hu, rfl⟩ := Option.map_eq_some_iff.mp hok
  have hzombie' : (task.setRef v q).zombie = task.zombie := by cases q <;> rfl
  have hinodeOf : (((s.setInodes t).setInodes u).setTask c (task.setRef v q)).inodeOf
      = Function.update s.inodeOf (.inr (.inl (c, q))) v := inodeOf_setRef htask rfl rfl rfl rfl
  have hfilpOf : (((s.setInodes t).setInodes u).setTask c (task.setRef v q)).filpOf = s.filpOf :=
    filpOf_putRef htask rfl
  refine ⟨?_, alive_update htask rfl hzombie' hc, hfilpOf, hinodeOf⟩
  apply h.of_tallied
  . rw [hfilpOf]
    exact h.files
  . rw [hinodeOf]
    exact Tallied.replace h.inodes ht hnone (inodeOf_ref htask ▸ hu)
  . exact h.backed
  . intro i hi
    rw [reapable_same htask rfl hzombie'] at hi
    exact hi
  . intro i d _ hnone
    rw [hfilpOf]
    exact hnone
  . intro i q' hi hnone
    have hne : (Sum.inr (Sum.inl (i, q')) : Holder) ≠ .inr (.inl (c, q)) := by
      intro heq
      rw [Sum.inr.injEq, Sum.inl.injEq, Prod.mk.injEq] at heq
      rw [heq.left, not_reapable_of_alive hc] at hi
      simp at hi
    rw [hinodeOf, Function.update_of_ne hne]
    exact hnone

end putRef

theorem mapTask_eq (hc : s.task c = some task) {g : Task → Task} : s.mapTask c g = s.setTask c (g task) := by
  unfold mapTask setTask
  rw [hc]
  rfl

theorem Counted.doExecve (h : s.Counted) (hc : s.alive c = true) {o : Namei} (ho : o.Balanced s.inodes)
    (hok : s.doExecve c o = some (r, s'))
    : s'.Counted := by
  unfold State.doExecve at hok
  simp only at hok
  split at hok
  . next e he =>
    rw [Option.some.injEq, Prod.mk.injEq] at hok
    obtain ⟨_, rfl⟩ := hok
    exact h.congr rfl rfl rfl (sysOpen.count_of_error ho he) fun _ hi => hi
  . next n hn =>
    split at hok
    . simp at hok
    . next s₁ hput =>
      have hcount : ∀ m, some n = some m → o.inodes.count = Function.update s.inodes.count m (s.inodes.count m + 1) := by
        intro m hm
        rw [Option.some.injEq] at hm
        exact hm ▸ sysOpen.count_of_balanced h ho hn
      obtain ⟨hcounted, halive, _⟩ := h.putRef hc hcount (by simp) hput
      split at hok
      . simp at hok
      . next s₂ hclose =>
        obtain ⟨hcounted, halive, _⟩ := hcounted.closeFds halive hclose
        obtain ⟨task, htask, hzombie⟩ := task_of_alive halive
        rw [Option.some.injEq, Prod.mk.injEq, mapTask_eq htask] at hok
        exact hok.right ▸ hcounted.setTask_same htask rfl rfl rfl

theorem Counted.dropRef (h : s.Counted) (hc : s.alive c = true) {q : TaskRef} (hok : s.putRef c q none = some s')
    : s'.Counted ∧ s'.alive c = true ∧ s'.filpOf = s.filpOf
        ∧
      s'.inodeOf = Function.update s.inodeOf (.inr (.inl (c, q))) none :=
  h.putRef hc (by simp) (fun _ => rfl) hok

theorem Counted.doExit (h : s.Counted) (hc : s.alive c = true) (hok : s.doExit c = some s') : s'.Counted := by
  unfold State.doExit at hok
  split at hok
  . simp at hok
  . next s₁ hclose =>
    obtain ⟨h₁, halive₁, _, hfds⟩ := h.closeFds hc hclose
    split at hok
    . simp at hok
    . next s₄ hput =>
      obtain ⟨s₃, hput, hput₄⟩ := Option.bind_eq_some_iff.mp hput
      obtain ⟨s₂, hput₂, hput₃⟩ := Option.bind_eq_some_iff.mp hput
      obtain ⟨h₂, halive₂, hfilp₂, hinode₂⟩ := h₁.dropRef halive₁ hput₂
      obtain ⟨h₃, halive₃, hfilp₃, hinode₃⟩ := h₂.dropRef halive₂ hput₃
      obtain ⟨h₄, halive₄, hfilp₄, hinode₄⟩ := h₃.dropRef halive₃ hput₄
      have hnone : ∀ d, s₄.filpOf (c, d) = none := by
        intro d
        rw [hfilp₄, hfilp₃, hfilp₂]
        exact hfds d (List.mem_finRange d) fun _ => rfl
      have hrefs : ∀ q, s₄.inodeOf (.inr (.inl (c, q))) = none := by
        intro q
        rw [hinode₄, hinode₃, hinode₂]
        cases q <;> simp [Function.update]
      obtain ⟨task, htask, hzombie⟩ := task_of_alive halive₄
      rw [Option.some.injEq, mapTask_eq htask] at hok
      subst hok
      have hfilp : (s₄.setTask c { task with zombie := true }).filpOf = s₄.filpOf := filpOf_same htask rfl rfl
      have hinode : (s₄.setTask c { task with zombie := true }).inodeOf = s₄.inodeOf := by
        funext k
        rcases k with g | k | k
        . rfl
        . have hrec : (s₄.setTask c { task with zombie := true }).task
              = Function.update s₄.task c (some { task with zombie := true }) := rfl
          exact inodeOf_task_same htask hrec rfl k
        . rfl
      constructor
      . rw [hfilp]
        exact h₄.files
      . rw [hinode]
        exact h₄.inodes
      . exact h₄.backed
      . intro i hi
        rw [hfilp, hinode]
        by_cases heq : i = c
        . exact heq ▸ ⟨hnone, hrefs⟩
        . apply h₄.exited i
          unfold reapable setTask at hi
          simp only [Function.update_of_ne heq] at hi
          exact hi

theorem Counted.dropRef_isSome (h : s.Counted) (hc : s.alive c = true) {q : TaskRef} : (s.putRef c q none).isSome := by
  obtain ⟨task, htask, hzombie⟩ := task_of_alive hc
  have hput := h.iput_isSome (k := .inr (.inl (c, q)))
  unfold State.putRef
  rw [htask]
  simp only [Option.isSome_map]
  rw [← inodeOf_ref htask]
  exact hput

theorem Counted.doExit_isSome (h : s.Counted) (hc : s.alive c = true) : (s.doExit c).isSome := by
  unfold State.doExit
  split
  . next hnone =>
    have hsome := h.closeFds_isSome hc (fun task fd => (task.filp fd).isSome) (List.finRange NR_OPEN)
    rw [hnone] at hsome
    simp at hsome
  . next s₁ hclose =>
    obtain ⟨h₁, halive₁, _⟩ := h.closeFds hc hclose
    obtain ⟨s₂, hput₂⟩ := Option.isSome_iff_exists.mp (h₁.dropRef_isSome halive₁ (q := .pwd))
    obtain ⟨h₂, halive₂, _⟩ := h₁.dropRef halive₁ hput₂
    obtain ⟨s₃, hput₃⟩ := Option.isSome_iff_exists.mp (h₂.dropRef_isSome halive₂ (q := .root))
    obtain ⟨h₃, halive₃, _⟩ := h₂.dropRef halive₂ hput₃
    obtain ⟨s₄, hput₄⟩ := Option.isSome_iff_exists.mp (h₃.dropRef_isSome halive₃ (q := .executable))
    rw [hput₂, Option.bind_some, hput₃, Option.bind_some, hput₄]
    rfl

theorem Counted.release (h : s.Counted) {i : Slot} (hi : s.reapable i = true)
    : ({ s with task := Function.update s.task i none } : State).Counted := by
  obtain ⟨hnone, hrefs⟩ := h.exited i hi
  apply h.congr
  . funext k
    obtain ⟨j, d⟩ := k
    by_cases hj : j = i
    . subst hj
      rw [hnone d]
      simp [filpOf]
    . simp [filpOf, hj]
  . rfl
  . funext k
    rcases k with g | ⟨j, q⟩ | k
    . rfl
    . by_cases hj : j = i
      . subst hj
        rw [hrefs q]
        simp [inodeOf]
      . simp [inodeOf, hj]
    . rfl
  . rfl
  . intro j hj
    unfold reapable at hj ⊢
    by_cases heq : j = i
    . subst heq
      exact hi
    . simp only [Function.update_of_ne heq] at hj
      exact hj

theorem Tallied.attach_root {κ : Type} [Fintype κ] [DecidableEq κ] {ref : κ → Option InodeNr} {root : InodeNr} {k : κ}
    {n : Nat} (h : Tallied ref (Function.update (fun _ => 0) root n)) (hk : ref k = none)
    : Tallied (Function.update ref k (some root)) (Function.update (fun _ => 0) root (n + 1)) := by
  apply h.attach hk
  rw [Function.update_self, Function.update_idem]

theorem inodes_init (root : InodeNr) (t : Inodes) : Tallied (init root t).inodeOf (init root t).inodes.count := by
  let first : Slot := ⟨0, by decide⟩
  let super : SuperNr := ⟨0, by decide⟩
  have h₀ : Tallied (fun _ : Holder => none) (Function.update (fun _ => 0) root 0) := by
    rw [Function.update_eq_self_iff.mpr rfl]
    exact Tallied.empty
  have h₁ := Tallied.attach_root (k := .inr (.inl (first, .pwd))) h₀ rfl
  have h₂ := Tallied.attach_root (k := .inr (.inl (first, .root))) h₁ rfl
  have h₃ := Tallied.attach_root (k := .inr (.inr (super, true))) h₂ rfl
  have h₄ := Tallied.attach_root (k := .inr (.inr (super, false))) h₃ rfl
  have hcount : (init root t).inodes.count = Function.update (fun _ => 0) root 4 := by
    funext n
    rw [Function.update_apply]
    rfl
  rw [hcount]
  convert h₄ using 1
  funext k
  rcases k with g | ⟨i, q⟩ | ⟨i, b⟩
  . rfl
  . by_cases hi : i = first
    . subst hi
      cases q <;> rfl
    . have htask : (init root t).task i = none := if_neg fun hzero => hi (Fin.ext hzero)
      have hnone : (init root t).inodeOf (.inr (.inl (i, q))) = none := by
        show ((init root t).task i).bind _ = none
        rw [htask]
        rfl
      simp [hnone, hi]
  . by_cases hi : i = super
    . subst hi
      cases b <;> rfl
    . have hval : i.val ≠ 0 := fun hzero => hi (Fin.ext hzero)
      simp [inodeOf, init, hi, hval]

theorem Counted.init (root : InodeNr) (t : Inodes) : (State.init root t).Counted := by
  constructor
  . have hfilp : (State.init root t).filpOf = fun _ => none := by
      funext k
      unfold filpOf State.init
      simp only
      split <;> rfl
    rw [hfilp]
    exact Tallied.empty
  . exact inodes_init root t
  . intro f hf
    exact absurd rfl hf
  . intro i hi
    exfalso
    unfold reapable State.init at hi
    simp only at hi
    split at hi <;> simp at hi

theorem Counted.step {a : Act} (h : s.Counted) (hok : s.step a = some s') : s'.Counted := by
  unfold State.step at hok
  split at hok
  . next henabled =>
    cases a with
    | openFile c flag o b =>
      rw [enabled, Bool.and_eq_true, decide_eq_true_eq] at henabled
      obtain ⟨⟨r, s₁⟩, hcall, rfl⟩ := Option.map_eq_some_iff.mp hok
      exact h.sysOpen henabled.left henabled.right hcall
    | close c fd =>
      obtain ⟨⟨r, s₁⟩, hcall, rfl⟩ := Option.map_eq_some_iff.mp hok
      exact (h.sysClose henabled hcall).left
    | dup c fildes =>
      obtain ⟨⟨r, s₁⟩, hcall, rfl⟩ := Option.map_eq_some_iff.mp hok
      exact h.dupfd henabled hcall
    | dup2 c oldfd newfd =>
      obtain ⟨⟨r, s₁⟩, hcall, rfl⟩ := Option.map_eq_some_iff.mp hok
      exact h.sysDup2 henabled hcall
    | fcntl c fd cmd arg =>
      obtain ⟨⟨r, s₁⟩, hcall, rfl⟩ := Option.map_eq_some_iff.mp hok
      exact h.sysFcntl henabled hcall
    | pipe c page =>
      obtain ⟨⟨r, s₁⟩, hcall, rfl⟩ := Option.map_eq_some_iff.mp hok
      exact h.sysPipe henabled hcall
    | fork c pageOk memOk =>
      obtain ⟨⟨r, s₁⟩, hcall, rfl⟩ := Option.map_eq_some_iff.mp hok
      exact h.sysFork henabled hcall
    | execve c o =>
      rw [enabled, Bool.and_eq_true, decide_eq_true_eq] at henabled
      obtain ⟨⟨r, s₁⟩, hcall, rfl⟩ := Option.map_eq_some_iff.mp hok
      exact h.doExecve henabled.left henabled.right hcall
    | exit c => exact h.doExit henabled hok
    | release i =>
      rw [call, Option.some.injEq] at hok
      exact hok ▸ h.release henabled
  . simp at hok

theorem Counted.iCount_eq (h : s.Counted) (n : InodeNr)
    : (s.inodes.inode n).iCount
        = (Finset.univ.filter fun f => (s.file f).fCount ≠ 0 ∧ (s.file f).fInode = some n).card
          + (Finset.univ.filter fun k => s.inodeOf (.inr k) = some n).card := by
  have hcount : (s.inodes.inode n).iCount = _ := h.inodes.count_eq n trivial
  rw [hcount, List.count_nil, Nat.add_zero]
  apply Sharing.Mapping.card_sharers_of_kinds Sum.inl_injective Sum.inr_injective
  . intro f k
    exact Sum.inl_ne_inr
  . intro k
    rcases k with f | k
    . exact .inl ⟨f, rfl⟩
    . exact .inr ⟨k, rfl⟩
  . intro f
    show f ∈ _ ↔ s.inodeOf (.inl f) = some n
    rw [Finset.mem_filter]
    by_cases hf : (s.file f).fCount = 0
    . simp [inodeOf_dead hf, hf]
    . simp [inodeOf_live hf, hf]
  . intro k
    simp

-- In every state between two calls the counts are exact.
theorem counts_exact (root : InodeNr) (t : Inodes) (h : Run.Reaches step (fun _ _ => True) (init root t) s)
    : (∀ f, (s.file f).fCount = (Finset.univ.filter fun k => s.filpOf k = some f).card)
        ∧
      (∀ f, (s.file f).fCount = 0 → ∀ k, s.filpOf k ≠ some f)
        ∧
      (∀ f, (s.file f).fCount ≠ 0 → ∃ n, (s.file f).fInode = some n)
        ∧
      ∀ n,
        (s.inodes.inode n).iCount
          = (Finset.univ.filter fun f => (s.file f).fCount ≠ 0 ∧ (s.file f).fInode = some n).card
            + (Finset.univ.filter fun k => s.inodeOf (.inr k) = some n).card := by
  have hcounted : s.Counted :=
    Run.Reaches.invariant Counted (Counted.init root t) (fun _ _ _ hinv _ hstep => hinv.step hstep) h
  refine ⟨?_, ?_, ?_, hcounted.iCount_eq⟩
  . intro f
    exact hcounted.files.count_eq_card
  . intro f hf
    exact hcounted.files.count_eq_zero_iff.mp hf
  . intro f hf
    exact Option.ne_none_iff_exists'.mp (hcounted.backed f hf)

def boot : State :=
  init ⟨0, by decide⟩ { inode := fun _ => Inode.zero, last := ⟨0, by decide⟩ }

def sharedRun : List Act :=
  let file : Inode := { Inode.zero with iMode := 33188, iNlinks := 1, iDev := 769, iCount := 1 }
  let n : InodeNr := ⟨1, by decide⟩
  let o : Namei := { result := .ok n, inodes := boot.inodes.set n file }
  let c : Slot := ⟨0, by decide⟩
  let child : Slot := ⟨1, by decide⟩
  [.openFile c 0 o false, .dup c 0, .fork c true true, .close child 0, .exit child]

theorem counts_exact_sharedRun
    : ∃ s, Run.exec step boot sharedRun = some s
        ∧
      (s.file ⟨0, by decide⟩).fCount = (Finset.univ.filter fun k => s.filpOf k = some ⟨0, by decide⟩).card := by
  have hsome : (Run.exec step boot sharedRun).isSome := by decide +kernel
  obtain ⟨s, hs⟩ := Option.isSome_iff_exists.mp hsome
  have hreach : Run.Reaches step (fun _ _ => True) boot s :=
    Run.Reaches.of_exec (Run.allOk_of_forall fun _ _ => trivial) hs
  exact ⟨s, hs, (counts_exact _ _ hreach).left _⟩

example : (Run.exec step boot sharedRun).map (fun s => (s.file ⟨0, by decide⟩).fCount) = some 2 := by
  decide +kernel

end State
end Files
end OS
