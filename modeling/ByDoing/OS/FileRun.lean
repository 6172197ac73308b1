import ByDoing.OS.FileCounts

namespace OS
namespace Files
namespace State

variable {s s' : State} {c : Slot} {task task' : Task} {fd : Fd} {f : FileNr} {r : Int}

theorem Counted.of_tallied (h : s.Counted) (hfiles : Tallied s'.filpOf s'.fCount)
    (hinodes : Tallied s'.inodeOf s'.inodes.count) (hbacked : ∀ f, s'.fCount f ≠ 0 → (s'.file f).fInode ≠ none)
    (hreap : ∀ i, s'.reapable i = true → s.reapable i = true)
    (hfilp : ∀ i fd, s.reapable i = true → s.filpOf (i, fd) = none → s'.filpOf (i, fd) = none)
    (href : ∀ i r, s.reapable i = true → s.inodeOf (.inr (.inl (i, r))) = none → s'.inodeOf (.inr (.inl (i, r))) = none)
    : s'.Counted := by
  refine ⟨hfiles, hinodes, hbacked, ?_⟩
  intro i hi
  obtain ⟨hnone, hrefs⟩ := h.exited i (hreap i hi)
  constructor
  . intro d
    exact hfilp i d (hreap i hi) (hnone d)
  . intro q
    exact href i q (hreap i hi) (hrefs q)

theorem Counted.files_close (h : s.Counted) (hc : s.task c = some task)
    (htask : s'.task = Function.update s.task c (some task')) (hfd : task.filp fd = some f)
    (hfilp : task'.filp = Function.update task.filp fd none)
    (hfile : s'.file = Function.update s.file f { s.file f with fCount := s.fCount f - 1 })
    : Tallied s'.filpOf s'.fCount := by
  rw [filpOf_update hc htask hfilp, fCount_update hfile]
  exact h.files.detach ((filpOf_eq hc).trans hfd) rfl

theorem filpOf_close (hc : s.task c = some task) (htask : s'.task = Function.update s.task c (some task'))
    (hfilp : task'.filp = Function.update task.filp fd none) {k : Slot × Fd} (hnone : s.filpOf k = none)
    : s'.filpOf k = none := by
  rw [filpOf_update hc htask hfilp, Function.update_apply]
  split
  . rfl
  . exact hnone

theorem Counted.backed_close (h : s.Counted) (hlive : s.fCount f ≠ 0)
    (hfile : s'.file = Function.update s.file f { s.file f with fCount := s.fCount f - 1 }) (g : FileNr)
    (hg : s'.fCount g ≠ 0)
    : (s'.file g).fInode ≠ none := by
  rw [fCount_update hfile, Function.update_apply] at hg
  rw [hfile, Function.update_apply]
  split
  . exact h.backed f hlive
  . next hne =>
    rw [if_neg hne] at hg
    exact h.backed g hg

theorem key_ne_of_reapable {i : Slot} {d : Fd} (hc : s.alive c = true) (hi : s.reapable i = true)
    : (i, d) ≠ (c, fd) := by
  intro heq
  rw [Prod.mk.injEq] at heq
  rw [heq.left, not_reapable_of_alive hc] at hi
  simp at hi

section calls

-- A call of the task `c`, which has another record afterwards.
variable (h : s.Counted) (hc : s.task c = some task) (htask : s'.task = Function.update s.task c (some task'))
    (href : task'.ref = task.ref) (hzombie : task'.zombie = task.zombie) (hsuper : s'.super = s.super)

include hc htask hzombie in
theorem alive_update (halive : s.alive c = true) : s'.alive c = true := by
  obtain ⟨task₁, htask₁, halive⟩ := task_of_alive halive
  rw [hc, Option.some.injEq] at htask₁
  subst htask₁
  refine alive_of_task ?_ (hzombie.trans halive)
  rw [htask]
  exact Function.update_self _ _ _

include h hc htask href hzombie hsuper

theorem Counted.same (hfilp : task'.filp = task.filp) (hcount : s'.fCount = s.fCount)
    (hfile : ∀ g, s.fCount g ≠ 0 → (s'.file g).fInode = (s.file g).fInode)
    (hicount : s'.inodes.count = s.inodes.count)
    : s'.Counted := by
  have hinode : s'.inodeOf = s.inodeOf := by
    funext k
    rcases k with g | k | k
    . by_cases hg : s.fCount g = 0
      . rw [inodeOf_dead hg, inodeOf_dead (hcount ▸ hg)]
      . rw [inodeOf_live hg, inodeOf_live (hcount ▸ hg)]
        exact hfile g hg
    . exact inodeOf_task_same hc htask href k
    . unfold inodeOf
      rw [hsuper]
  apply h.congr (filpOf_same hc htask hfilp) hcount hinode hicount
  intro i hi
  rw [reapable_same hc htask hzombie] at hi
  exact hi

theorem Counted.attach {file : File} {n : InodeNr} (halive : s.alive c = true) (hfd : task.filp fd = none)
    (hf : s.fCount f = 0) (hfilp : task'.filp = Function.update task.filp fd (some f))
    (hfile : s'.file = Function.update s.file f file) (hcount : file.fCount = 1) (hn : file.fInode = some n)
    (hicount : s'.inodes.count = Function.update s.inodes.count n (s.inodes.count n + 1))
    : s'.Counted := by
  have hinode : s'.inodeOf = Function.update s.inodeOf (.inl f) (some n) := by
    rw [inodeOf_update hc htask href hfile hsuper, hcount, hn]
    rfl
  have hfilpOf : s'.filpOf = Function.update s.filpOf (c, fd) (some f) := filpOf_update hc htask hfilp
  apply h.of_tallied
  . rw [hfilpOf]
    apply h.files.attach ((filpOf_eq hc).trans hfd)
    rw [fCount_update hfile, hcount, hf]
  . rw [hinode]
    exact h.inodes.attach (inodeOf_dead hf) hicount
  . intro g hg
    rw [fCount_update hfile, Function.update_apply] at hg
    rw [hfile, Function.update_apply]
    split
    . simp [hn]
    . next hne =>
      rw [if_neg hne] at hg
      exact h.backed g hg
  . intro i hi
    rw [reapable_same hc htask hzombie] at hi
    exact hi
  . intro i d hi hnone
    rw [hfilpOf, Function.update_of_ne (key_ne_of_reapable halive hi)]
    exact hnone
  . intro i q _ hnone
    rw [hinode]
    exact hnone

theorem Counted.dup (halive : s.alive c = true) (hfd : task.filp fd = none) (hf : s.fCount f ≠ 0)
    (hfilp : task'.filp = Function.update task.filp fd (some f))
    (hfile : s'.file = Function.update s.file f { s.file f with fCount := s.fCount f + 1 })
    (hicount : s'.inodes.count = s.inodes.count)
    : s'.Counted := by
  have hinode : s'.inodeOf = s.inodeOf := by
    rw [inodeOf_update hc htask href hfile hsuper]
    exact Function.update_eq_self_iff.mpr (inodeOf_live hf).symm
  have hfilpOf : s'.filpOf = Function.update s.filpOf (c, fd) (some f) := filpOf_update hc htask hfilp
  apply h.of_tallied
  . rw [hfilpOf]
    exact h.files.attach ((filpOf_eq hc).trans hfd) (fCount_update hfile)
  . rw [hinode, hicount]
    exact h.inodes
  . intro g hg
    rw [fCount_update hfile, Function.update_apply] at hg
    rw [hfile, Function.update_apply]
    split
    . exact h.backed f hf
    . next hne =>
      rw [if_neg hne] at hg
      exact h.backed g hg
  . intro i hi
    rw [reapable_same hc htask hzombie] at hi
    exact hi
  . intro i d hi hnone
    rw [hfilpOf, Function.update_of_ne (key_ne_of_reapable halive hi)]
    exact hnone
  . intro i q _ hnone
    rw [hinode]
    exact hnone

section close

variable (hfd : task.filp fd = some f) (hfilp : task'.filp = Function.update task.filp fd none)
    (hfile : s'.file = Function.update s.file f { s.file f with fCount := s.fCount f - 1 })

include hfd hfilp hfile

theorem Counted.close_shared (hcount : s.fCount f - 1 ≠ 0) (hicount : s'.inodes.count = s.inodes.count) : s'.Counted := by
  have hlive := h.live_of_filpOf ((filpOf_eq hc).trans hfd)
  have hinode : s'.inodeOf = s.inodeOf := by
    rw [inodeOf_update hc htask href hfile hsuper]
    simp only [hcount, if_false]
    exact Function.update_eq_self_iff.mpr (inodeOf_live hlive).symm
  apply h.of_tallied
  . exact h.files_close hc htask hfd hfilp hfile
  . rw [hinode, hicount]
    exact h.inodes
  . exact h.backed_close hlive hfile
  . intro i hi
    rw [reapable_same hc htask hzombie] at hi
    exact hi
  . intro i d _ hnone
    exact filpOf_close hc htask hfilp hnone
  . intro i q _ hnone
    rw [hinode]
    exact hnone

theorem Counted.close_last (hcount : s.fCount f - 1 = 0) (ht : s.inodes.iput (s.file f).fInode = some s'.inodes)
    : s'.Counted := by
  have hlive := h.live_of_filpOf ((filpOf_eq hc).trans hfd)
  obtain ⟨n, hn⟩ := Option.ne_none_iff_exists'.mp (h.backed f hlive)
  rw [hn] at ht
  have hinode : s'.inodeOf = Function.update s.inodeOf (.inl f) none := by
    rw [inodeOf_update hc htask href hfile hsuper]
    simp only [hcount, if_true]
  apply h.of_tallied
  . exact h.files_close hc htask hfd hfilp hfile
  . rw [hinode]
    exact h.inodes.detach ((inodeOf_live hlive).trans hn) (Inodes.count_iput ht)
  . exact h.backed_close hlive hfile
  . intro i hi
    rw [reapable_same hc htask hzombie] at hi
    exact hi
  . intro i d _ hnone
    exact filpOf_close hc htask hfilp hnone
  . intro i q _ hnone
    rw [hinode]
    exact hnone

end close

end calls

theorem Counted.setTask_same (h : s.Counted) (hc : s.task c = some task) (hfilp : task'.filp = task.filp)
    (href : task'.ref = task.ref) (hzombie : task'.zombie = task.zombie)
    : (s.setTask c task').Counted :=
  h.same hc rfl href hzombie rfl hfilp rfl (fun _ _ => rfl) rfl

theorem Counted.sysClose (h : s.Counted) (hc : s.alive c = true) {d : Nat} (hok : s.sysClose c d = some (r, s'))
    : s'.Counted ∧ s'.alive c = true ∧ (∀ k, s.filpOf k = none → s'.filpOf k = none)
        ∧
      ∀ hd : d < NR_OPEN, s'.filpOf (c, ⟨d, hd⟩) = none := by
  obtain ⟨task, htask, hzombie⟩ := task_of_alive hc
  unfold State.sysClose at hok
  rw [htask] at hok
  simp only at hok
  split at hok
  . next hd =>
    split at hok
    . next hnone =>
      rw [Option.some.injEq, Prod.mk.injEq] at hok
      obtain ⟨_, rfl⟩ := hok
      have hfilp : (s.setTask c (task.clearCloseOnExec d)).filpOf = s.filpOf := filpOf_same htask rfl rfl
      rw [hfilp]
      refine ⟨h.setTask_same htask rfl rfl rfl, alive_update htask rfl rfl hc, fun _ hk => hk, ?_⟩
      intro _
      exact (filpOf_eq htask).trans hnone
    . next f hfd =>
      have hfilp : (s.setTask c ((task.clearCloseOnExec d).setFilp ⟨d, hd⟩ none)).filpOf
          = Function.update s.filpOf (c, ⟨d, hd⟩) none := filpOf_update htask rfl rfl
      have hkeep : ∀ k, s.filpOf k = none →
          (s.setTask c ((task.clearCloseOnExec d).setFilp ⟨d, hd⟩ none)).filpOf k = none :=
        fun k hk => filpOf_close htask rfl rfl hk
      have hself : (s.setTask c ((task.clearCloseOnExec d).setFilp ⟨d, hd⟩ none)).filpOf (c, ⟨d, hd⟩) = none := by
        rw [hfilp]
        exact Function.update_self _ _ _
      have halive : (s.setTask c ((task.clearCloseOnExec d).setFilp ⟨d, hd⟩ none)).alive c = true :=
        alive_update htask rfl rfl hc
      split at hok
      . simp at hok
      . split at hok
        . next hcount =>
          rw [Option.some.injEq, Prod.mk.injEq] at hok
          obtain ⟨_, rfl⟩ := hok
          refine ⟨?_, halive, hkeep, fun _ => hself⟩
          exact h.close_shared htask rfl rfl rfl rfl hfd rfl rfl hcount rfl
        . next hcount =>
          obtain ⟨t, ht, heq⟩ := Option.map_eq_some_iff.mp hok
          rw [Prod.mk.injEq] at heq
          obtain ⟨_, rfl⟩ := heq
          refine ⟨?_, halive, hkeep, fun _ => hself⟩
          exact h.close_last htask rfl rfl rfl rfl hfd rfl rfl (not_not.mp hcount) ht
  . next hd =>
    rw [Option.some.injEq, Prod.mk.injEq] at hok
    obtain ⟨_, rfl⟩ := hok
    exact ⟨h, hc, fun _ hk => hk, fun hd' => absurd hd' hd⟩

theorem Counted.sysClose_isSome (h : s.Counted) (hc : s.alive c = true) {d : Nat} : (s.sysClose c d).isSome := by
  obtain ⟨task, htask, hzombie⟩ := task_of_alive hc
  unfold State.sysClose
  rw [htask]
  simp only
  split
  . next hd =>
    split
    . rfl
    . next f hfd =>
      have hlive := h.live_of_filpOf ((filpOf_eq htask).trans hfd)
      split
      . next hzero => exact absurd hzero hlive
      split
      . rfl
      . have hput := h.iput_isSome (k := .inl f)
        rw [inodeOf_live hlive] at hput
        rw [Option.isSome_map]
        exact hput
  . rfl

theorem filp_of_freeFd {arg : Nat} (h : task.freeFd arg = some fd) : task.filp fd = none := by
  unfold Task.freeFd at h
  have hfree := List.find?_some h
  rw [Bool.and_eq_true, Option.isNone_iff_eq_none] at hfree
  exact hfree.right

theorem filp_of_fileOf {d : Nat} (h : task.fileOf d = some f) : ∃ d', task.filp d' = some f := by
  unfold Task.fileOf at h
  split at h
  . next hd => exact ⟨⟨d, hd⟩, h⟩
  . simp at h

theorem mem_freeFiles : f ∈ s.freeFiles ↔ s.fCount f = 0 := by
  unfold freeFiles
  simp [fCount]

theorem Counted.dupfd (h : s.Counted) (hc : s.alive c = true) {d arg : Nat} (hok : s.dupfd c d arg = some (r, s'))
    : s'.Counted := by
  obtain ⟨task, htask, hzombie⟩ := task_of_alive hc
  unfold State.dupfd at hok
  rw [htask] at hok
  simp only at hok
  split at hok
  . rw [Option.some.injEq, Prod.mk.injEq] at hok
    exact hok.right ▸ h
  . next f hf =>
    split at hok
    . rw [Option.some.injEq, Prod.mk.injEq] at hok
      exact hok.right ▸ h
    . split at hok
      . rw [Option.some.injEq, Prod.mk.injEq] at hok
        exact hok.right ▸ h
      . next i hi =>
        rw [Option.some.injEq, Prod.mk.injEq] at hok
        obtain ⟨_, rfl⟩ := hok
        obtain ⟨d', hd'⟩ := filp_of_fileOf hf
        have hlive : s.fCount f ≠ 0 := h.live_of_filpOf ((filpOf_eq htask).trans hd')
        refine h.dup htask rfl rfl rfl rfl hc (filp_of_freeFd hi) hlive rfl ?_ rfl
        rw [← h.files.succShort_count Counted.card_keys]
        rfl

theorem Counted.sysDup2 (h : s.Counted) (hc : s.alive c = true) {d d' : Nat} (hok : s.sysDup2 c d d' = some (r, s'))
    : s'.Counted := by
  unfold State.sysDup2 at hok
  obtain ⟨⟨r₁, s₁⟩, hclose, hdup⟩ := Option.bind_eq_some_iff.mp hok
  obtain ⟨hcounted, halive, _⟩ := h.sysClose hc hclose
  exact hcounted.dupfd halive hdup

theorem Counted.sysFcntl (h : s.Counted) (hc : s.alive c = true) {d arg : Nat} {cmd : FcntlCmd}
    (hok : s.sysFcntl c d cmd arg = some (r, s'))
    : s'.Counted := by
  obtain ⟨task, htask, hzombie⟩ := task_of_alive hc
  unfold State.sysFcntl at hok
  rw [htask] at hok
  simp only at hok
  split at hok
  . rw [Option.some.injEq, Prod.mk.injEq] at hok
    exact hok.right ▸ h
  . next f hf =>
    cases cmd with
    | dupfd => exact h.dupfd hc hok
    | setfd =>
      simp only at hok
      split at hok
      . rw [Option.some.injEq, Prod.mk.injEq] at hok
        exact hok.right ▸ h.setTask_same htask rfl rfl rfl
      . rw [Option.some.injEq, Prod.mk.injEq] at hok
        exact hok.right ▸ h.setTask_same htask rfl rfl rfl
    | setfl =>
      rw [Option.some.injEq, Prod.mk.injEq] at hok
      obtain ⟨_, rfl⟩ := hok
      have hsame : s.task = Function.update s.task c (some task) := (Function.update_eq_self_iff.mpr htask.symm).symm
      refine h.same htask hsame rfl rfl rfl rfl ?_ ?_ rfl
      . rw [fCount_update rfl]
        exact Function.update_eq_self f s.fCount
      . intro g _
        rw [file_setFile, Function.update_apply]
        split
        . next heq => rw [heq]
        . rfl
    | _ =>
      rw [Option.some.injEq, Prod.mk.injEq] at hok
      exact hok.right ▸ h

theorem Counted.undo (h : s.Counted) (hc : s.task c = some task) (htask : s'.task = Function.update s.task c (some task'))
    (href : task'.ref = task.ref) (hzombie : task'.zombie = task.zombie) (hsuper : s'.super = s.super)
    (hfilp : task'.filp = task.filp) (hf : s.fCount f = 0) {file : File}
    (hfile : s'.file = Function.update s.file f file) (hcount : file.fCount = 0)
    (hicount : s'.inodes.count = s.inodes.count)
    : s'.Counted := by
  refine h.same hc htask href hzombie hsuper hfilp ?_ ?_ hicount
  . rw [fCount_update hfile, hcount]
    exact Function.update_eq_self_iff.mpr hf.symm
  . intro g hg
    have hne : g ≠ f := by
      intro heq
      exact hg (heq ▸ hf)
    rw [hfile, Function.update_of_ne hne]

namespace sysOpen

variable {o : Namei}

theorem count_of_balanced (h : s.Counted) (ho : o.Balanced s.inodes) {n : InodeNr} (hn : o.result = .ok n)
    : o.inodes.count = Function.update s.inodes.count n (s.inodes.count n + 1) := by
  funext m
  rw [ho m, hn, Function.update_apply]
  unfold Except.toOption
  simp only [Option.some.injEq]
  by_cases hm : m = n
  . subst hm
    rw [if_pos rfl, if_pos rfl]
    exact h.inodes.succShort_count Counted.card_holders
  . rw [if_neg (Ne.symm hm), if_neg hm]

theorem count_of_error (ho : o.Balanced s.inodes) {e : Int} (he : o.result = .error e)
    : o.inodes.count = s.inodes.count := by
  funext m
  rw [ho m, he]
  rfl

end sysOpen

theorem Counted.sysOpen (h : s.Counted) (hc : s.alive c = true) {flag : Nat} {o : Namei} {b : Bool}
    (ho : o.Balanced s.inodes) (hok : s.sysOpen c flag o b = some (r, s'))
    : s'.Counted := by
  obtain ⟨task, htask, hzombie⟩ := task_of_alive hc
  unfold State.sysOpen at hok
  rw [htask] at hok
  simp only at hok
  split at hok
  . rw [Option.some.injEq, Prod.mk.injEq] at hok
    exact hok.right ▸ h
  . next fd hfd =>
    have hfree : task.filp fd = none := filp_of_freeFd hfd
    split at hok
    . rw [Option.some.injEq, Prod.mk.injEq] at hok
      exact hok.right ▸ h.setTask_same htask rfl rfl rfl
    . next f fs hfiles =>
      have hf : s.fCount f = 0 := mem_freeFiles.mp (hfiles ▸ List.mem_cons_self)
      have hback : Function.update (Function.update task.filp fd (some f)) fd none = task.filp := by
        rw [Function.update_idem]
        exact Function.update_eq_self_iff.mpr hfree.symm
      split at hok
      . next e he =>
        rw [Option.some.injEq, Prod.mk.injEq] at hok
        obtain ⟨_, rfl⟩ := hok
        refine h.undo htask (Function.update_idem _ _ _) ?_ ?_ rfl hback hf (Function.update_idem _ _ _) rfl ?_
        . rfl
        . rfl
        . exact sysOpen.count_of_error ho he
      . next n hn =>
        have hcount := sysOpen.count_of_balanced h ho hn
        unfold sysOpen.found at hok
        simp only at hok
        split at hok
        . obtain ⟨t, ht, heq⟩ := Option.map_eq_some_iff.mp hok
          rw [Prod.mk.injEq] at heq
          obtain ⟨_, rfl⟩ := heq
          refine h.undo htask (Function.update_idem _ _ _) ?_ ?_ rfl hback hf (Function.update_idem _ _ _) rfl ?_
          . rfl
          . rfl
          . have hput : t.count = Function.update o.inodes.count n (o.inodes.count n - 1) := Inodes.count_iput ht
            show t.count = s.inodes.count
            rw [hput, hcount, Function.update_self, Function.update_idem, Nat.add_sub_cancel, Function.update_eq_self]
        . rw [Option.some.injEq, Prod.mk.injEq] at hok
          obtain ⟨_, rfl⟩ := hok
          refine h.attach htask (Function.update_idem _ _ _) ?_ ?_ rfl hc hfree hf ?_ (Function.update_idem _ _ _) rfl rfl ?_
          . rfl
          . rfl
          . rfl
          . rw [← hcount]
            show Inodes.count (if _ then _ else _) = o.inodes.count
            split
            . exact Inodes.count_checkDiskChange
            . rfl

namespace sysPipe

variable {f₀ f₁ : FileNr}

theorem fCount_undo {u : State} {a b : Nat} (hu : u.file = ((s.setCount f₀ a).setCount f₁ b).file)
    (h₀ : s.fCount f₀ = 0) (h₁ : s.fCount f₁ = 0)
    : ((u.setCount f₁ 0).setCount f₀ 0).fCount = s.fCount := by
  have hcount : u.fCount = ((s.setCount f₀ a).setCount f₁ b).fCount := by
    funext g
    exact congrArg File.fCount (congrFun hu g)
  rw [fCount_setCount, fCount_setCount, hcount, fCount_setCount, fCount_setCount]
  funext g
  rw [Function.update_apply]
  split
  . next heq => rw [heq, h₀]
  . next hne₀ =>
    rw [Function.update_apply]
    split
    . next heq => rw [heq, h₁]
    . next hne₁ => rw [Function.update_of_ne hne₁, Function.update_of_ne hne₀]

theorem fInode_undo {u : State} {a b : Nat} {g : FileNr} (hu : u.file = ((s.setCount f₀ a).setCount f₁ b).file)
    : (((u.setCount f₁ 0).setCount f₀ 0).file g).fInode = (s.file g).fInode := by
  rw [fInode_setCount, fInode_setCount, hu, fInode_setCount, fInode_setCount]

theorem free_of_freeFiles {fs : List FileNr} (h : s.freeFiles = f₀ :: f₁ :: fs)
    : s.fCount f₀ = 0 ∧ s.fCount f₁ = 0 ∧ f₁ ≠ f₀ := by
  have hnodup : s.freeFiles.Nodup := (List.nodup_finRange NR_FILE).filter _
  rw [h] at hnodup
  refine ⟨mem_freeFiles.mp (by simp [h]), mem_freeFiles.mp (by simp [h]), ?_⟩
  intro heq
  exact (List.nodup_cons.mp hnodup).left (heq ▸ List.mem_cons_self)

theorem filp_of_mem_freeFds (h : fd ∈ task.freeFds) : task.filp fd = none := by
  unfold Task.freeFds at h
  simpa using (List.mem_filter.mp h).right

theorem filp_undo {fd₀ fd₁ : Fd} {a b : Option FileNr} (h₀ : task.filp fd₀ = none) (h₁ : task.filp fd₁ = none)
    : ((((task.setFilp fd₀ a).setFilp fd₁ b).setFilp fd₁ none).setFilp fd₀ none).filp = task.filp := by
  unfold Task.setFilp
  funext d
  simp only [Function.update_apply]
  split
  . next heq => rw [heq, h₀]
  . split
    . next heq => rw [heq, h₁]
    . rfl

theorem filp_of_freeFds {fd₀ fd₁ : Fd} {fds : List Fd} (h : task.freeFds = fd₀ :: fd₁ :: fds)
    : task.filp fd₀ = none ∧ task.filp fd₁ = none ∧ fd₁ ≠ fd₀ := by
  have hnodup : task.freeFds.Nodup := (List.nodup_finRange NR_OPEN).filter _
  rw [h] at hnodup
  refine ⟨filp_of_mem_freeFds (by simp [h]), filp_of_mem_freeFds (by simp [h]), ?_⟩
  intro heq
  exact (List.nodup_cons.mp hnodup).left (heq ▸ List.mem_cons_self)

end sysPipe

theorem Counted.pipe (h : s.Counted) (hc : s.alive c = true) (htask : s.task c = some task) {f₀ f₁ : FileNr}
    {fd₀ fd₁ : Fd} {n : InodeNr} (h₀ : s.fCount f₀ = 0) (h₁ : s.fCount f₁ = 0)
    (hne : f₁ ≠ f₀) (hfd₀ : task.filp fd₀ = none) (hfd₁ : task.filp fd₁ = none) (hne' : fd₁ ≠ fd₀)
    (hn : s.inodes.count n = 0) (ht : s'.inodes.count = Function.update s.inodes.count n 2)
    (htask' : s'.task = Function.update s.task c (some ((task.setFilp fd₀ (some f₀)).setFilp fd₁ (some f₁))))
    (hsuper : s'.super = s.super) (hothers : ∀ g, g ≠ f₀ → g ≠ f₁ → s'.file g = s.file g)
    (hcount₀ : s'.fCount f₀ = 1) (hcount₁ : s'.fCount f₁ = 1) (hn₀ : (s'.file f₀).fInode = some n)
    (hn₁ : (s'.file f₁).fInode = some n)
    : s'.Counted := by
  have hfile : s'.file = Function.update (Function.update s.file f₀ (s'.file f₀)) f₁ (s'.file f₁) := by
    funext g
    rw [Function.update_apply]
    split
    . next heq => rw [heq]
    . next hne₁ =>
      rw [Function.update_apply]
      split
      . next heq => rw [heq]
      . next hne₀ => exact hothers g hne₀ hne₁
  let u := s.inodes.set n { s.inodes.inode n with iCount := 1 }
  have hu : u.count = Function.update s.inodes.count n 1 := Inodes.count_set
  let s₁ := ((s.setTask c (task.setFilp fd₀ (some f₀))).setFile f₀ (s'.file f₀)).setInodes u
  have hs₁ : s₁.Counted := by
    refine h.attach htask rfl rfl rfl rfl hc hfd₀ h₀ rfl rfl hcount₀ hn₀ ?_
    rw [hn]
    exact hu
  have htask₁ : s₁.task c = some (task.setFilp fd₀ (some f₀)) := Function.update_self _ _ _
  have halive : s₁.alive c = true := alive_update htask rfl rfl hc
  have hidem : s'.task = Function.update s₁.task c (some ((task.setFilp fd₀ (some f₀)).setFilp fd₁ (some f₁))) := by
    rw [htask']
    exact (Function.update_idem _ _ _).symm
  refine hs₁.attach htask₁ hidem rfl rfl hsuper halive ?_ ?_ rfl hfile hcount₁ hn₁ ?_
  . exact (Function.update_of_ne hne' _ _).trans hfd₁
  . have hcount : s₁.fCount = Function.update s.fCount f₀ (s'.fCount f₀) := fCount_update rfl
    rw [hcount, Function.update_of_ne hne, h₁]
  . rw [ht, show s₁.inodes.count = u.count from rfl, hu, Function.update_self, Function.update_idem]

theorem Counted.sysPipe (h : s.Counted) (hc : s.alive c = true) {page : Nat} {r : Option (Fd × Fd)}
    (hok : s.sysPipe c page = some (r, s'))
    : s'.Counted := by
  obtain ⟨task, htask, hzombie⟩ := task_of_alive hc
  have hsame : s.task = Function.update s.task c (some task) := (Function.update_eq_self_iff.mpr htask.symm).symm
  unfold State.sysPipe at hok
  rw [htask] at hok
  simp only at hok
  split at hok
  . next f₀ f₁ fs hfiles =>
    obtain ⟨h₀, h₁, hne⟩ := sysPipe.free_of_freeFiles hfiles
    split at hok
    . next fd₀ fd₁ fds hfds =>
      obtain ⟨hfd₀, hfd₁, hne'⟩ := sysPipe.filp_of_freeFds hfds
      split at hok
      . simp at hok
      . next t ht =>
        rw [Option.some.injEq, Prod.mk.injEq] at hok
        obtain ⟨_, rfl⟩ := hok
        refine h.same htask (Function.update_idem _ _ _) ?_ ?_ rfl ?_ ?_ ?_ ?_
        . rfl
        . rfl
        . exact sysPipe.filp_undo hfd₀ hfd₁
        . exact sysPipe.fCount_undo rfl h₀ h₁
        . intro g _
          exact sysPipe.fInode_undo rfl
        . obtain ⟨_, hcount⟩ | ⟨m, hm, _⟩ := Inodes.getPipeInode_spec ht
          . exact hcount
          . simp at hm
      . next n t ht =>
        obtain ⟨hnone, _⟩ | ⟨m, hm, hzero, hcount⟩ := Inodes.getPipeInode_spec ht
        . simp at hnone
        . rw [Option.some.injEq] at hm
          subst hm
          rw [Option.some.injEq, Prod.mk.injEq] at hok
          obtain ⟨_, rfl⟩ := hok
          refine h.pipe hc htask h₀ h₁ hne hfd₀ hfd₁ hne' hzero hcount rfl rfl ?_ ?_ ?_ ?_ ?_
          . intro g hg₀ hg₁
            simp [setCount, setTask, setInodes, setFile, hg₀, hg₁]
          . have hzero₀ : (s.file f₀).fCount = 0 := h₀
            simp [fCount, setCount, setTask, setInodes, setFile, hne.symm, hzero₀, succShort]
          . have hzero₁ : (s.file f₁).fCount = 0 := h₁
            simp [fCount, setCount, setTask, setInodes, setFile, hne, hzero₁, succShort]
          . simp [setTask, setInodes, setFile, hne.symm]
          . simp [setTask, setInodes, setFile]
    . next fd₀ hfds =>
      rw [Option.some.injEq, Prod.mk.injEq] at hok
      obtain ⟨_, rfl⟩ := hok
      refine h.same htask (Function.update_idem _ _ _) ?_ ?_ rfl ?_ ?_ ?_ rfl
      . rfl
      . rfl
      . show Function.update (Function.update task.filp fd₀ (some f₀)) fd₀ none = task.filp
        rw [Function.update_idem]
        exact Function.update_eq_self_iff.mpr (sysPipe.filp_of_mem_freeFds (hfds ▸ List.mem_cons_self)).symm
      . exact sysPipe.fCount_undo rfl h₀ h₁
      . intro g _
        exact sysPipe.fInode_undo rfl
    . rw [Option.some.injEq, Prod.mk.injEq] at hok
      obtain ⟨_, rfl⟩ := hok
      refine h.same htask hsame rfl rfl rfl rfl ?_ ?_ rfl
      . exact sysPipe.fCount_undo rfl h₀ h₁
      . intro g _
        exact sysPipe.fInode_undo rfl
  . next f₀ hfiles =>
    have h₀ : s.fCount f₀ = 0 := mem_freeFiles.mp (hfiles ▸ List.mem_cons_self)
    rw [Option.some.injEq, Prod.mk.injEq] at hok
    obtain ⟨_, rfl⟩ := hok
    exact h.undo htask hsame rfl rfl rfl rfl h₀ (Function.update_idem _ _ _) rfl rfl
  . rw [Option.some.injEq, Prod.mk.injEq] at hok
    exact hok.right ▸ h

end State
end Files
end OS
