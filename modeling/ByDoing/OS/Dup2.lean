import ByDoing.OS.FileTable

namespace OS
namespace Files
namespace State

variable {s : State} {c : Slot} {task : Task} {oldfd newfd : Nat}

def Untouched (s s' : State) (c : Slot) (task : Task) : Prop :=
  ∃ task', s'.task c = some task' ∧ task'.filp = task.filp ∧ task'.closeOnExec = task.closeOnExec
    ∧ ∀ f, (s'.file f).fCount = (s.file f).fCount

def CopiesSafely (s : State) (c : Slot) (task : Task) (oldfd newfd : Nat) : Prop :=
  (∀ r s', s.sysDup2 c oldfd newfd = some (r, s') → r < 0 → Untouched s s' c task)
    ∧ (task.fileOf oldfd ≠ none → oldfd = newfd → ∃ s' task', s.sysDup2 c oldfd newfd = some ((oldfd : Int), s')
      ∧ s'.task c = some task' ∧ task'.fileOf oldfd = task.fileOf oldfd)

-- Whether the descriptor is marked to be closed by `execve`.
def Marked (task : Task) (fd : Nat) : Prop :=
  (task.clearCloseOnExec fd).closeOnExec ≠ task.closeOnExec

-- Closing a descriptor of the file panics: the file has no users, or the last one is to give up an inode without any.
def ClosePanics (s : State) (f : FileNr) : Prop :=
  (s.file f).fCount = 0 ∨ ((s.file f).fCount = 1 ∧ ∃ n, (s.file f).fInode = some n ∧ (s.inodes.inode n).iCount = 0)

/--
The source is open and is not the target, or there is nothing to be closed: the target is no descriptor, or it is a
closed one without a mark, or closing it panics.
-/
def Copyable (s : State) (task : Task) (oldfd newfd : Nat) : Prop :=
  match task.fileOf oldfd with
  | some _ => oldfd ≠ newfd
  | none =>
    match task.fileOf newfd with
    | some f => s.ClosePanics f
    | none => NR_OPEN ≤ newfd ∨ ¬ Marked task newfd

theorem fileOf_of_lt {fd : Nat} (h : fd < NR_OPEN) : task.fileOf fd = task.filp ⟨fd, h⟩ := by
  rw [Task.fileOf, dif_pos h]

theorem fileOf_of_le {fd : Nat} (h : NR_OPEN ≤ fd) : task.fileOf fd = none := by
  rw [Task.fileOf, dif_neg (Nat.not_lt_of_le h)]

theorem lt_of_fileOf {fd : Nat} {f : FileNr} (h : task.fileOf fd = some f) : fd < NR_OPEN := by
  by_contra hle
  rw [fileOf_of_le (Nat.le_of_not_lt hle)] at h
  cases h

theorem sysClose_of_le (htask : s.task c = some task) {fd : Nat} (h : NR_OPEN ≤ fd)
    : s.sysClose c fd = some (-EINVAL, s) := by
  unfold sysClose
  rw [htask]
  simp only [dif_neg (Nat.not_lt_of_le h)]

theorem sysClose_of_closed (htask : s.task c = some task) {fd : Nat} (h : fd < NR_OPEN) (hclosed : task.fileOf fd = none)
    : s.sysClose c fd = some (-EINVAL, s.setTask c (task.clearCloseOnExec fd)) := by
  rw [fileOf_of_lt h] at hclosed
  unfold sysClose
  rw [htask]
  simp only [dif_pos h]
  rw [show (task.clearCloseOnExec fd).filp ⟨fd, h⟩ = none from hclosed]

theorem sysClose_of_open (htask : s.task c = some task) {fd : Nat} {f : FileNr} (hopen : task.fileOf fd = some f)
    : (s.ClosePanics f ∧ s.sysClose c fd = none)
        ∨ (¬ s.ClosePanics f ∧ ∃ s' task', s.sysClose c fd = some (0, s') ∧ s'.task c = some task'
          ∧ task'.fileOf fd = none ∧ ∀ d, d ≠ fd → task'.fileOf d = task.fileOf d) := by
  have h := lt_of_fileOf hopen
  rw [fileOf_of_lt h] at hopen
  let task' := (task.clearCloseOnExec fd).setFilp ⟨fd, h⟩ none
  have hself : task'.fileOf fd = none := by
    rw [fileOf_of_lt h]
    exact Function.update_self _ _ _
  have hother : ∀ d, d ≠ fd → task'.fileOf d = task.fileOf d := by
    intro d hd
    unfold Task.fileOf
    split
    . next hlt =>
      apply Function.update_of_ne
      intro heq
      exact hd (congrArg Fin.val heq)
    . rfl
  unfold sysClose
  rw [htask]
  simp only [dif_pos h]
  rw [show (task.clearCloseOnExec fd).filp ⟨fd, h⟩ = some f from hopen]
  have hfile : ∀ g, (s.setTask c task').file g = s.file g := fun _ => rfl
  simp only [hfile, show (task.clearCloseOnExec fd).setFilp ⟨fd, h⟩ none = task' from rfl]
  have htask' : (s.setTask c task').task c = some task' := Function.update_self _ _ _
  unfold ClosePanics
  by_cases hzero : (s.file f).fCount = 0
  . exact .inl ⟨.inl hzero, by rw [if_pos hzero]⟩
  . rw [if_neg hzero]
    by_cases hlast : (s.file f).fCount - 1 ≠ 0
    . rw [if_pos hlast]
      refine .inr ⟨?_, _, task', rfl, htask', hself, hother⟩
      rintro (h0 | ⟨h1, _⟩)
      . exact hzero h0
      . omega
    . have hone : (s.file f).fCount = 1 := by omega
      rw [if_neg hlast]
      cases hinode : (s.file f).fInode with
      | none =>
        refine .inr ⟨?_, _, task', rfl, htask', hself, hother⟩
        rintro (h0 | ⟨_, n, hn, _⟩)
        . exact hzero h0
        . cases hn
      | some n =>
        unfold Inodes.iput
        rw [show (s.setTask c task').inodes = s.inodes from rfl]
        by_cases hcount : (s.inodes.inode n).iCount = 0
        . exact .inl ⟨.inr ⟨hone, n, rfl, hcount⟩, by simp only [if_pos hcount, Option.map_none]⟩
        . simp only [if_neg hcount, Option.map_some]
          refine .inr ⟨?_, _, task', rfl, htask', hself, hother⟩
          rintro (h0 | ⟨_, m, hm, hm'⟩)
          . exact hzero h0
          . cases hm
            exact hcount hm'

theorem dupfd_of_closed (htask : s.task c = some task) (h : task.fileOf oldfd = none) (arg : Nat)
    : s.dupfd c oldfd arg = some (-EBADF, s) := by
  unfold dupfd
  rw [htask]
  simp only [h]

theorem dupfd_of_le (htask : s.task c = some task) {f : FileNr} (h : task.fileOf oldfd = some f) {arg : Nat}
    (harg : NR_OPEN ≤ arg)
    : s.dupfd c oldfd arg = some (-EINVAL, s) := by
  unfold dupfd
  rw [htask]
  simp only [h, if_pos harg]

theorem dupfd_of_free (htask : s.task c = some task) {f : FileNr} (h : task.fileOf oldfd = some f) {arg : Nat}
    (harg : arg < NR_OPEN) (hfree : task.fileOf arg = none)
    : ∃ i s', s.dupfd c oldfd arg = some (Int.ofNat i, s') := by
  unfold dupfd
  rw [htask]
  simp only [h, if_neg (Nat.not_le_of_lt harg)]
  cases hfind : task.freeFd arg with
  | none =>
    unfold Task.freeFd at hfind
    rw [List.find?_eq_none] at hfind
    rw [fileOf_of_lt harg] at hfree
    exact absurd (by simp [hfree]) (hfind ⟨arg, harg⟩ (List.mem_finRange _))
  | some i => exact ⟨i.val, _, rfl⟩

theorem untouched_refl (htask : s.task c = some task) : Untouched s s c task :=
  ⟨task, htask, rfl, rfl, fun _ => rfl⟩

theorem copiesSafely_of_closed (htask : s.task c = some task) (hold : task.fileOf oldfd = none)
    : CopiesSafely s c task oldfd newfd ↔ ∀ r s' task', s.sysClose c newfd = some (r, s') → s'.task c = some task' →
        task'.fileOf oldfd = none → Untouched s s' c task := by
  constructor
  . rintro ⟨herror, _⟩ r s' task' hclose htask' hold'
    have hdup : s.sysDup2 c oldfd newfd = some (-EBADF, s') := by
      unfold sysDup2
      rw [hclose, Option.bind_some, dupfd_of_closed htask' hold']
    exact herror _ s' hdup (by decide)
  . intro hclosed
    refine ⟨?_, fun hopen => absurd hold hopen⟩
    intro r s' hdup _
    unfold sysDup2 at hdup
    obtain ⟨⟨r₁, s₁⟩, hclose, hdup⟩ := Option.bind_eq_some_iff.mp hdup
    have hkeeps : ∃ task', s₁.task c = some task' ∧ task'.fileOf oldfd = none := by
      by_cases hlt : newfd < NR_OPEN
      . cases hnew : task.fileOf newfd with
        | none =>
          rw [sysClose_of_closed htask hlt hnew] at hclose
          cases hclose
          exact ⟨_, Function.update_self _ _ _, hold⟩
        | some f =>
          obtain ⟨_, hpanic⟩ | ⟨_, s'', task', hclose', htask', hself, hother⟩ := sysClose_of_open htask hnew
          . rw [hpanic] at hclose
            cases hclose
          . rw [hclose'] at hclose
            cases hclose
            refine ⟨task', htask', ?_⟩
            by_cases heq : oldfd = newfd
            . rw [heq, hself]
            . rw [hother oldfd heq, hold]
      . rw [sysClose_of_le htask (Nat.le_of_not_lt hlt)] at hclose
        cases hclose
        exact ⟨task, htask, hold⟩
    obtain ⟨task', htask', hold'⟩ := hkeeps
    rw [dupfd_of_closed htask' hold'] at hdup
    cases hdup
    exact hclosed r₁ _ task' hclose htask' hold'

theorem sysDup2_of_open (htask : s.task c = some task) {f : FileNr} (hold : task.fileOf oldfd = some f)
    (hne : oldfd ≠ newfd) (hlt : newfd < NR_OPEN) {r : Int} {s' : State}
    (h : s.sysDup2 c oldfd newfd = some (r, s'))
    : 0 ≤ r := by
  unfold sysDup2 at h
  obtain ⟨⟨r₁, s₁⟩, hclose, hdup⟩ := Option.bind_eq_some_iff.mp h
  have hkeeps : ∃ task', s₁.task c = some task' ∧ task'.fileOf oldfd = some f ∧ task'.fileOf newfd = none := by
    cases hnew : task.fileOf newfd with
    | none =>
      rw [sysClose_of_closed htask hlt hnew] at hclose
      cases hclose
      exact ⟨_, Function.update_self _ _ _, hold, hnew⟩
    | some g =>
      obtain ⟨_, hpanic⟩ | ⟨_, s'', task', hclose', htask', hself, hother⟩ := sysClose_of_open htask hnew
      . rw [hpanic] at hclose
        cases hclose
      . rw [hclose'] at hclose
        cases hclose
        exact ⟨task', htask', (hother oldfd hne).trans hold, hself⟩
  obtain ⟨task', htask', hold', hnew'⟩ := hkeeps
  obtain ⟨i, s'', hfree⟩ := dupfd_of_free htask' hold' hlt hnew'
  rw [hfree] at hdup
  cases hdup
  exact Int.natCast_nonneg i

/--
`sys_dup2` keeps what it is to keep exactly if it has nothing to close before an error.
-/
theorem copiesSafely_iff (s : State) (c : Slot) (task : Task) (oldfd newfd : Nat) (htask : s.task c = some task)
    : CopiesSafely s c task oldfd newfd ↔ Copyable s task oldfd newfd := by
  unfold Copyable
  cases hold : task.fileOf oldfd with
  | some f =>
    dsimp only
    constructor
    . rintro ⟨_, hself⟩ rfl
      obtain ⟨s', _, hdup, _⟩ := hself (by simp [hold]) rfl
      unfold sysDup2 at hdup
      obtain ⟨_, hpanic⟩ | ⟨_, s₁, task₁, hclose, htask₁, hclosed, _⟩ := sysClose_of_open htask hold
      . rw [hpanic] at hdup
        cases hdup
      . rw [hclose, Option.bind_some, dupfd_of_closed htask₁ hclosed] at hdup
        have hresult : -EBADF = (oldfd : Int) := congrArg Prod.fst (Option.some.inj hdup)
        unfold EBADF at hresult
        omega
    . intro hne
      refine ⟨?_, fun _ heq => absurd heq hne⟩
      intro r s' hdup hnegative
      by_cases hlt : newfd < NR_OPEN
      . have hresult := sysDup2_of_open htask hold hne hlt hdup
        omega
      . have hle := Nat.le_of_not_lt hlt
        unfold sysDup2 at hdup
        rw [sysClose_of_le htask hle, Option.bind_some, dupfd_of_le htask hold hle] at hdup
        cases hdup
        exact untouched_refl htask
  | none =>
    dsimp only
    rw [copiesSafely_of_closed htask hold]
    cases hnew : task.fileOf newfd with
    | some f =>
      dsimp only
      constructor
      . intro hclosed
        obtain ⟨hpanics, _⟩ | ⟨_, s₁, task₁, hclose, htask₁, hself, hother⟩ := sysClose_of_open htask hnew
        . exact hpanics
        . have hold₁ : task₁.fileOf oldfd = none := by
            by_cases heq : oldfd = newfd
            . rw [heq, hself]
            . rw [hother oldfd heq, hold]
          obtain ⟨task', htask', hfilp, _⟩ := hclosed _ s₁ task₁ hclose htask₁ hold₁
          cases htask₁.symm.trans htask'
          -- The target was open and is not any more.
          have hsame : task₁.fileOf newfd = task.fileOf newfd := by
            unfold Task.fileOf
            rw [hfilp]
          rw [hself, hnew] at hsame
          cases hsame
      . intro hpanics r s₁ task₁ hclose _ _
        obtain ⟨_, hpanic⟩ | ⟨hno, _⟩ := sysClose_of_open htask hnew
        . rw [hpanic] at hclose
          cases hclose
        . exact absurd hpanics hno
    | none =>
      dsimp only
      by_cases hlt : newfd < NR_OPEN
      . have hclose := sysClose_of_closed htask hlt hnew
        have htask₁ : (s.setTask c (task.clearCloseOnExec newfd)).task c = some (task.clearCloseOnExec newfd) :=
          Function.update_self _ _ _
        constructor
        . intro hclosed
          obtain ⟨task', htask', _, hbits, _⟩ := hclosed _ _ _ hclose htask₁ hold
          cases htask₁.symm.trans htask'
          exact .inr fun hmarked => hmarked hbits
        . rintro hunmarked r s₁ task₁ hclose' _ _
          rw [hclose] at hclose'
          cases hclose'
          obtain hle | hmark := hunmarked
          . omega
          . rw [Marked, not_not] at hmark
            exact ⟨_, htask₁, rfl, hmark, fun _ => rfl⟩
      . have hle := Nat.le_of_not_lt hlt
        constructor
        . exact fun _ => .inl hle
        . intro _ r s₁ task₁ hclose _ _
          rw [sysClose_of_le htask hle] at hclose
          cases hclose
          exact untouched_refl htask

theorem tasks_pos : 0 < NR_TASKS := by
  decide

theorem inodes_pos : 0 < NR_INODE := by
  decide

theorem files_pos : 0 < NR_FILE := by
  decide

def firstTask : Slot :=
  ⟨0, tasks_pos⟩

def twoDescriptors : State :=
  let root : InodeNr := ⟨0, inodes_pos⟩
  let file : FileNr := ⟨0, files_pos⟩
  let s := init root { inode := fun _ => Inode.zero, last := root }
  (s.mapTask firstTask fun task => { task with filp := fun fd => if fd.val < 2 then some file else none }).setCount file 2

-- The descriptor 1 is lost by a copy of the descriptor 2, which is closed.
theorem not_copiesSafely_twoDescriptors
    : ∃ task, twoDescriptors.task firstTask = some task ∧ ¬ CopiesSafely twoDescriptors firstTask task 2 1 := by
  refine ⟨_, rfl, ?_⟩
  rintro ⟨herror, _⟩
  obtain ⟨task', htask', hfilp, _⟩ := herror (-9) _ rfl (by decide)
  cases htask'
  exact absurd (congrFun hfilp ⟨1, by decide⟩) (by decide)

theorem copiesSafely_iff_twoDescriptors
    : ∃ task, twoDescriptors.task firstTask = some task
        ∧ (CopiesSafely twoDescriptors firstTask task 0 1 ↔ Copyable twoDescriptors task 0 1) :=
  ⟨_, rfl, copiesSafely_iff twoDescriptors firstTask _ 0 1 rfl⟩

end State
end Files
end OS
