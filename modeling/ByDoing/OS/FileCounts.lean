import ByDoing.OS.FileTable

namespace OS
namespace Files

instance : Fintype TaskRef :=
  ⟨{TaskRef.pwd, TaskRef.root, TaskRef.executable}, by intro r; cases r <;> decide⟩

-- What points to an inode: an entry of the file table, a task, or a super block with its `s_isup` or `s_imount`.
abbrev Holder := FileNr ⊕ Slot × TaskRef ⊕ SuperNr × Bool

abbrev Tallied {κ φ : Type} [Fintype κ] [DecidableEq φ] (ref : κ → Option φ) (count : φ → Nat) : Prop :=
  Sharing.Mapping.Exact { frame := ref, writable := fun _ => false, count := count } [] (fun _ => False) fun _ => True

namespace Tallied

variable {κ φ : Type} [Fintype κ] [DecidableEq φ] {ref : κ → Option φ} {count count' : φ → Nat} {k : κ} {f : φ}

theorem count_eq_card (h : Tallied ref count) : count f = (Finset.univ.filter fun k => ref k = some f).card := by
  have hcount := h.count_eq f trivial
  rw [List.count_nil, Nat.add_zero] at hcount
  exact hcount

theorem count_eq_zero_iff (h : Tallied ref count) : count f = 0 ↔ ∀ k, ref k ≠ some f := by
  constructor
  . intro hzero
    exact (h.unreferenced trivial hzero).left
  . intro hunused
    rw [h.count_eq_card, Finset.card_eq_zero, Finset.filter_eq_empty_iff]
    intro k _
    exact hunused k

theorem empty : Tallied (fun _ : κ => (none : Option φ)) fun _ => 0 := by
  constructor
  . intro f _
    rw [Sharing.Mapping.Exact.card_of_unused (by intro k hk; simp at hk)]
    rfl
  . intro k f _
    trivial
  . intro f hf
    exact absurd hf List.not_mem_nil
  . intro f hf
    exact absurd hf List.not_mem_nil
  . exact List.nodup_nil
  . intro k k' f hk
    exact hk.elim

theorem succShort_count (h : Tallied ref count) (hcard : Fintype.card κ < 65535) : succShort (count f) = count f + 1 := by
  have hle : count f ≤ Fintype.card κ := h.count_le trivial
  unfold succShort
  exact Nat.mod_eq_of_lt (by omega)

variable [DecidableEq κ]

theorem attach (h : Tallied ref count) (hk : ref k = none) (hcount : count' = Function.update count f (count f + 1))
    : Tallied (Function.update ref k (some f)) count' :=
  h.acquire hk trivial List.not_mem_nil (fun _ hj => hj.elim) id rfl hcount

theorem detach (h : Tallied ref count) (hk : ref k = some f) (hcount : count' = Function.update count f (count f - 1))
    : Tallied (Function.update ref k none) count' :=
  h.unmap hk rfl hcount

end Tallied

namespace Inode

theorem put_iCount {inode : Inode} : inode.put.iCount = inode.iCount - 1 := by
  unfold put zero
  split
  . split
    . rfl
    . simp only
      omega
  . split
    . rfl
    . split
      . rfl
      . split
        . simp only
          omega
        . rfl

end Inode

namespace Inodes

variable {t t' : Inodes} {n : InodeNr}

theorem count_set {inode : Inode} : (t.set n inode).count = Function.update t.count n inode.iCount := by
  funext m
  unfold count set
  by_cases hm : m = n
  . subst hm
    simp
  . simp [hm]

theorem count_iput (h : t.iput (some n) = some t') : t'.count = Function.update t.count n (t.count n - 1) := by
  rw [iput] at h
  split at h
  . simp at h
  . rw [Option.some.injEq] at h
    subst h
    rw [count_set, Inode.put_iCount]
    rfl

theorem iput_isSome (h : t.count n ≠ 0) : (t.iput (some n)).isSome := by
  have hcount : ¬(t.inode n).iCount = 0 := h
  rw [iput, if_neg hcount]
  rfl

theorem count_share : (t.share (some n)).count = Function.update t.count n (succShort (t.count n)) := by
  unfold share
  rw [count_set]
  rfl

theorem count_checkDiskChange {dev : Nat} {b : Bool} : (t.checkDiskChange dev b).count = t.count := by
  funext m
  unfold checkDiskChange invalidateInodes count
  split
  . simp only
    split <;> rfl
  . rfl

theorem search_free {i : Nat} {inode : Option InodeNr} {last last' : InodeNr}
    (hinode : ∀ m, inode = some m → t.count m = 0) (h : getEmptyInode.search t i inode last = (some n, last'))
    : t.count n = 0 := by
  induction i generalizing inode last with
  | zero =>
    simp only [getEmptyInode.search, Prod.mk.injEq] at h
    exact hinode n h.left
  | succ i ih =>
    unfold getEmptyInode.search at h
    simp only at h
    split at h
    . next hzero =>
      split at h
      . apply ih _ h
        intro m hm
        rw [Option.some.injEq] at hm
        exact hm ▸ hzero
      . rw [Prod.mk.injEq, Option.some.injEq] at h
        exact h.left ▸ hzero
    . exact ih hinode h

theorem getEmptyInode_spec (h : t.getEmptyInode = some (n, t'))
    : t.count n = 0 ∧ t'.count = Function.update t.count n 1 := by
  unfold getEmptyInode at h
  split at h
  . simp at h
  . next m last hsearch =>
    rw [Option.some.injEq, Prod.mk.injEq] at h
    obtain ⟨rfl, rfl⟩ := h
    refine ⟨search_free (by simp) hsearch, ?_⟩
    exact count_set (t := { t with last := last })

theorem getPipeInode_spec {page : Nat} {r : Option InodeNr} (h : t.getPipeInode page = some (r, t'))
    : r = none ∧ t'.count = t.count ∨ ∃ m, r = some m ∧ t.count m = 0 ∧ t'.count = Function.update t.count m 2 := by
  unfold getPipeInode at h
  split at h
  . simp at h
  . next m u hempty =>
    obtain ⟨hzero, hcount⟩ := getEmptyInode_spec hempty
    split at h
    . rw [Option.some.injEq, Prod.mk.injEq] at h
      obtain ⟨rfl, rfl⟩ := h
      left
      refine ⟨rfl, ?_⟩
      rw [count_set, hcount, Function.update_idem]
      exact Function.update_eq_self_iff.mpr hzero.symm
    . rw [Option.some.injEq, Prod.mk.injEq] at h
      obtain ⟨rfl, rfl⟩ := h
      right
      refine ⟨m, rfl, hzero, ?_⟩
      rw [count_set, hcount, Function.update_idem]

end Inodes

namespace State

variable {s s' : State} {c : Slot} {task task' : Task} {fd : Fd} {f : FileNr} {file : File} {t : Inodes}

def filpOf (s : State) (k : Slot × Fd) : Option FileNr :=
  (s.task k.fst).bind fun task => task.filp k.snd

def fCount (s : State) (f : FileNr) : Nat :=
  (s.file f).fCount

def inodeOf (s : State) : Holder → Option InodeNr
  | .inl f => if (s.file f).fCount = 0 then none else (s.file f).fInode
  | .inr (.inl k) => (s.task k.fst).bind fun task => task.ref k.snd
  | .inr (.inr k) => if k.snd then (s.super k.fst).sIsup else (s.super k.fst).sImount

structure Counted (s : State) : Prop where
  files : Tallied s.filpOf s.fCount
  inodes : Tallied s.inodeOf s.inodes.count
  -- An entry that is in use has an inode.
  backed : ∀ f, s.fCount f ≠ 0 → (s.file f).fInode ≠ none
  -- A task that has exited keeps nothing.
  exited : ∀ i, s.reapable i = true → (∀ fd, s.filpOf (i, fd) = none) ∧ ∀ r, s.inodeOf (.inr (.inl (i, r))) = none

theorem file_setFile : (s.setFile f file).file = Function.update s.file f file := rfl

section view

-- A state that has another record for the task `c`.
variable (hc : s.task c = some task) (htask : s'.task = Function.update s.task c (some task'))

include hc htask

theorem filpOf_update {v : Option FileNr} (hfilp : task'.filp = Function.update task.filp fd v)
    : s'.filpOf = Function.update s.filpOf (c, fd) v := by
  funext k
  obtain ⟨i, d⟩ := k
  unfold filpOf
  rw [htask]
  by_cases hi : i = c
  . subst hi
    by_cases hd : d = fd
    . subst hd
      simp [hfilp]
    . have hne : (i, d) ≠ (i, fd) := by simp [hd]
      simp [hfilp, hd, hne, hc]
  . have hne : (i, d) ≠ (c, fd) := by simp [hi]
    simp [hi, hne]

theorem filpOf_same (hfilp : task'.filp = task.filp) : s'.filpOf = s.filpOf := by
  funext k
  obtain ⟨i, d⟩ := k
  unfold filpOf
  rw [htask]
  by_cases hi : i = c
  . subst hi
    simp [hfilp, hc]
  . simp [hi]

theorem inodeOf_task_same (href : task'.ref = task.ref) (k : Slot × TaskRef)
    : s'.inodeOf (.inr (.inl k)) = s.inodeOf (.inr (.inl k)) := by
  obtain ⟨i, q⟩ := k
  unfold inodeOf
  rw [htask]
  by_cases hi : i = c
  . subst hi
    simp [href, hc]
  . simp [hi]

theorem inodeOf_setRef {v : Option InodeNr} {q : TaskRef} (href : task' = task.setRef v q) (hfile : s'.file = s.file)
    (hsuper : s'.super = s.super)
    : s'.inodeOf = Function.update s.inodeOf (.inr (.inl (c, q))) v := by
  funext k
  rcases k with g | ⟨i, q'⟩ | k
  . unfold inodeOf
    rw [hfile]
    rfl
  . unfold inodeOf
    rw [htask, href]
    by_cases hi : i = c
    . subst hi
      cases q <;> cases q' <;> simp [Task.setRef, Task.ref, Function.update, hc]
    . have hne : (Sum.inr (Sum.inl (i, q')) : Holder) ≠ .inr (.inl (c, q)) := by simp [hi]
      simp [hi, hne]
  . unfold inodeOf
    rw [hsuper]
    rfl

theorem inodeOf_update (href : task'.ref = task.ref) (hfile : s'.file = Function.update s.file f file)
    (hsuper : s'.super = s.super)
    : s'.inodeOf = Function.update s.inodeOf (.inl f) (if file.fCount = 0 then none else file.fInode) := by
  funext k
  rcases k with g | k | k
  . unfold inodeOf
    rw [hfile]
    by_cases hg : g = f
    . subst hg
      simp
    . have hne : (Sum.inl g : Holder) ≠ .inl f := by simp [hg]
      simp [hg, hne]
  . exact inodeOf_task_same hc htask href k
  . unfold inodeOf
    rw [hsuper]
    rfl

theorem reapable_same (hzombie : task'.zombie = task.zombie) : s'.reapable = s.reapable := by
  funext i
  unfold reapable
  rw [htask]
  by_cases hi : i = c
  . subst hi
    simp [hzombie, hc]
  . simp [hi]

omit hc htask

theorem fCount_update (hfile : s'.file = Function.update s.file f file)
    : s'.fCount = Function.update s.fCount f file.fCount := by
  funext g
  unfold fCount
  rw [hfile]
  by_cases hg : g = f
  . subst hg
    simp
  . simp [hg]

theorem fCount_setCount {n : Nat} : (s.setCount f n).fCount = Function.update s.fCount f n := by
  unfold setCount
  rw [fCount_update file_setFile]

theorem fInode_setCount {n : Nat} {g : FileNr} : ((s.setCount f n).file g).fInode = (s.file g).fInode := by
  unfold setCount
  rw [file_setFile, Function.update_apply]
  split
  . next heq => rw [heq]
  . rfl

theorem task_of_alive (hc : s.alive c = true) : ∃ task, s.task c = some task ∧ task.zombie = false := by
  unfold alive at hc
  rw [Option.any_eq_true] at hc
  obtain ⟨task, htask, hzombie⟩ := hc
  exact ⟨task, htask, by simpa using hzombie⟩

theorem alive_of_task (hc : s.task c = some task) (hzombie : task.zombie = false) : s.alive c = true := by
  unfold alive
  simp [hc, hzombie]

theorem not_reapable_of_alive (hc : s.alive c = true) : s.reapable c = false := by
  obtain ⟨task, htask, hzombie⟩ := task_of_alive hc
  unfold reapable
  simp [htask, hzombie]

theorem inodeOf_live (hf : s.fCount f ≠ 0) : s.inodeOf (.inl f) = (s.file f).fInode :=
  if_neg hf

theorem inodeOf_dead (hf : s.fCount f = 0) : s.inodeOf (.inl f) = none :=
  if_pos hf

theorem filpOf_eq (hc : s.task c = some task) : s.filpOf (c, fd) = task.filp fd := by
  unfold filpOf
  rw [hc]
  rfl

end view

namespace Counted

theorem congr (h : s.Counted) (hfilp : s'.filpOf = s.filpOf) (hcount : s'.fCount = s.fCount)
    (hinode : s'.inodeOf = s.inodeOf) (hicount : s'.inodes.count = s.inodes.count)
    (hreap : ∀ i, s'.reapable i = true → s.reapable i = true)
    : s'.Counted := by
  constructor
  . rw [hfilp, hcount]
    exact h.files
  . rw [hinode, hicount]
    exact h.inodes
  . intro f hf
    have hlive : s.fCount f ≠ 0 := hcount ▸ hf
    rw [← inodeOf_live hf, hinode, inodeOf_live hlive]
    exact h.backed f hlive
  . intro i hi
    rw [hfilp, hinode]
    exact h.exited i (hreap i hi)

theorem card_keys : Fintype.card (Slot × Fd) < 65535 := by
  rw [Fintype.card_prod, Fintype.card_fin, Fintype.card_fin]
  decide

theorem card_holders : Fintype.card Holder < 65535 := by
  rw [Fintype.card_sum, Fintype.card_sum, Fintype.card_prod, Fintype.card_prod, Fintype.card_fin, Fintype.card_fin,
    Fintype.card_fin, Fintype.card_bool]
  decide

theorem live_of_filpOf (h : s.Counted) {k : Slot × Fd} (hk : s.filpOf k = some f) : s.fCount f ≠ 0 := by
  intro hzero
  exact h.files.count_eq_zero_iff.mp hzero k hk

theorem iput_isSome (h : s.Counted) {k : Holder} : (s.inodes.iput (s.inodeOf k)).isSome := by
  cases hk : s.inodeOf k with
  | none => rfl
  | some n =>
    apply Inodes.iput_isSome
    intro hzero
    exact h.inodes.count_eq_zero_iff.mp hzero k hk

end Counted

end State
end Files
end OS
