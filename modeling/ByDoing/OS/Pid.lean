import Mathlib.Algebra.Ring.Nat
import Mathlib.Data.List.FinRange
import Mathlib.Data.List.Perm.Subperm

namespace OS

def NR_TASKS : Nat := 64

instance : NeZero NR_TASKS := ⟨by decide⟩

abbrev Slot := Fin NR_TASKS

def maxPid : Nat := 2 ^ 31 - 1

def nextPid (lastPid : Nat) : Nat :=
  if lastPid < maxPid then lastPid + 1 else 1

def isUsed (pids : Slot → Option Nat) (pid : Nat) : Bool :=
  (List.finRange NR_TASKS).any fun i => pids i == some pid

namespace findEmptyProcess

-- The loop over `repeat`, for at most `fuel` pids.
def findPid (pids : Slot → Option Nat) (fuel : Nat) (lastPid : Nat) : Option Nat :=
  match fuel with
  | 0 => none
  | fuel + 1 =>
    let pid := nextPid lastPid
    if isUsed pids pid then findPid pids fuel pid else some pid

def findSlot (pids : Slot → Option Nat) : Option Slot :=
  (List.finRange NR_TASKS).find? fun i => 1 ≤ i.val && (pids i).isNone

end findEmptyProcess

-- The new `last_pid` and the slot, if there is a free one.
def findEmptyProcess (pids : Slot → Option Nat) (lastPid : Nat) : Option (Nat × Option Slot) :=
  match findEmptyProcess.findPid pids (NR_TASKS + 1) lastPid with
  | none => none
  | some pid => some (pid, findEmptyProcess.findSlot pids)

theorem nextPid_le (lastPid : Nat) : nextPid lastPid ≤ maxPid := by
  unfold nextPid maxPid
  split <;> omega

theorem nextPid_eq {lastPid : Nat} (h : lastPid ≤ maxPid)
    : BitVec.ofNat 32 (nextPid lastPid)
      = if (BitVec.ofNat 32 lastPid + 1).slt 0 then 1 else BitVec.ofNat 32 lastPid + 1 := by
  have hlt : lastPid < 2 ^ 31 := Nat.lt_of_le_of_lt h (by decide)
  have hadd : (BitVec.ofNat 32 lastPid + 1).toNat = lastPid + 1 := by
    rw [BitVec.toNat_add, BitVec.toNat_ofNat]
    simp
    omega
  have hslt : (BitVec.ofNat 32 lastPid + 1).slt 0 = true ↔ lastPid = maxPid := by
    rw [BitVec.slt, decide_eq_true_eq, BitVec.toInt_eq_toNat_cond, hadd]
    simp [maxPid]
    split <;> omega
  unfold nextPid
  by_cases hmax : lastPid = maxPid
  . rw [if_neg (by omega), if_pos (hslt.mpr hmax)]
    rfl
  . rw [if_pos (by omega), if_neg (fun hwrap => hmax (hslt.mp hwrap))]
    apply BitVec.eq_of_toNat_eq
    rw [hadd, BitVec.toNat_ofNat, Nat.mod_eq_of_lt (by omega)]

theorem isUsed_iff {pids : Slot → Option Nat} {pid : Nat}
    : isUsed pids pid = true ↔ ∃ i, pids i = some pid := by
  simp [isUsed]

namespace findEmptyProcess

theorem findPid_spec {pids : Slot → Option Nat} {fuel lastPid pid : Nat}
    (h : findPid pids fuel lastPid = some pid)
    : isUsed pids pid = false ∧ 1 ≤ pid ∧ (lastPid < pid ∨ maxPid < lastPid + fuel) := by
  induction fuel generalizing lastPid with
  | zero => simp [findPid] at h
  | succ fuel ih =>
    unfold findPid at h
    dsimp only at h
    split at h
    . obtain ⟨hunused, hpos, hlt⟩ := ih h
      refine ⟨hunused, hpos, ?_⟩
      unfold nextPid at hlt
      split at hlt <;> omega
    . next hused =>
      cases h
      refine ⟨by simpa using hused, ?_, ?_⟩
      . unfold nextPid
        split <;> omega
      . unfold nextPid
        split <;> omega

theorem findPid_le {pids : Slot → Option Nat} {fuel lastPid pid : Nat}
    (h : findPid pids fuel lastPid = some pid)
    : pid ≤ maxPid := by
  induction fuel generalizing lastPid with
  | zero => simp [findPid] at h
  | succ fuel ih =>
    unfold findPid at h
    dsimp only at h
    split at h
    . exact ih h
    . cases h
      apply nextPid_le

theorem findSlot_spec {pids : Slot → Option Nat} {i : Slot} (h : findSlot pids = some i)
    : 1 ≤ i.val ∧ pids i = none := by
  unfold findSlot at h
  have hfound := List.find?_some h
  simpa using hfound

def candidates (fuel lastPid : Nat) : List Nat :=
  match fuel with
  | 0 => []
  | fuel + 1 => nextPid lastPid :: candidates fuel (nextPid lastPid)

theorem length_candidates (fuel lastPid : Nat) : (candidates fuel lastPid).length = fuel := by
  induction fuel generalizing lastPid with
  | zero => rfl
  | succ fuel ih => simp [candidates, ih]

theorem isUsed_of_findPid {pids : Slot → Option Nat} {fuel lastPid : Nat}
    (h : findPid pids fuel lastPid = none)
    : ∀ pid ∈ candidates fuel lastPid, isUsed pids pid = true := by
  induction fuel generalizing lastPid with
  | zero => simp [candidates]
  | succ fuel ih =>
    unfold findPid at h
    dsimp only at h
    split at h
    . next hused =>
      rw [candidates, List.forall_mem_cons]
      exact ⟨hused, ih h⟩
    . simp at h

theorem mem_candidates {fuel lastPid pid : Nat} (hfuel : fuel ≤ maxPid) (hlast : lastPid ≤ maxPid)
    (h : pid ∈ candidates fuel lastPid)
    : (lastPid < pid ∧ pid ≤ lastPid + fuel ∧ pid ≤ maxPid)
        ∨ (1 ≤ pid ∧ pid ≤ lastPid + fuel - maxPid) := by
  induction fuel generalizing lastPid with
  | zero => simp [candidates] at h
  | succ fuel ih =>
    have hnext := nextPid_le lastPid
    cases h with
    | head => unfold nextPid; split <;> omega
    | tail _ h =>
      have := ih (by omega) hnext h
      unfold nextPid at this
      split at this <;> omega

theorem nodup_candidates {fuel lastPid : Nat} (hfuel : fuel ≤ maxPid) (hlast : lastPid ≤ maxPid)
    : (candidates fuel lastPid).Nodup := by
  induction fuel generalizing lastPid with
  | zero => exact List.nodup_nil
  | succ fuel ih =>
    have hnext := nextPid_le lastPid
    rw [candidates, List.nodup_cons]
    refine ⟨?_, ih (by omega) hnext⟩
    intro hmem
    have := mem_candidates (by omega) hnext hmem
    unfold nextPid at this
    split at this <;> omega

theorem findPid_isSome (pids : Slot → Option Nat) {lastPid : Nat} (hlast : lastPid ≤ maxPid)
    : (findPid pids (NR_TASKS + 1) lastPid).isSome = true := by
  rw [Option.isSome_iff_ne_none]
  intro hnone
  have hused := isUsed_of_findPid hnone
  have hsub : candidates (NR_TASKS + 1) lastPid ⊆ (List.finRange NR_TASKS).filterMap pids := by
    intro pid hpid
    have := hused pid hpid
    rw [isUsed_iff] at this
    obtain ⟨i, hi⟩ := this
    rw [List.mem_filterMap]
    exact ⟨i, List.mem_finRange i, hi⟩
  have hle := ((nodup_candidates (by decide) hlast).subperm hsub).length_le
  have hle' := List.length_filterMap_le pids (List.finRange NR_TASKS)
  rw [length_candidates] at hle
  rw [List.length_finRange] at hle'
  omega

end findEmptyProcess

theorem findEmptyProcess_spec {pids : Slot → Option Nat} {lastPid pid : Nat} {nr : Option Slot}
    (h : findEmptyProcess pids lastPid = some (pid, nr))
    : (pid ≠ 0 ∧ ∀ i, pids i ≠ some pid) ∧ ∀ i, nr = some i → i ≠ 0 ∧ pids i = none := by
  unfold findEmptyProcess at h
  split at h
  . simp at h
  . next pid' hpid =>
    simp only [Option.some.injEq, Prod.mk.injEq] at h
    obtain ⟨rfl, rfl⟩ := h
    obtain ⟨hunused, hpos, _⟩ := findEmptyProcess.findPid_spec hpid
    refine ⟨⟨by omega, ?_⟩, ?_⟩
    . intro i hi
      have hused := isUsed_iff.mpr ⟨i, hi⟩
      rw [hunused] at hused
      simp at hused
    . intro i hi
      obtain ⟨hval, hnone⟩ := findEmptyProcess.findSlot_spec hi
      refine ⟨?_, hnone⟩
      intro hzero
      rw [hzero] at hval
      simp at hval

theorem findEmptyProcess_isSome (pids : Slot → Option Nat) {lastPid : Nat} (hlast : lastPid ≤ maxPid)
    : (findEmptyProcess pids lastPid).isSome = true := by
  have hsome := findEmptyProcess.findPid_isSome pids hlast
  unfold findEmptyProcess
  split
  . next hnone =>
    rw [hnone] at hsome
    simp at hsome
  . rfl

theorem findEmptyProcess_eq_none_iff {pids : Slot → Option Nat} {lastPid pid : Nat} {nr : Option Slot}
    (h : findEmptyProcess pids lastPid = some (pid, nr))
    : nr = none ↔ ∀ i, i ≠ 0 → (pids i).isSome = true := by
  unfold findEmptyProcess at h
  split at h
  . cases h
  . cases h
    unfold findEmptyProcess.findSlot
    rw [List.find?_eq_none]
    constructor
    . intro hall i hi
      have hused := hall i (List.mem_finRange i)
      have hval : 1 ≤ i.val := Nat.one_le_iff_ne_zero.mpr (fun hzero => hi (Fin.ext hzero))
      simpa [hval, Option.ne_none_iff_isSome] using hused
    . intro hall i _ hfree
      rw [Bool.and_eq_true, decide_eq_true_eq] at hfree
      have hsome := hall i (fun hzero => by simp [hzero] at hfree)
      rw [Option.isNone_iff_eq_none] at hfree
      rw [hfree.right] at hsome
      cases hsome

theorem findEmptyProcess_le {pids : Slot → Option Nat} {lastPid pid : Nat} {nr : Option Slot}
    (h : findEmptyProcess pids lastPid = some (pid, nr))
    : pid ≤ maxPid := by
  unfold findEmptyProcess at h
  split at h
  . simp at h
  . next pid' hpid =>
    cases h
    exact findEmptyProcess.findPid_le hpid

end OS
