import Mathlib.Data.Fintype.Card
import Mathlib.Data.Finset.Lattice.Fold
import ByDoing.OS.HashQueues

namespace OS
namespace HashQueues

open DoublyLinked

namespace Queues

variable {n : Nat} {s s' : Queues n} {bh b c : Buf n} {dev block : BitVec 32}

def Matches (s : Queues n) (dev block : BitVec 32) (b : Buf n) : Prop :=
  (s.bDev b).setWidth 32 = dev ∧ s.bBlocknr b = block

instance (s : Queues n) (dev block : BitVec 32) (b : Buf n) : Decidable (s.Matches dev block b) :=
  inferInstanceAs (Decidable (_ ∧ _))

theorem Sound.chain_list (h : Sound s) (k : Nat)
    : ∃ l, Trail s.bNext (s.hashTable k) l ∧ l.Nodup ∧ ∀ b, b ∈ l ↔ s.bDev b ≠ 0 ∧ s.bucket b = k := by
  obtain ⟨rank, hrank⟩ := h.rank
  obtain ⟨l, htrail, hnodup⟩ := exists_trail hrank (s.hashTable k)
  refine ⟨l, htrail, hnodup, ?_⟩
  intro b
  constructor
  . refine htrail.forall (P := fun b => s.bDev b ≠ 0 ∧ s.bucket b = k) ?_ ?_ b
    . intro a ha
      exact (h.head k a ha).right
    . intro a c ha hc
      obtain ⟨_, hdev, hbucket⟩ := h.same a c hc
      exact ⟨hdev, hbucket.symm.trans ha.right⟩
  . rintro ⟨hdev, hbucket⟩
    -- the induction goes up along the chain, where the ranks are below that of some buffer
    obtain ⟨bound, hbound⟩ : ∃ bound, ∀ b, rank b < bound :=
      ⟨Finset.univ.sup rank + 1, fun b => Nat.lt_succ_of_le (Finset.le_sup (Finset.mem_univ b))⟩
    have hup : ∀ d b, bound ≤ rank b + d → s.bDev b ≠ 0 → s.bucket b = k → b ∈ l := by
      intro d
      induction d with
      | zero =>
        intro b hb
        have := hbound b
        omega
      | succ d ih =>
        intro b hb hdev hbucket
        cases hprev : s.bPrev b with
        | none =>
          have hfirst := h.first b hdev hprev
          rw [hbucket] at hfirst
          rw [hfirst] at htrail
          exact htrail.head_mem
        | some a =>
          have hnext := (h.chain a b).mpr hprev
          obtain ⟨hdev', _, hsame⟩ := h.same a b hnext
          have hlt := hrank a b hnext
          exact htrail.next_mem (ih a (by omega) hdev' (hsame.trans hbucket)) hnext
    have := hbound b
    exact hup bound b (by omega) hdev hbucket

theorem findFrom_eq {p : Option (Buf n)} {l : List (Buf n)} {fuel : Nat} (h : Trail s.bNext p l) (hfuel : l.length ≤ fuel)
    : s.findFrom dev block fuel p = l.find? fun b => decide (s.Matches dev block b) := by
  induction l generalizing p fuel with
  | nil =>
    have hp : p = none := h
    subst hp
    cases fuel <;> rfl
  | cons a l ih =>
    obtain ⟨rfl, hrest⟩ := h
    cases fuel with
    | zero => exact absurd hfuel (Nat.not_succ_le_zero _)
    | succ fuel =>
      unfold findFrom
      by_cases hmatch : (s.bDev a).setWidth 32 = dev ∧ s.bBlocknr a = block
      . rw [if_pos hmatch, List.find?_cons_of_pos (by exact decide_eq_true hmatch)]
      . rw [if_neg hmatch, List.find?_cons_of_neg (by rwa [decide_eq_true_iff])]
        exact ih hrest (Nat.le_of_succ_le_succ hfuel)

theorem Sound.findBuffer_eq (h : Sound s) (dev block : BitVec 32)
    : ∃ l : List (Buf n), s.findBuffer dev block = (l.find? fun b => decide (s.Matches dev block b))
        ∧ ∀ b, b ∈ l ↔ s.bDev b ≠ 0 ∧ s.bucket b = hashfn dev block := by
  obtain ⟨l, htrail, hnodup, hmem⟩ := h.chain_list (hashfn dev block)
  refine ⟨l, ?_, hmem⟩
  apply findFrom_eq htrail
  have hcard := hnodup.length_le_card
  rwa [Fintype.card_fin] at hcard

theorem bucket_of_matches (h : s.Matches dev block b) : s.bucket b = hashfn dev block := by
  unfold bucket
  rw [h.left, h.right]

theorem Sound.of_findBuffer (h : Sound s) (hfind : s.findBuffer dev block = some b)
    : s.bDev b ≠ 0 ∧ s.Matches dev block b := by
  obtain ⟨l, hl, hmem⟩ := h.findBuffer_eq dev block
  rw [hl] at hfind
  have hmatch : decide (s.Matches dev block b) = true :=
    List.find?_some (p := fun b => decide (s.Matches dev block b)) hfind
  exact ⟨((hmem b).mp (List.mem_of_find?_eq_some hfind)).left, of_decide_eq_true hmatch⟩

theorem Sound.not_matches (h : Sound s) (hfind : s.findBuffer dev block = none) (hdev : s.bDev b ≠ 0)
    : ¬ s.Matches dev block b := by
  obtain ⟨l, hl, hmem⟩ := h.findBuffer_eq dev block
  rw [hl] at hfind
  intro hmatch
  have hb := (hmem b).mpr ⟨hdev, bucket_of_matches hmatch⟩
  exact List.find?_eq_none.mp hfind b hb (decide_eq_true hmatch)

def OneRing (s : Queues n) : Prop :=
  ∃ l, Circle s.bNextFree l ∧ l.Nodup ∧ ∀ b, b ∈ l

-- The free list without `bh`, which a free list of `bh` alone still begins with.
def RingWithout (bh : Buf n) (s : Queues n) : Prop :=
  (∀ b, b = bh)
    ∨ s.freeList ≠ some bh ∧ ∃ l, Circle s.bNextFree l ∧ (bh :: l).Nodup ∧ ∀ b, b ∈ bh :: l

theorem OneRing.removed (hring : s.OneRing) (h : Sound s) (bh : Buf n) : RingWithout bh (removed bh s) := by
  obtain ⟨l, hcircle, hnodup, hall⟩ := hring
  obtain ⟨front, back, rfl⟩ := List.append_of_mem (hall bh)
  have hrotated := hcircle.rotate
  have hperm : (front ++ bh :: back).Perm (bh :: (back ++ front)) :=
    List.perm_middle.trans (List.perm_append_comm.cons bh)
  have hnodup' := hperm.nodup_iff.mp hnodup
  have hall' : ∀ b, b ∈ bh :: (back ++ front) := fun b => hperm.mem_iff.mp (hall b)
  cases hrest : back ++ front with
  | nil =>
    left
    intro b
    have := hall' b
    rw [hrest] at this
    exact List.mem_singleton.mp this
  | cons a rest =>
    right
    rw [hrest] at hrotated hnodup' hall'
    refine ⟨?_, a :: rest, hrotated.unlink hnodup' h.ring, hnodup', hall'⟩
    intro hlist
    obtain ⟨hself, _⟩ := (h.out bh).only hlist
    have hnext : s.bNextFree bh = some bh := Eq.trans (Eq.symm set_self) hself
    rw [hrotated.left] at hnext
    obtain rfl := Option.some.inj hnext
    exact (List.nodup_cons.mp hnodup').left List.mem_cons_self

theorem Out.oneRing (h : Out bh s) (hring : RingWithout bh s) : (inserted bh s).OneRing := by
  rcases h.ring_fields with ⟨hfree, hnext, _⟩ | ⟨g, f, _, hf, hg, hlink, _, hnext, _⟩
  . refine ⟨[bh], ?_, List.nodup_singleton bh, ?_⟩
    . rw [hnext]
      exact Function.update_self _ _ _
    . intro b
      exact List.mem_singleton.mpr ((hring.resolve_right fun hother => hother.left hfree) b)
  . obtain ⟨_, l, hcircle, hnodup, hall⟩ := hring.resolve_left fun halone => hf (halone f)
    obtain ⟨hnot, hnodup⟩ := List.nodup_cons.mp hnodup
    have hfl : f ∈ l := (List.mem_cons.mp (hall f)).resolve_left hf
    have hgl : g ∈ l := (List.mem_cons.mp (hall g)).resolve_left hg
    obtain ⟨front, back, rfl⟩ := List.append_of_mem hfl
    have hperm : (front ++ f :: back).Perm (f :: (back ++ front)) :=
      List.perm_middle.trans (List.perm_append_comm.cons f)
    have hlinked := hcircle.rotate.link (hperm.nodup_iff.mp hnodup) (fun hmem => hnot (hperm.mem_iff.mpr hmem))
      (hperm.mem_iff.mp hgl) hlink
    refine ⟨f :: (back ++ front ++ [bh]), ?_, ?_, ?_⟩
    . rw [hnext]
      exact hlinked
    . rw [← List.cons_append, List.nodup_append]
      refine ⟨hperm.nodup_iff.mp hnodup, List.nodup_singleton bh, ?_⟩
      intro a ha c hc heq
      rw [List.mem_singleton.mp hc] at heq
      exact hnot (hperm.mem_iff.mpr (heq ▸ ha))
    . intro b
      rw [← List.cons_append, List.mem_append, List.mem_singleton]
      rcases List.mem_cons.mp (hall b) with hb | hb
      . exact Or.inr hb
      . exact Or.inl (hperm.mem_iff.mp hb)

-- The fields after the end of `getblk`.
def taken (bh : Buf n) (dev : BitVec 16) (block : BitVec 32) (s : Queues n) : Queues n :=
  inserted bh (rename bh dev block (removed bh
    { s with
      bCount := Function.update s.bCount bh 1
      bDirt := Function.update s.bDirt bh false
      bUptodate := Function.update s.bUptodate bh false }))

theorem inserted_state (bh : Buf n) (s : Queues n)
    : (inserted bh s).bCount = s.bCount ∧ (inserted bh s).bLock = s.bLock ∧ (inserted bh s).bDirt = s.bDirt
        ∧ (inserted bh s).bUptodate = s.bUptodate := by
  unfold inserted
  dsimp only
  split <;> exact ⟨rfl, rfl, rfl, rfl⟩

structure Taken (bh : Buf n) (dev : BitVec 16) (block : BitVec 32) (s s' : Queues n) : Prop where
  bDev : s'.bDev = Function.update s.bDev bh dev
  bBlocknr : s'.bBlocknr = Function.update s.bBlocknr bh block
  bCount : s'.bCount = Function.update s.bCount bh 1
  bLock : s'.bLock = s.bLock
  bDirt : s'.bDirt = Function.update s.bDirt bh false
  bUptodate : s'.bUptodate = Function.update s.bUptodate bh false

theorem taken_fields (bh : Buf n) (dev : BitVec 16) (block : BitVec 32) (s : Queues n)
    : Taken bh dev block s (taken bh dev block s) := by
  unfold taken
  generalize hs₁ : rename bh dev block (removed bh _) = s₁
  obtain ⟨hdev, hblocknr, _⟩ := inserted_key bh s₁
  obtain ⟨hcount, hlock, hdirt, huptodate⟩ := inserted_state bh s₁
  subst hs₁
  exact ⟨hdev, hblocknr, hcount, hlock, hdirt, huptodate⟩

theorem Sound.take (h : Sound s) (hring : s.OneRing) (bh : Buf n) (dev : BitVec 16) (block : BitVec 32)
    : s.take bh (dev.setWidth 32) block = some (taken bh dev block s) ∧ Sound (taken bh dev block s)
        ∧ (taken bh dev block s).OneRing := by
  have hcounts := h.of_counts (Function.update s.bCount bh 1) (Function.update s.bDirt bh false)
    (Function.update s.bUptodate bh false)
  have hring' : OneRing
      { s with
        bCount := Function.update s.bCount bh 1
        bDirt := Function.update s.bDirt bh false
        bUptodate := Function.update s.bUptodate bh false } := hring
  have hwithout := hring'.removed hcounts bh
  have hout := (hcounts.out bh).rename dev block
  refine ⟨?_, hout.sound, hout.oneRing hwithout⟩
  have hdev : (dev.setWidth 32).setWidth 16 = dev := by simp
  unfold Queues.take
  dsimp only
  rw [removeFromQueues_eq (hcounts.next_free bh) (hcounts.prev_free bh), hdev]
  exact congrArg some (insertIntoQueues_eq hout.freeList hout.prev_free)

theorem scan_count {fuel : Nat} {tmp : Buf n} {best : Option (Buf n)} (hbest : ∀ b, best = some b → s.bCount b = 0)
    (hscan : s.scan fuel tmp best = some b)
    : s.bCount b = 0 := by
  induction fuel generalizing tmp best with
  | zero => exact hbest b hscan
  | succ fuel ih =>
    have hbetter : ∀ b, (if s.bCount tmp = 0 ∧ best.all (fun b => s.BADNESS tmp < s.BADNESS b) = true then some tmp
        else best) = some b → s.bCount b = 0 := by
      intro b hb
      split at hb
      . next hless =>
        obtain rfl := Option.some.inj hb
        exact hless.left
      . exact hbest b hb
    unfold scan at hscan
    dsimp only at hscan
    split at hscan
    . next hgood =>
      obtain rfl := Option.some.inj hscan
      exact hgood.left.left
    . split at hscan
      . exact hbetter b hscan
      . split at hscan
        . exact hbetter b hscan
        . exact ih hbetter hscan

theorem pick_count (h : s.pick = some b) : s.bCount b = 0 := by
  obtain ⟨tmp, _, hscan⟩ := Option.bind_eq_some_iff.mp h
  exact scan_count (fun _ hnone => by cases hnone) hscan

theorem oneRing_init (n : Nat) : (bufferInit n).OneRing := by
  have hpath : ∀ k (b : Buf n), b.val + k = n →
      ∃ l, Path (bufferInit n).bNextFree b l 0 ∧ l.Nodup ∧ ∀ c, c ∈ l ↔ b.val < c.val := by
    intro k
    induction k with
    | zero =>
      intro b hb
      refine ⟨[], ?_, List.nodup_nil, ?_⟩
      . have hlast : b = Fin.last n := Fin.ext hb
        rw [hlast]
        exact congrArg some (Fin.last_add_one n)
      . intro c
        have := c.isLt
        simp only [List.not_mem_nil, false_iff]
        omega
    | succ k ih =>
      intro b hb
      have hnext : (b + 1).val = b.val + 1 := Fin.val_add_one_of_lt (Fin.lt_last_iff_ne_last.mpr fun hlast => by
        rw [hlast, Fin.val_last] at hb
        omega)
      obtain ⟨l, hl, hnodup, hmem⟩ := ih (b + 1) (by omega)
      refine ⟨(b + 1) :: l, ⟨rfl, hl⟩, List.nodup_cons.mpr ⟨?_, hnodup⟩, ?_⟩
      . rw [hmem]
        exact Nat.lt_irrefl _
      . intro c
        rw [List.mem_cons, hmem, Fin.ext_iff]
        omega
  obtain ⟨l, hl, hnodup, hmem⟩ := hpath n 0 (Nat.zero_add n)
  refine ⟨0 :: l, hl, List.nodup_cons.mpr ⟨?_, hnodup⟩, ?_⟩
  . rw [hmem]
    exact Nat.lt_irrefl _
  . intro b
    rw [List.mem_cons, hmem, Fin.ext_iff]
    change b.val = 0 ∨ 0 < b.val
    omega

end Queues
end HashQueues
end OS
