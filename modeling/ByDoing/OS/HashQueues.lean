import Mathlib.Algebra.Group.Fin.Basic
import ByDoing.Lib.DoublyLinked
import ByDoing.Lib.Run

/-!
This module contains the queues of the buffer cache as the pointers that they are: the chains of the hash table and the
ring of the free list, with `remove_from_queues`, `insert_into_queues`, `getblk` and `brelse`. There are `n + 1`
buffers. `nullWrites` counts the writes to a field of the buffer that NULL points to.
-/

namespace OS
namespace HashQueues

open DoublyLinked

def NR_HASH : Nat := 307

abbrev Buf (n : Nat) := Fin (n + 1)

-- The fields of the `struct buffer_head`s, by buffer.
structure Queues (n : Nat) where
  bDev : Buf n → BitVec 16
  bBlocknr : Buf n → BitVec 32
  bUptodate : Buf n → Bool
  bDirt : Buf n → Bool
  bCount : Buf n → BitVec 8
  bLock : Buf n → Bool
  bPrev : Buf n → Option (Buf n)
  bNext : Buf n → Option (Buf n)
  bPrevFree : Buf n → Option (Buf n)
  bNextFree : Buf n → Option (Buf n)
  hashTable : Nat → Option (Buf n)
  freeList : Option (Buf n)
  nullWrites : Nat

namespace Queues

variable {n : Nat}

-- A write through a pointer that is NULL goes astray.
def astray (p : Option (Buf n)) : Nat :=
  match p with
  | none => 1
  | some _ => 0

-- `p->b_prev = v`, and so on.
def setPrev (s : Queues n) (p v : Option (Buf n)) : Queues n :=
  { s with bPrev := set s.bPrev p v, nullWrites := s.nullWrites + astray p }

def setNext (s : Queues n) (p v : Option (Buf n)) : Queues n :=
  { s with bNext := set s.bNext p v, nullWrites := s.nullWrites + astray p }

def setPrevFree (s : Queues n) (p v : Option (Buf n)) : Queues n :=
  { s with bPrevFree := set s.bPrevFree p v, nullWrites := s.nullWrites + astray p }

def setNextFree (s : Queues n) (p v : Option (Buf n)) : Queues n :=
  { s with bNextFree := set s.bNextFree p v, nullWrites := s.nullWrites + astray p }

def hashfn (dev block : BitVec 32) : Nat :=
  (dev ^^^ block).toNat % NR_HASH

-- `_hashfn(bh->b_dev,bh->b_blocknr)`.
def bucket (s : Queues n) (bh : Buf n) : Nat :=
  hashfn ((s.bDev bh).setWidth 32) (s.bBlocknr bh)

def setHash (s : Queues n) (h : Nat) (v : Option (Buf n)) : Queues n :=
  { s with hashTable := Function.update s.hashTable h v }

-- The first half of `remove_from_queues`.
def removeHash (bh : Buf n) (s : Queues n) : Queues n :=
  let s := if s.bNext bh ≠ none then s.setPrev (s.bNext bh) (s.bPrev bh) else s
  let s := if s.bPrev bh ≠ none then s.setNext (s.bPrev bh) (s.bNext bh) else s
  if s.hashTable (s.bucket bh) = some bh then s.setHash (s.bucket bh) (s.bNext bh) else s

-- There is no result if the kernel panics.
def removeFromQueues (bh : Buf n) (s : Queues n) : Option (Queues n) :=
  let s := removeHash bh s
  if s.bPrevFree bh = none ∨ s.bNextFree bh = none then
    none
  else
    let s := s.setNextFree (s.bPrevFree bh) (s.bNextFree bh)
    let s := s.setPrevFree (s.bNextFree bh) (s.bPrevFree bh)
    some (if s.freeList = some bh then { s with freeList := s.bNextFree bh } else s)

-- `p->b_prev_free`.
def prevFree (s : Queues n) (p : Option (Buf n)) : Option (Buf n) :=
  p.bind s.bPrevFree

def insertFree (bh : Buf n) (s : Queues n) : Queues n :=
  let s := s.setNextFree (some bh) s.freeList
  let s := s.setPrevFree (some bh) (s.prevFree s.freeList)
  let s := s.setNextFree (s.prevFree s.freeList) (some bh)
  s.setPrevFree s.freeList (some bh)

def insertIntoQueues (bh : Buf n) (s : Queues n) : Queues n :=
  let s := insertFree bh s
  let s := s.setPrev (some bh) none
  let s := s.setNext (some bh) none
  if s.bDev bh = 0 then
    s
  else
    let s := s.setNext (some bh) (s.hashTable (s.bucket bh))
    let s := s.setHash (s.bucket bh) (some bh)
    s.setPrev (s.bNext bh) (some bh)

-- The loop of `find_buffer`; a chain is not longer than there are buffers.
def findFrom (s : Queues n) (dev block : BitVec 32) : Nat → Option (Buf n) → Option (Buf n)
  | 0, _ => none
  | _, none => none
  | fuel + 1, some tmp =>
    if (s.bDev tmp).setWidth 32 = dev ∧ s.bBlocknr tmp = block then some tmp
    else findFrom s dev block fuel (s.bNext tmp)

def findBuffer (s : Queues n) (dev block : BitVec 32) : Option (Buf n) :=
  s.findFrom dev block (n + 1) (s.hashTable (hashfn dev block))

def BADNESS (s : Queues n) (bh : Buf n) : Nat :=
  (s.bDirt bh).toNat * 2 + (s.bLock bh).toNat

-- The loop of `getblk` over the free list, which ends where it has begun.
def scan (s : Queues n) : Nat → Buf n → Option (Buf n) → Option (Buf n)
  | 0, _, bh => bh
  | fuel + 1, tmp, bh =>
    let better := s.bCount tmp = 0 ∧ bh.all (fun b => s.BADNESS tmp < s.BADNESS b)
    if better ∧ s.BADNESS tmp = 0 then
      some tmp
    else
      let bh := if better then some tmp else bh
      match s.bNextFree tmp with
      | none => bh
      | some next => if s.freeList = some next then bh else scan s fuel next bh

def pick (s : Queues n) : Option (Buf n) :=
  s.freeList.bind fun tmp => s.scan (n + 1) tmp none

-- The end of `getblk`, for the buffer that it has found.
def take (bh : Buf n) (dev block : BitVec 32) (s : Queues n) : Option (Queues n) :=
  let s :=
    { s with
      bCount := Function.update s.bCount bh 1
      bDirt := Function.update s.bDirt bh false
      bUptodate := Function.update s.bUptodate bh false }
  match removeFromQueues bh s with
  | none => none
  | some s =>
    some (insertIntoQueues bh
      { s with
        bDev := Function.update s.bDev bh (dev.setWidth 16)
        bBlocknr := Function.update s.bBlocknr bh block })

-- There is no result where the task would sleep: no buffer is free, or the one it gets is locked or has to be written.
def getblk (dev block : BitVec 32) (s : Queues n) : Option (Queues n) :=
  match s.findBuffer dev block with
  | some bh =>
    if s.bLock bh then none else some { s with bCount := Function.update s.bCount bh (s.bCount bh + 1) }
  | none =>
    match s.pick with
    | none => none
    | some bh => if s.bLock bh ∨ s.bDirt bh then none else take bh dev block s

-- There is no result if the task would sleep or the kernel panics.
def brelse (buf : Buf n) (s : Queues n) : Option (Queues n) :=
  if s.bLock buf ∨ s.bCount buf = 0 then none
  else some { s with bCount := Function.update s.bCount buf (s.bCount buf - 1) }

-- The fields that the loop of `buffer_init` and the lines after it leave.
def bufferInit (n : Nat) : Queues n where
  bDev := fun _ => 0
  bBlocknr := fun _ => 0
  bUptodate := fun _ => false
  bDirt := fun _ => false
  bCount := fun _ => 0
  bLock := fun _ => false
  bPrev := fun _ => none
  bNext := fun _ => none
  bPrevFree := fun h => some (h - 1)
  bNextFree := fun h => some (h + 1)
  hashTable := fun _ => none
  freeList := some 0
  nullWrites := 0

inductive Call (n : Nat) where
  | getblk (dev block : BitVec 32)
  | brelse (buf : Buf n)

def step (s : Queues n) : Call n → Option (Queues n)
  | .getblk dev block => getblk dev block s
  | .brelse buf => brelse buf s

-- The fields after `remove_from_queues`.
def removed (bh : Buf n) (s : Queues n) : Queues n :=
  { s with
    bPrev := set s.bPrev (s.bNext bh) (s.bPrev bh)
    bNext := set s.bNext (s.bPrev bh) (s.bNext bh)
    bPrevFree := set s.bPrevFree (s.bNextFree bh) (s.bPrevFree bh)
    bNextFree := set s.bNextFree (s.bPrevFree bh) (s.bNextFree bh)
    hashTable :=
      if s.hashTable (s.bucket bh) = some bh then Function.update s.hashTable (s.bucket bh) (s.bNext bh)
      else s.hashTable
    freeList := if s.freeList = some bh then s.bNextFree bh else s.freeList }

-- The fields after `insert_into_queues`.
def inserted (bh : Buf n) (s : Queues n) : Queues n :=
  let prev_free := Function.update s.bPrevFree bh (s.prevFree s.freeList)
  let s :=
    { s with
      bPrevFree := set prev_free s.freeList (some bh)
      bNextFree := set (Function.update s.bNextFree bh s.freeList) (s.freeList.bind prev_free) (some bh) }
  if s.bDev bh = 0 then
    { s with
      bPrev := Function.update s.bPrev bh none
      bNext := Function.update s.bNext bh none }
  else
    let head := s.hashTable (s.bucket bh)
    { s with
      bPrev := set (Function.update s.bPrev bh none) head (some bh)
      bNext := Function.update s.bNext bh head
      hashTable := Function.update s.hashTable (s.bucket bh) (some bh)
      nullWrites := s.nullWrites + astray head }

structure Sound (s : Queues n) : Prop where
  chain : Mutual s.bNext s.bPrev
  ring : Mutual s.bNextFree s.bPrevFree
  next_free : ∀ b, s.bNextFree b ≠ none
  prev_free : ∀ b, s.bPrevFree b ≠ none
  freeList : s.freeList ≠ none
  head : ∀ h b, s.hashTable h = some b → s.bPrev b = none ∧ s.bDev b ≠ 0 ∧ s.bucket b = h
  first : ∀ b, s.bDev b ≠ 0 → s.bPrev b = none → s.hashTable (s.bucket b) = some b
  same : ∀ b c, s.bNext b = some c → s.bDev b ≠ 0 ∧ s.bDev c ≠ 0 ∧ s.bucket b = s.bucket c
  rank : ∃ rank : Buf n → Nat, ∀ b c, s.bNext b = some c → rank c < rank b

-- What holds while `bh` is in no queue; a free list without other buffers still begins with it.
structure Out (bh : Buf n) (s : Queues n) : Prop where
  chain : Detached bh s.bNext s.bPrev
  ring : Detached bh s.bNextFree s.bPrevFree
  next_free : ∀ b, s.bNextFree b ≠ none
  prev_free : ∀ b, s.bPrevFree b ≠ none
  freeList : s.freeList ≠ none
  only : s.freeList = some bh → s.bNextFree bh = some bh ∧ s.bPrevFree bh = some bh
  head : ∀ h b, s.hashTable h = some b → b ≠ bh ∧ s.bPrev b = none ∧ s.bDev b ≠ 0 ∧ s.bucket b = h
  first : ∀ b, b ≠ bh → s.bDev b ≠ 0 → s.bPrev b = none → s.hashTable (s.bucket b) = some b
  same : ∀ b c, b ≠ bh → s.bNext b = some c → s.bDev b ≠ 0 ∧ s.bDev c ≠ 0 ∧ s.bucket b = s.bucket c
  rank : ∃ rank : Buf n → Nat, ∀ b c, b ≠ bh → s.bNext b = some c → rank c < rank b

variable {s s' : Queues n} {bh : Buf n}

theorem astray_of_ne {p : Option (Buf n)} (h : p ≠ none) : astray p = 0 := by
  cases p with
  | none => exact absurd rfl h
  | some b => rfl

theorem setPrev_of_test (s : Queues n) (p v : Option (Buf n))
    : (if p ≠ none then s.setPrev p v else s) = { s with bPrev := set s.bPrev p v } := by
  cases p with
  | none => rfl
  | some b => rfl

theorem setNext_of_test (s : Queues n) (p v : Option (Buf n))
    : (if p ≠ none then s.setNext p v else s) = { s with bNext := set s.bNext p v } := by
  cases p with
  | none => rfl
  | some b => rfl

theorem removeHash_eq (s : Queues n) (bh : Buf n)
    : removeHash bh s
        =
      { s with
        bPrev := set s.bPrev (s.bNext bh) (s.bPrev bh)
        bNext := set s.bNext (s.bPrev bh) (s.bNext bh)
        hashTable :=
          if s.hashTable (s.bucket bh) = some bh then Function.update s.hashTable (s.bucket bh) (s.bNext bh)
          else s.hashTable } := by
  have hprev : set s.bPrev (s.bNext bh) (s.bPrev bh) bh = s.bPrev bh := set_self
  have hnext : set s.bNext (s.bPrev bh) (s.bNext bh) bh = s.bNext bh := set_self
  unfold removeHash
  rw [setPrev_of_test]
  dsimp only
  rw [setNext_of_test]
  dsimp only
  rw [hprev]
  unfold setHash bucket
  dsimp only
  rw [hnext]
  split
  . rfl
  . rfl

theorem removeFromQueues_eq (hnext : s.bNextFree bh ≠ none) (hprev : s.bPrevFree bh ≠ none)
    : removeFromQueues bh s = some (removed bh s) := by
  have hself : set s.bNextFree (s.bPrevFree bh) (s.bNextFree bh) bh = s.bNextFree bh := set_self
  unfold removeFromQueues
  rw [removeHash_eq]
  dsimp only
  rw [if_neg (not_or.mpr ⟨hprev, hnext⟩)]
  unfold setNextFree setPrevFree removed
  dsimp only
  rw [hself, astray_of_ne hnext, astray_of_ne hprev]
  split
  . rfl
  . rfl

theorem insertFree_eq (hlist : s.freeList ≠ none) (hprev : ∀ b, s.bPrevFree b ≠ none)
    : insertFree bh s
        =
      { s with
        bPrevFree := set (Function.update s.bPrevFree bh (s.prevFree s.freeList)) s.freeList (some bh)
        bNextFree := set (Function.update s.bNextFree bh s.freeList)
          (s.freeList.bind (Function.update s.bPrevFree bh (s.prevFree s.freeList))) (some bh) } := by
  obtain ⟨f, hf⟩ := Option.ne_none_iff_exists'.mp hlist
  obtain ⟨g, hg⟩ := Option.ne_none_iff_exists'.mp (hprev f)
  have hbehind : (some f).bind (Function.update s.bPrevFree bh (some g)) = some g := by
    rw [Option.bind_some]
    by_cases hfb : f = bh
    . rw [hfb, Function.update_self]
    . rw [Function.update_of_ne hfb, hg]
  unfold insertFree setNextFree setPrevFree prevFree
  simp only [hf, Option.bind_some, hg, set_some] at hbehind ⊢
  rw [hbehind]
  rfl

theorem insertIntoQueues_eq (hlist : s.freeList ≠ none) (hprev : ∀ b, s.bPrevFree b ≠ none)
    : insertIntoQueues bh s = inserted bh s := by
  unfold insertIntoQueues inserted
  rw [insertFree_eq hlist hprev]
  unfold setPrev setNext setHash bucket
  dsimp only [set_some]
  split
  . rfl
  . rw [Function.update_idem, Function.update_self]
    rfl

theorem Sound.ne_next (h : Sound s) (b : Buf n) : s.bNext b ≠ some b := by
  intro heq
  obtain ⟨rank, hrank⟩ := h.rank
  exact Nat.lt_irrefl _ (hrank b b heq)

theorem Sound.prev_removed (h : Sound s) {b : Buf n} (hb : s.bPrev b = none)
    : (removed bh s).bPrev b = none := by
  by_cases hnext : s.bNext bh = some b
  . rw [(h.chain bh b).mp hnext] at hb
    cases hb
  . exact (set_of_ne hnext).trans hb

theorem Sound.out (h : Sound s) (bh : Buf n) : Out bh (removed bh s) where
  chain := detached_unlink h.chain
  ring := detached_unlink h.ring
  next_free := by
    intro b
    by_cases hb : s.bPrevFree bh = some b
    . change set s.bNextFree (s.bPrevFree bh) (s.bNextFree bh) b ≠ none
      rw [hb, set_some, Function.update_self]
      exact h.next_free bh
    . change set s.bNextFree (s.bPrevFree bh) (s.bNextFree bh) b ≠ none
      rw [set_of_ne hb]
      exact h.next_free b
  prev_free := by
    intro b
    by_cases hb : s.bNextFree bh = some b
    . change set s.bPrevFree (s.bNextFree bh) (s.bPrevFree bh) b ≠ none
      rw [hb, set_some, Function.update_self]
      exact h.prev_free bh
    . change set s.bPrevFree (s.bNextFree bh) (s.bPrevFree bh) b ≠ none
      rw [set_of_ne hb]
      exact h.prev_free b
  freeList := by
    change (if s.freeList = some bh then s.bNextFree bh else s.freeList) ≠ none
    split
    . exact h.next_free bh
    . exact h.freeList
  only := by
    intro hlist
    change (if s.freeList = some bh then s.bNextFree bh else s.freeList) = some bh at hlist
    have hnext : s.bNextFree bh = some bh := by
      split at hlist
      . exact hlist
      . next hne => exact absurd hlist hne
    have hprev := (h.ring bh bh).mp hnext
    constructor
    . exact set_self.trans hnext
    . exact set_self.trans hprev
  head := by
    intro k b hb
    change (if s.hashTable (s.bucket bh) = some bh then Function.update s.hashTable (s.bucket bh) (s.bNext bh)
      else s.hashTable) k = some b at hb
    have hother : s.hashTable k = some b → (k = s.bucket bh → s.hashTable (s.bucket bh) ≠ some bh) →
        b ≠ bh ∧ (removed bh s).bPrev b = none ∧ s.bDev b ≠ 0 ∧ s.bucket b = k := by
      intro hold hnot
      obtain ⟨hprev, hdev, hbucket⟩ := h.head k b hold
      refine ⟨?_, h.prev_removed hprev, hdev, hbucket⟩
      rintro rfl
      exact hnot hbucket.symm (hbucket.symm ▸ hold)
    split at hb
    . next hfirst =>
      by_cases hk : k = s.bucket bh
      . subst hk
        rw [Function.update_self] at hb
        obtain ⟨hdev, hdev', hbucket⟩ := h.same bh b hb
        refine ⟨?_, ?_, hdev', hbucket.symm⟩
        . rintro rfl
          exact h.ne_next b hb
        . change set s.bPrev (s.bNext bh) (s.bPrev bh) b = none
          rw [hb, set_some, Function.update_self]
          exact (h.head _ bh hfirst).left
      . rw [Function.update_of_ne hk] at hb
        exact hother hb fun heq => absurd heq hk
    . next hnot => exact hother hb fun _ => hnot
  first := by
    intro b hb hdev hprev
    change (if s.hashTable (s.bucket bh) = some bh then Function.update s.hashTable (s.bucket bh) (s.bNext bh)
      else s.hashTable) (s.bucket b) = some b
    change set s.bPrev (s.bNext bh) (s.bPrev bh) b = none at hprev
    by_cases hnext : s.bNext bh = some b
    . obtain ⟨hdev', _, hbucket⟩ := h.same bh b hnext
      rw [hnext, set_some, Function.update_self] at hprev
      rw [if_pos (h.first bh hdev' hprev), ← hbucket, Function.update_self]
      exact hnext
    . rw [set_of_ne hnext] at hprev
      have hold := h.first b hdev hprev
      split
      . next hfirst =>
        rw [Function.update_of_ne]
        . exact hold
        . intro heq
          rw [heq, hfirst] at hold
          exact hb (Option.some.inj hold).symm
      . exact hold
  same := by
    intro b c hb hc
    change set s.bNext (s.bPrev bh) (s.bNext bh) b = some c at hc
    by_cases hprev : s.bPrev bh = some b
    . rw [hprev, set_some, Function.update_self] at hc
      obtain ⟨hdev, _, hbucket⟩ := h.same b bh ((h.chain b bh).mpr hprev)
      obtain ⟨_, hdev', hbucket'⟩ := h.same bh c hc
      exact ⟨hdev, hdev', hbucket.trans hbucket'⟩
    . rw [set_of_ne hprev] at hc
      exact h.same b c hc
  rank := by
    obtain ⟨rank, hrank⟩ := h.rank
    refine ⟨rank, ?_⟩
    intro b c hb hc
    change set s.bNext (s.bPrev bh) (s.bNext bh) b = some c at hc
    by_cases hprev : s.bPrev bh = some b
    . rw [hprev, set_some, Function.update_self] at hc
      exact Nat.lt_trans (hrank bh c hc) (hrank b bh ((h.chain b bh).mpr hprev))
    . rw [set_of_ne hprev] at hc
      exact hrank b c hc

def rename (bh : Buf n) (dev : BitVec 16) (block : BitVec 32) (s : Queues n) : Queues n :=
  { s with bDev := Function.update s.bDev bh dev, bBlocknr := Function.update s.bBlocknr bh block }

theorem bucket_rename {b : Buf n} (hb : b ≠ bh) (dev : BitVec 16) (block : BitVec 32)
    : (rename bh dev block s).bucket b = s.bucket b := by
  unfold bucket rename
  dsimp only
  rw [Function.update_of_ne hb, Function.update_of_ne hb]

theorem Out.rename (h : Out bh s) (dev : BitVec 16) (block : BitVec 32) : Out bh (rename bh dev block s) where
  chain := h.chain
  ring := h.ring
  next_free := h.next_free
  prev_free := h.prev_free
  freeList := h.freeList
  only := h.only
  head := by
    intro k b hb
    obtain ⟨hne, hprev, hdev, hbucket⟩ := h.head k b hb
    refine ⟨hne, hprev, ?_, (bucket_rename hne dev block).trans hbucket⟩
    change Function.update s.bDev bh dev b ≠ 0
    rw [Function.update_of_ne hne]
    exact hdev
  first := by
    intro b hne hdev hprev
    change Function.update s.bDev bh dev b ≠ 0 at hdev
    rw [Function.update_of_ne hne] at hdev
    rw [bucket_rename hne]
    exact h.first b hne hdev hprev
  same := by
    intro b c hb hc
    have hcb : c ≠ bh := by
      rintro rfl
      exact h.chain.next_ne b hb hc
    obtain ⟨hdev, hdev', hbucket⟩ := h.same b c hb hc
    rw [bucket_rename hb, bucket_rename hcb]
    change Function.update s.bDev bh dev b ≠ 0 ∧ Function.update s.bDev bh dev c ≠ 0 ∧ _
    rw [Function.update_of_ne hb, Function.update_of_ne hcb]
    exact ⟨hdev, hdev', hbucket⟩
  rank := h.rank

theorem Out.ring_fields (h : Out bh s)
    : s.freeList = some bh ∧ (inserted bh s).bNextFree = Function.update s.bNextFree bh (some bh)
          ∧ (inserted bh s).bPrevFree = Function.update s.bPrevFree bh (some bh)
        ∨
      ∃ g f, s.freeList = some f ∧ f ≠ bh ∧ g ≠ bh ∧ s.bNextFree g = some f ∧ s.bPrevFree f = some g
        ∧ (inserted bh s).bNextFree = Function.update (Function.update s.bNextFree bh (some f)) g (some bh)
        ∧ (inserted bh s).bPrevFree = Function.update (Function.update s.bPrevFree bh (some g)) f (some bh) := by
  have hnext : (inserted bh s).bNextFree = set (Function.update s.bNextFree bh s.freeList)
      (s.freeList.bind (Function.update s.bPrevFree bh (s.prevFree s.freeList))) (some bh) := by
    unfold inserted
    dsimp only
    split <;> rfl
  have hprev : (inserted bh s).bPrevFree
      = set (Function.update s.bPrevFree bh (s.prevFree s.freeList)) s.freeList (some bh) := by
    unfold inserted
    dsimp only
    split <;> rfl
  obtain ⟨f, hf⟩ := Option.ne_none_iff_exists'.mp h.freeList
  obtain ⟨g, hg⟩ := Option.ne_none_iff_exists'.mp (h.prev_free f)
  rw [hnext, hprev, hf]
  unfold prevFree
  rw [Option.bind_some, Option.bind_some, hg]
  by_cases hfb : f = bh
  . left
    subst hfb
    obtain ⟨_, hself⟩ := h.only hf
    rw [hself] at hg
    rw [← hg, Function.update_self, set_some, set_some, Function.update_idem, Function.update_idem]
    exact ⟨rfl, rfl, rfl⟩
  . right
    have hgb : g ≠ bh := by
      rintro rfl
      exact h.ring.prev_ne f hfb hg
    refine ⟨g, f, rfl, hfb, hgb, (h.ring.links g f hgb hfb).mpr hg, hg, ?_, ?_⟩
    . rw [Function.update_of_ne hfb, hg, set_some]
    . rw [set_some]

theorem Out.ring_inserted (h : Out bh s)
    : Mutual (inserted bh s).bNextFree (inserted bh s).bPrevFree
        ∧ (∀ b, (inserted bh s).bNextFree b ≠ none) ∧ ∀ b, (inserted bh s).bPrevFree b ≠ none := by
  have hupdate : ∀ {link : Buf n → Option (Buf n)} {x : Buf n} {v : Option (Buf n)}, (∀ b, link b ≠ none) →
      v ≠ none → ∀ b, Function.update link x v b ≠ none := by
    intro link x v hlink hv b
    by_cases hb : b = x
    . rw [hb, Function.update_self]
      exact hv
    . rw [Function.update_of_ne hb]
      exact hlink b
  rcases h.ring_fields with ⟨_, hnext, hprev⟩ | ⟨g, f, _, hfb, hgb, hlink, _, hnext, hprev⟩
  . rw [hnext, hprev]
    exact ⟨h.ring.loop, hupdate h.next_free nofun, hupdate h.prev_free nofun⟩
  . rw [hnext, hprev]
    exact ⟨h.ring.insert hgb hfb hlink, hupdate (hupdate h.next_free nofun) nofun,
      hupdate (hupdate h.prev_free nofun) nofun⟩

theorem inserted_of_free (hdev : s.bDev bh = 0)
    : (inserted bh s).bPrev = Function.update s.bPrev bh none
        ∧ (inserted bh s).bNext = Function.update s.bNext bh none
        ∧ (inserted bh s).hashTable = s.hashTable ∧ (inserted bh s).nullWrites = s.nullWrites := by
  unfold inserted
  rw [if_pos hdev]
  exact ⟨rfl, rfl, rfl, rfl⟩

theorem inserted_of_dev (hdev : s.bDev bh ≠ 0)
    : (inserted bh s).bPrev = set (Function.update s.bPrev bh none) (s.hashTable (s.bucket bh)) (some bh)
        ∧ (inserted bh s).bNext = Function.update s.bNext bh (s.hashTable (s.bucket bh))
        ∧ (inserted bh s).hashTable = Function.update s.hashTable (s.bucket bh) (some bh)
        ∧ (inserted bh s).nullWrites = s.nullWrites + astray (s.hashTable (s.bucket bh)) := by
  unfold inserted
  rw [if_neg hdev]
  exact ⟨rfl, rfl, rfl, rfl⟩

theorem inserted_key (bh : Buf n) (s : Queues n)
    : (inserted bh s).bDev = s.bDev ∧ (inserted bh s).bBlocknr = s.bBlocknr
        ∧ (inserted bh s).freeList = s.freeList := by
  unfold inserted
  dsimp only
  split <;> exact ⟨rfl, rfl, rfl⟩

theorem bucket_inserted (b : Buf n) : (inserted bh s).bucket b = s.bucket b := by
  obtain ⟨hdev, hblocknr, _⟩ := inserted_key bh s
  unfold bucket
  rw [hdev, hblocknr]

structure ChainsAfter (bh : Buf n) (s : Queues n) : Prop where
  chain : Mutual (inserted bh s).bNext (inserted bh s).bPrev
  head : ∀ k b, (inserted bh s).hashTable k = some b →
    (inserted bh s).bPrev b = none ∧ s.bDev b ≠ 0 ∧ s.bucket b = k
  first : ∀ b, s.bDev b ≠ 0 → (inserted bh s).bPrev b = none → (inserted bh s).hashTable (s.bucket b) = some b
  same : ∀ b c, (inserted bh s).bNext b = some c → s.bDev b ≠ 0 ∧ s.bDev c ≠ 0 ∧ s.bucket b = s.bucket c
  rank : ∃ rank : Buf n → Nat, ∀ b c, (inserted bh s).bNext b = some c → rank c < rank b

theorem Out.chain_of_free (h : Out bh s) (hdev : s.bDev bh = 0) : ChainsAfter bh s := by
  obtain ⟨hprev, hnext, hhash, _⟩ := inserted_of_free hdev
  have hlink : ∀ {b c}, Function.update s.bNext bh none b = some c → b ≠ bh ∧ s.bNext b = some c := by
    intro b c hc
    by_cases hb : b = bh
    . rw [hb, Function.update_self] at hc
      cases hc
    . rw [Function.update_of_ne hb] at hc
      exact ⟨hb, hc⟩
  constructor
  . rw [hprev, hnext]
    exact h.chain.alone
  . rw [hhash, hprev]
    intro k b hb
    obtain ⟨hne, hfirst, hold, hbucket⟩ := h.head k b hb
    rw [Function.update_of_ne hne]
    exact ⟨hfirst, hold, hbucket⟩
  . rw [hhash, hprev]
    intro b hold hfirst
    have hne : b ≠ bh := by
      rintro rfl
      exact hold hdev
    rw [Function.update_of_ne hne] at hfirst
    exact h.first b hne hold hfirst
  . rw [hnext]
    intro b c hc
    obtain ⟨hne, hc⟩ := hlink hc
    exact h.same b c hne hc
  . rw [hnext]
    obtain ⟨rank, hrank⟩ := h.rank
    refine ⟨rank, ?_⟩
    intro b c hc
    obtain ⟨hne, hc⟩ := hlink hc
    exact hrank b c hne hc

theorem Out.chain_of_dev (h : Out bh s) (hdev : s.bDev bh ≠ 0) : ChainsAfter bh s := by
  obtain ⟨hprev, hnext, hhash, _⟩ := inserted_of_dev hdev
  generalize hheadOf : s.hashTable (s.bucket bh) = head at hprev hnext
  have hhead : ∀ c, head = some c →
      c ≠ bh ∧ s.bPrev c = none ∧ s.bDev c ≠ 0 ∧ s.bucket c = s.bucket bh := by
    intro c hc
    exact h.head _ c (hheadOf.trans hc)
  -- what the new first buffer stores in the old one is seen nowhere else
  have hother : ∀ b, head ≠ some b → b ≠ bh →
      set (Function.update s.bPrev bh none) head (some bh) b = s.bPrev b := by
    intro b hb hne
    rw [set_of_ne hb, Function.update_of_ne hne]
  constructor
  . rw [hprev, hnext]
    exact h.chain.push fun c hc => ⟨(hhead c hc).left, (hhead c hc).right.left⟩
  . rw [hhash, hprev]
    intro k b hb
    by_cases hk : k = s.bucket bh
    . subst hk
      rw [Function.update_self] at hb
      obtain rfl := Option.some.inj hb
      refine ⟨?_, hdev, rfl⟩
      rw [set_of_ne, Function.update_self]
      intro heq
      exact (hhead bh heq).left rfl
    . rw [Function.update_of_ne hk] at hb
      obtain ⟨hne, hfirst, hold, hbucket⟩ := h.head k b hb
      refine ⟨?_, hold, hbucket⟩
      rw [hother b _ hne]
      . exact hfirst
      . intro heq
        exact hk (hbucket.symm.trans (hhead b heq).right.right.right)
  . rw [hhash, hprev]
    intro b hold hfirst
    by_cases hb : b = bh
    . rw [hb, Function.update_self]
    . have hne : head ≠ some b := by
        intro heq
        rw [heq, set_some, Function.update_self] at hfirst
        cases hfirst
      rw [hother b hne hb] at hfirst
      have hin := h.first b hb hold hfirst
      rw [Function.update_of_ne]
      . exact hin
      . intro heq
        rw [heq, hheadOf] at hin
        exact hne hin
  . rw [hnext]
    intro b c hc
    by_cases hb : b = bh
    . subst hb
      rw [Function.update_self] at hc
      obtain ⟨_, _, hold, hbucket⟩ := hhead c hc
      exact ⟨hdev, hold, hbucket.symm⟩
    . rw [Function.update_of_ne hb] at hc
      exact h.same b c hb hc
  . rw [hnext]
    obtain ⟨rank, hrank⟩ := h.rank
    refine ⟨Function.update rank bh ((head.map rank).getD 0 + 1), ?_⟩
    intro b c hc
    by_cases hb : b = bh
    . subst hb
      rw [Function.update_self] at hc
      rw [Function.update_self, Function.update_of_ne (hhead c hc).left, hc]
      exact Nat.lt_succ_self (rank c)
    . rw [Function.update_of_ne hb] at hc
      have hcb : c ≠ bh := by
        rintro rfl
        exact h.chain.next_ne b hb hc
      rw [Function.update_of_ne hb, Function.update_of_ne hcb]
      exact hrank b c hb hc

theorem Out.sound (h : Out bh s) : Sound (inserted bh s) := by
  obtain ⟨hdev, hblocknr, hlist⟩ := inserted_key bh s
  obtain ⟨hring, hnext, hprev⟩ := h.ring_inserted
  have hchains : ChainsAfter bh s := by
    by_cases hfree : s.bDev bh = 0
    . exact h.chain_of_free hfree
    . exact h.chain_of_dev hfree
  constructor
  . exact hchains.chain
  . exact hring
  . exact hnext
  . exact hprev
  . rw [hlist]
    exact h.freeList
  . intro k b hb
    rw [hdev, bucket_inserted]
    exact hchains.head k b hb
  . intro b
    rw [hdev, bucket_inserted]
    exact hchains.first b
  . intro b c
    rw [hdev, bucket_inserted, bucket_inserted]
    exact hchains.same b c
  . exact hchains.rank

-- Two states whose queues are the same but for what `bh` itself stores.
structure Restored (bh : Buf n) (s s' : Queues n) : Prop where
  hashTable : s'.hashTable = s.hashTable
  freeList : s'.freeList = s.freeList
  key : s'.bDev = s.bDev ∧ s'.bBlocknr = s.bBlocknr
  prev : ∀ b, b ≠ bh → s'.bPrev b = s.bPrev b
  next : ∀ b, b ≠ bh → s'.bNext b = s.bNext b
  prev_free : ∀ b, b ≠ bh → s'.bPrevFree b = s.bPrevFree b
  next_free : ∀ b, b ≠ bh → s'.bNextFree b = s.bNextFree b

theorem Out.ring_restored (h : Out bh s)
    : (∀ b, b ≠ bh → (removed bh (inserted bh s)).bPrevFree b = s.bPrevFree b)
        ∧ (∀ b, b ≠ bh → (removed bh (inserted bh s)).bNextFree b = s.bNextFree b)
        ∧ (removed bh (inserted bh s)).freeList = s.freeList := by
  obtain ⟨_, _, hlist⟩ := inserted_key bh s
  unfold removed
  dsimp only
  rw [hlist]
  rcases h.ring_fields with ⟨hf, hnext, hprev⟩ | ⟨g, f, hf, hfb, hgb, hlink, hback, hnext, hprev⟩
  . rw [hnext, hprev, hf, Function.update_self, Function.update_self, set_some, set_some, Function.update_idem,
      Function.update_idem, if_pos rfl]
    exact ⟨fun b hb => Function.update_of_ne hb _ _, fun b hb => Function.update_of_ne hb _ _, rfl⟩
  . have hnext' : (inserted bh s).bNextFree bh = some f := by
      rw [hnext, Function.update_of_ne (Ne.symm hgb), Function.update_self]
    have hprev' : (inserted bh s).bPrevFree bh = some g := by
      rw [hprev, Function.update_of_ne (Ne.symm hfb), Function.update_self]
    rw [hnext', hprev', hnext, hprev, hf, set_some, set_some, Function.update_idem, Function.update_idem,
      if_neg fun heq => hfb (Option.some.inj heq)]
    refine ⟨?_, ?_, rfl⟩
    . intro b hb
      by_cases hbf : b = f
      . rw [hbf, Function.update_self, hback]
      . rw [Function.update_of_ne hbf, Function.update_of_ne hb]
    . intro b hb
      by_cases hbg : b = g
      . rw [hbg, Function.update_self, hlink]
      . rw [Function.update_of_ne hbg, Function.update_of_ne hb]

theorem Out.chain_restored (h : Out bh s)
    : (∀ b, b ≠ bh → (removed bh (inserted bh s)).bPrev b = s.bPrev b)
        ∧ (∀ b, b ≠ bh → (removed bh (inserted bh s)).bNext b = s.bNext b)
        ∧ (removed bh (inserted bh s)).hashTable = s.hashTable := by
  unfold removed
  dsimp only
  rw [bucket_inserted]
  by_cases hdev : s.bDev bh = 0
  . obtain ⟨hprev, hnext, hhash, _⟩ := inserted_of_free hdev
    have hnot : s.hashTable (s.bucket bh) ≠ some bh := fun heq => (h.head _ bh heq).left rfl
    rw [hprev, hnext, hhash, Function.update_self, Function.update_self, set_none, set_none, if_neg hnot]
    exact ⟨fun b hb => Function.update_of_ne hb _ _, fun b hb => Function.update_of_ne hb _ _, rfl⟩
  . obtain ⟨hprev, hnext, hhash, _⟩ := inserted_of_dev hdev
    have hhead : ∀ c, s.hashTable (s.bucket bh) = some c → c ≠ bh ∧ s.bPrev c = none := by
      intro c hc
      exact ⟨(h.head _ c hc).left, (h.head _ c hc).right.left⟩
    rw [hprev, hnext, hhash, Function.update_self]
    have hfirst : set (Function.update s.bPrev bh none) (s.hashTable (s.bucket bh)) (some bh) bh = none := by
      rw [set_of_ne fun heq => (hhead bh heq).left rfl, Function.update_self]
    rw [hfirst, Function.update_self, set_none, if_pos rfl, Function.update_idem, Function.update_eq_self]
    refine ⟨?_, fun b hb => Function.update_of_ne hb _ _, rfl⟩
    intro b hb
    cases hc : s.hashTable (s.bucket bh) with
    | none =>
      rw [set_none, set_none]
      exact Function.update_of_ne hb _ _
    | some c =>
      rw [set_some, set_some, Function.update_idem]
      by_cases hbc : b = c
      . rw [hbc, Function.update_self, (hhead c hc).right]
      . rw [Function.update_of_ne hbc, Function.update_of_ne hb]

theorem Out.restored (h : Out bh s)
    : ∃ s', removeFromQueues bh (insertIntoQueues bh s) = some s' ∧ Restored bh s s' := by
  have hsound := h.sound
  obtain ⟨hprev, hnext, hhash⟩ := h.chain_restored
  obtain ⟨hprevFree, hnextFree, hlist⟩ := h.ring_restored
  obtain ⟨hdev, hblocknr, _⟩ := inserted_key bh s
  refine ⟨removed bh (inserted bh s), ?_, hhash, hlist, ⟨hdev, hblocknr⟩, hprev, hnext, hprevFree, hnextFree⟩
  rw [insertIntoQueues_eq h.freeList h.prev_free]
  exact removeFromQueues_eq (hsound.next_free bh) (hsound.prev_free bh)

-- The chain with the number `k` has no buffer but `bh`.
def Empties (s : Queues n) (bh : Buf n) (k : Nat) : Prop :=
  s.hashTable k = none ∨ s.hashTable k = some bh ∧ s.bNext bh = none

instance (s : Queues n) (bh : Buf n) (k : Nat) : Decidable (s.Empties bh k) :=
  inferInstanceAs (Decidable (_ ∨ _))

def Fills (s : Queues n) : Call n → Prop
  | .getblk dev block =>
    s.findBuffer dev block = none → ∀ bh, s.pick = some bh → dev.setWidth 16 ≠ 0#16 →
      ¬ s.Empties bh (hashfn ((dev.setWidth 16).setWidth 32) block)
  | .brelse _ => True

structure Queued (s : Queues n) : Prop where
  links : ∀ b c, s.bNext b = some c → s.bPrev c = some b
  first : ∀ k b, s.hashTable k = some b → s.bPrev b = none
  restored : ∀ bh dev block s₁, removeFromQueues bh s = some s₁ →
    ∃ s', removeFromQueues bh (insertIntoQueues bh (rename bh dev block s₁)) = some s'
      ∧ Restored bh (rename bh dev block s₁) s'

-- And no write has gone through NULL.
structure Kept (s : Queues n) : Prop extends Queued s where
  nullWrites : s.nullWrites = 0

theorem sound_init (n : Nat) : Sound (bufferInit n) where
  chain := fun _ _ => ⟨nofun, nofun⟩
  ring := by
    intro b c
    change some (b + 1) = some c ↔ some (c - 1) = some b
    rw [Option.some_inj, Option.some_inj, sub_eq_iff_eq_add, eq_comm]
  next_free := fun _ => nofun
  prev_free := fun _ => nofun
  freeList := nofun
  head := fun _ _ => nofun
  first := fun _ hdev => absurd rfl hdev
  same := fun _ _ => nofun
  rank := ⟨fun _ => 0, fun _ _ => nofun⟩

theorem Sound.of_counts (h : Sound s) (bCount : Buf n → BitVec 8) (bDirt bUptodate : Buf n → Bool)
    : Sound { s with bCount, bDirt, bUptodate } :=
  ⟨h.chain, h.ring, h.next_free, h.prev_free, h.freeList, h.head, h.first, h.same, h.rank⟩

theorem removed_eq_none_iff (h : Sound s) (k : Nat)
    : (removed bh s).hashTable k = none ↔ s.Empties bh k := by
  unfold Empties
  change (if s.hashTable (s.bucket bh) = some bh then Function.update s.hashTable (s.bucket bh) (s.bNext bh)
    else s.hashTable) k = none ↔ _
  have hbucket : s.hashTable k = some bh → k = s.bucket bh := fun hk => (h.head k bh hk).right.right.symm
  split
  . next hfirst =>
    by_cases hk : k = s.bucket bh
    . rw [hk, Function.update_self, hfirst]
      simp
    . rw [Function.update_of_ne hk]
      exact ⟨.inl, fun hor => hor.resolve_right fun hand => hk (hbucket hand.left)⟩
  . next hnot =>
    refine ⟨.inl, fun hor => hor.resolve_right fun hand => hnot ?_⟩
    rw [← hbucket hand.left]
    exact hand.left

theorem astray_eq (p : Option (Buf n)) : astray p = if p = none then 1 else 0 := by
  cases p with
  | none => rfl
  | some b => rfl

theorem nullWrites_rename (h : Sound s) (dev : BitVec 16) (block : BitVec 32)
    : (inserted bh (rename bh dev block (removed bh s))).nullWrites
        = s.nullWrites + if dev ≠ 0#16 ∧ s.Empties bh (hashfn (dev.setWidth 32) block) then 1 else 0 := by
  have hdev : (rename bh dev block (removed bh s)).bDev bh = dev := Function.update_self _ _ _
  have hbucket : (rename bh dev block (removed bh s)).bucket bh = hashfn (dev.setWidth 32) block := by
    unfold bucket rename
    dsimp only
    rw [Function.update_self, Function.update_self]
  by_cases hfree : dev = 0#16
  . obtain ⟨_, _, _, hnull⟩ := inserted_of_free (hdev.trans hfree)
    rw [hnull, if_neg fun hand => hand.left hfree]
    rfl
  . obtain ⟨_, _, _, hnull⟩ := inserted_of_dev (hdev.trans_ne hfree)
    rw [hnull, hbucket, astray_eq]
    change s.nullWrites + (if (removed bh s).hashTable _ = none then 1 else 0) = _
    simp only [removed_eq_none_iff h, ne_eq, hfree, not_false_eq_true, true_and]

theorem take_sound (h : Sound s) {dev block : BitVec 32} (ht : take bh dev block s = some s')
    : Sound s'
        ∧ s'.nullWrites = s.nullWrites
          + if dev.setWidth 16 ≠ 0#16 ∧ s.Empties bh (hashfn ((dev.setWidth 16).setWidth 32) block) then 1
            else 0 := by
  have hcounts := h.of_counts (Function.update s.bCount bh 1) (Function.update s.bDirt bh false)
    (Function.update s.bUptodate bh false)
  have hout := (hcounts.out bh).rename (dev.setWidth 16) block
  unfold take at ht
  dsimp only at ht
  rw [removeFromQueues_eq (hcounts.next_free bh) (hcounts.prev_free bh), Option.some.injEq] at ht
  subst ht
  change Sound (insertIntoQueues bh (rename bh (dev.setWidth 16) block (removed bh _)))
    ∧ (insertIntoQueues bh (rename bh (dev.setWidth 16) block (removed bh _))).nullWrites = _
  rw [insertIntoQueues_eq hout.freeList hout.prev_free]
  exact ⟨hout.sound, nullWrites_rename hcounts (dev.setWidth 16) block⟩

theorem step_sound (h : Sound s) {c : Call n} (hs : step s c = some s')
    : Sound s' ∧ s.nullWrites ≤ s'.nullWrites ∧ (s'.nullWrites = s.nullWrites ↔ s.Fills c) := by
  cases c with
  | brelse buf =>
    unfold step brelse at hs
    dsimp only at hs
    split at hs
    . cases hs
    . obtain rfl := Option.some.inj hs
      exact ⟨h.of_counts _ s.bDirt s.bUptodate, Nat.le_refl _, fun _ => trivial, fun _ => rfl⟩
  | getblk dev block =>
    unfold step getblk at hs
    dsimp only at hs
    unfold Fills
    cases hfind : s.findBuffer dev block with
    | some bh =>
      rw [hfind] at hs
      dsimp only at hs
      split at hs
      . cases hs
      . obtain rfl := Option.some.inj hs
        refine ⟨h.of_counts _ s.bDirt s.bUptodate, Nat.le_refl _, fun _ hmiss => ?_, fun _ => rfl⟩
        rw [hfind] at hmiss
        cases hmiss
    | none =>
      rw [hfind] at hs
      cases hpick : s.pick with
      | none =>
        rw [hpick] at hs
        cases hs
      | some bh =>
        rw [hpick] at hs
        dsimp only at hs
        split at hs
        . cases hs
        . obtain ⟨hsound, hnull⟩ := take_sound h hs
          refine ⟨hsound, by omega, ?_⟩
          rw [hnull]
          split
          . next hempties =>
            refine ⟨fun heq => by omega, fun hfills => ?_⟩
            exact absurd hempties.right (hfills hfind bh rfl hempties.left)
          . next hnot =>
            refine ⟨fun _ _ b hb hne hempties => ?_, fun _ => rfl⟩
            obtain rfl := Option.some.inj hb
            exact hnot ⟨hne, hempties⟩

theorem exec_sound {init : Queues n} (h : Sound init) {as : List (Call n)} (hs : Run.exec step init as = some s)
    : Sound s ∧ init.nullWrites ≤ s.nullWrites
        ∧ (s.nullWrites = init.nullWrites ↔ Run.AllOk step Fills init as) := by
  induction as generalizing init with
  | nil =>
    obtain rfl := Option.some.inj hs
    exact ⟨h, Nat.le_refl _, fun _ => trivial, fun _ => rfl⟩
  | cons c as ih =>
    unfold Run.exec at hs
    unfold Run.AllOk
    cases hstep : step init c with
    | none =>
      rw [hstep] at hs
      cases hs
    | some t =>
      rw [hstep] at hs
      obtain ⟨ht, hle, hiff⟩ := step_sound h hstep
      obtain ⟨hsound, hle', hiff'⟩ := ih ht hs
      refine ⟨hsound, Nat.le_trans hle hle', ?_⟩
      rw [← hiff]
      constructor
      . intro heq
        refine ⟨by omega, ?_⟩
        intro s' hs'
        obtain rfl := Option.some.inj hs'
        exact hiff'.mp (by omega)
      . rintro ⟨hfills, hrest⟩
        have hrest' := hiff'.mpr (hrest t rfl)
        omega

theorem Sound.queued (h : Sound s) : Queued s where
  links := fun b c hb => (h.chain b c).mp hb
  first := fun k b hb => (h.head k b hb).left
  restored := by
    intro bh dev block s₁ hremove
    rw [removeFromQueues_eq (h.next_free bh) (h.prev_free bh), Option.some.injEq] at hremove
    subst hremove
    exact ((h.out bh).rename dev block).restored

/--
The queues are in order after every run, and no write of it has gone through NULL exactly if no call puts a buffer
into an empty chain: the write is the one to `b_next->b_prev`.
-/
theorem kept_iff {as : List (Call n)} (h : Run.exec step (bufferInit n) as = some s)
    : Queued s ∧ (Kept s ↔ Run.AllOk step Fills (bufferInit n) as) := by
  obtain ⟨hsound, _, hiff⟩ := exec_sound (sound_init n) h
  refine ⟨hsound.queued, ?_⟩
  rw [← hiff]
  constructor
  . intro hkept
    exact hkept.nullWrites
  . intro hnull
    exact ⟨hsound.queued, hnull⟩

def chainRun : List (Call 6) :=
  [.getblk 0x301 5, .getblk 0x301 927, .brelse 0, .brelse 1, .getblk 0x301 5]

/--
The second block goes to the head of the chain, before the first one, and only the first insertion writes through NULL.
-/
theorem kept_iff_chainRun
    : ∃ s : Queues 6, Run.exec step (bufferInit 6) chainRun = some s
        ∧ s.hashTable 158 = some 1 ∧ s.bNext 1 = some 0 ∧ s.nullWrites = 1
        ∧ Queued s ∧ (Kept s ↔ Run.AllOk step Fills (bufferInit 6) chainRun) := by
  have hrun : (Run.exec step (bufferInit 6) chainRun).map (fun s => (s.hashTable 158, s.bNext 1, s.nullWrites))
      = some (some 1, some 0, 1) := by
    decide +kernel
  obtain ⟨s, hexec, heq⟩ := Option.map_eq_some_iff.mp hrun
  obtain ⟨hhead, heq⟩ := Prod.mk.inj heq
  obtain ⟨hnext, hnull⟩ := Prod.mk.inj heq
  exact ⟨s, hexec, hhead, hnext, hnull, kept_iff hexec⟩

/--
The first block that is asked for finds its chain empty.
-/
theorem not_kept_first
    : ¬ ∀ (as : List (Call 1)) (s : Queues 1), Run.exec step (bufferInit 1) as = some s → Kept s := by
  intro hall
  have hrun : (Run.exec step (bufferInit 1) [.getblk 0x301 5]).map nullWrites = some 1 := by
    decide
  obtain ⟨s, hexec, hnull⟩ := Option.map_eq_some_iff.mp hrun
  have hkept := (hall _ s hexec).nullWrites
  rw [hnull] at hkept
  cases hkept

end Queues
end HashQueues
end OS
