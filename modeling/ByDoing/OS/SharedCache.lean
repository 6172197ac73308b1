import ByDoing.Lib.WriteBack
import ByDoing.OS.QueueLists

/-!
This module contains the buffer cache as all tasks use it. A call of `get_hash_table`, `getblk` or `brelse` may sleep, and
what it finds when it goes on is what the others have left. Meanwhile buffers are locked for the devices, the devices
finish their requests, and those who hold a buffer write to it. What has been written and has not reached the disk may be
given up: by `free_block`, by a disk change, by a read into the buffer, or by a device that fails to write it.
-/

namespace OS
namespace SharedCache

open HashQueues

-- `req->cmd`
inductive Command where
  | READ
  | WRITE
deriving DecidableEq

-- A buffer that `getblk` or `get_hash_table` has counted, and the block that it has counted it for.
structure Reference (n : Nat) where
  bh : Buf n
  dev : BitVec 16
  block : BitVec 32
deriving DecidableEq

inductive Sleeper (n : Nat) where
  -- `get_hash_table` in `wait_on_buffer`, called by `getblk` if `new`
  | hashed (new : Bool) (r : Reference n)
  -- `getblk` on `buffer_wait`
  | full (dev : BitVec 16) (block : BitVec 32)
  -- `getblk` in one of its calls of `wait_on_buffer`
  | waiting (dev : BitVec 16) (block : BitVec 32) (bh : Buf n)
  -- `getblk` in `sync_dev`
  | syncing (dev : BitVec 16) (block : BitVec 32) (bh : Buf n)
  -- `brelse` in `wait_on_buffer`
  | releasing (r : Reference n)
deriving DecidableEq

inductive Outcome (n : Nat) where
  | got (r : Reference n)
  | null
  | sleeps (f : Sleeper n)

section Calls

variable {n : Nat}

def counted (bh : Buf n) (bCount : BitVec 8) (s : Queues n) : Queues n :=
  { s with bCount := Function.update s.bCount bh bCount }

def getHashTable (new : Bool) (dev : BitVec 16) (block : BitVec 32) (s : Queues n) : Queues n × Outcome n :=
  match s.findBuffer (dev.setWidth 32) block with
  | none => (s, .null)
  | some bh =>
    let s := counted bh (s.bCount bh + 1) s
    if s.bLock bh then (s, .sleeps (.hashed new ⟨bh, dev, block⟩)) else (s, .got ⟨bh, dev, block⟩)

-- `getblk` from `wait_on_buffer` on; `again` is what `goto repeat` does.
def settle (again : Queues n → Option (Queues n × Outcome n)) (dev : BitVec 16) (block : BitVec 32) (bh : Buf n)
    (s : Queues n)
    : Option (Queues n × Outcome n) :=
  if s.bLock bh then
    some (s, .sleeps (.waiting dev block bh))
  else if s.bCount bh ≠ 0 then
    again s
  else if s.bDirt bh then
    some (s, .sleeps (.syncing dev block bh))
  else if s.findBuffer (dev.setWidth 32) block ≠ none then
    again s
  else
    (s.take bh (dev.setWidth 32) block).map fun s => (s, .got ⟨bh, dev, block⟩)

-- There is no result if the fuel does not suffice or the kernel panics.
def getblk (dev : BitVec 16) (block : BitVec 32) : Nat → Queues n → Option (Queues n × Outcome n)
  | 0, _ => none
  | fuel + 1, s =>
    match getHashTable true dev block s with
    | (s, .null) =>
      match s.pick with
      | none => some (s, .sleeps (.full dev block))
      | some bh => settle (getblk dev block fuel) dev block bh s
    | out => some out

-- There is no result if the kernel panics.
def brelse (r : Reference n) (s : Queues n) : Option (Queues n × Outcome n) :=
  if s.bLock r.bh then some (s, .sleeps (.releasing r))
  else if s.bCount r.bh = 0 then none
  else some (counted r.bh (s.bCount r.bh - 1) s, .null)

def resume (s : Queues n) : Sleeper n → Option (Queues n × Outcome n)
  | .hashed new r =>
    if s.bLock r.bh then
      some (s, .sleeps (.hashed new r))
    else if s.bDev r.bh = r.dev ∧ s.bBlocknr r.bh = r.block then
      some (s, .got r)
    else
      let s := counted r.bh (s.bCount r.bh - 1) s
      if new then getblk r.dev r.block 1 s else some (getHashTable false r.dev r.block s)
  | .full dev block => getblk dev block 1 s
  | .waiting dev block bh => settle (getblk dev block 1) dev block bh s
  | .syncing dev block bh => settle (getblk dev block 1) dev block bh s
  | .releasing r => brelse r s

end Calls

structure Contents (D : Type) where
  bLock : Bool
  bDirt : Bool
  bUptodate : Bool
  bData : D
  request : Option Command

abbrev Key := BitVec 16 × BitVec 32

structure State (n : Nat) (D : Type) where
  queues : Queues n
  bData : Buf n → D
  request : Buf n → Option Command
  asleep : List (Sleeper n)
  held : List (Reference n)
  disk : Key → D
  -- what has been written last, and whether that has been given up since
  written : Key → D
  lost : Key → Bool
  -- what readers see: what has been written last, or what has taken its place when it was given up
  view : Key → D

inductive Action (n : Nat) (D : Type) where
  | getHashTable (dev : BitVec 16) (block : BitVec 32)
  | getblk (dev : BitVec 16) (block : BitVec 32)
  | brelse (r : Reference n)
  -- `breada` counts a buffer down that it does not wait for
  | uncount (r : Reference n)
  | resume (f : Sleeper n)
  -- `lock_buffer`, and `add_request` for a buffer that has been locked or `unlock_buffer` if there is nothing to do
  | lock (b : Buf n)
  | addRequest (b : Buf n) (rw : Command)
  | unlock (b : Buf n)
  -- `end_request`, after the transfer or after one that has left anything in its place
  | done (b : Buf n)
  | failed (b : Buf n) (d : D)
  -- who holds a buffer writes to it
  | write (r : Reference n) (d : D)
  -- `new_block` clears its buffer
  | clear (r : Reference n) (d : D)
  -- `free_block`
  | forget (r : Reference n)
  -- `invalidate_buffers`
  | invalidate (b : Buf n)

namespace Sleeper

def reference {n : Nat} : Sleeper n → Option (Reference n)
  | .hashed _ r => some r
  | .releasing r => some r
  | _ => none

end Sleeper

namespace Outcome

variable {n : Nat}

def held : Outcome n → List (Reference n)
  | .got r => [r]
  | _ => []

def asleep : Outcome n → List (Sleeper n)
  | .sleeps f => [f]
  | _ => []

def references : Outcome n → List (Reference n)
  | .got r => [r]
  | .null => []
  | .sleeps f => f.reference.toList

end Outcome

def uses {n : Nat} (rs : List (Reference n)) (b : Buf n) : Nat :=
  rs.countP (·.bh = b)

namespace State

variable {n : Nat} {D : Type}

def buffer (s : State n D) (b : Buf n) : Contents D where
  bLock := s.queues.bLock b
  bDirt := s.queues.bDirt b
  bUptodate := s.queues.bUptodate b
  bData := s.bData b
  request := s.request b

def put (s : State n D) (b : Buf n) (c : Contents D) : State n D :=
  { s with
    queues :=
      { s.queues with
        bLock := Function.update s.queues.bLock b c.bLock
        bDirt := Function.update s.queues.bDirt b c.bDirt
        bUptodate := Function.update s.queues.bUptodate b c.bUptodate }
    bData := Function.update s.bData b c.bData
    request := Function.update s.request b c.request }

def key (s : State n D) (b : Buf n) : Key :=
  (s.queues.bDev b, s.queues.bBlocknr b)

-- What is known of the blocks, with `x` for the block of a buffer. A buffer without a device has no block.
def told {α : Type} (s : State n D) (b : Buf n) (m : Key → α) (x : α) : Key → α :=
  if s.queues.bDev b = 0 then m else Function.update m (s.key b) x

def conclude (s : State n D) (out : Queues n × Outcome n) : State n D :=
  { s with queues := out.1, held := out.2.held ++ s.held, asleep := out.2.asleep ++ s.asleep }

def references (s : State n D) : List (Reference n) :=
  s.held ++ s.asleep.filterMap Sleeper.reference

def modify (s : State n D) (b : Buf n) (bUptodate : Bool) (d : D) : State n D :=
  { s.put b { s.buffer b with bDirt := true, bUptodate, bData := d } with
    written := s.told b s.written d
    lost := s.told b s.lost false
    view := s.told b s.view d }

def write (s : State n D) (b : Buf n) (d : D) : State n D :=
  s.modify b (s.queues.bUptodate b) d

def clear (s : State n D) (b : Buf n) (d : D) : State n D :=
  s.modify b true d

-- What is in a dirty buffer is given up, and `d` takes its place.
def lose (s : State n D) (b : Buf n) (c : Contents D) (d : D) : State n D :=
  { s.put b c with
    lost := if s.queues.bDirt b then s.told b s.lost true else s.lost
    view := if s.queues.bDirt b then s.told b s.view d else s.view }

def invalidate (s : State n D) (b : Buf n) : State n D :=
  s.lose b { s.buffer b with bDirt := false, bUptodate := false } (s.disk (s.key b))

def addRequest (s : State n D) (b : Buf n) : Command → State n D
  | .READ => s.lose b { s.buffer b with bDirt := false, request := some .READ } (s.disk (s.key b))
  | .WRITE => s.put b { s.buffer b with bDirt := false, request := some .WRITE }

def endRequest (s : State n D) (b : Buf n) (junk : Option D) : Option (State n D) :=
  let c := { s.buffer b with bLock := false, bUptodate := junk.isNone, request := none }
  match s.request b with
  | none => none
  | some .READ =>
    let d := junk.getD (s.disk (s.key b))
    some (s.lose b { c with bData := d } d)
  | some .WRITE =>
    let d := junk.getD (s.bData b)
    some
      { s.put b c with
        disk := Function.update s.disk (s.key b) d
        lost := if s.queues.bDirt b ∨ junk = none then s.lost else s.told b s.lost true
        view := if s.queues.bDirt b then s.view else s.told b s.view d }

def step (s : State n D) : Action n D → Option (State n D)
  | .getHashTable dev block => some (s.conclude (getHashTable false dev block s.queues))
  | .getblk dev block => (SharedCache.getblk dev block 1 s.queues).map s.conclude
  | .brelse r =>
    if r ∈ s.held then (SharedCache.brelse r s.queues).map { s with held := s.held.erase r }.conclude else none
  | .uncount r =>
    if r ∈ s.held then
      some { s with queues := counted r.bh (s.queues.bCount r.bh - 1) s.queues, held := s.held.erase r }
    else
      none
  | .resume f =>
    if f ∈ s.asleep then (SharedCache.resume s.queues f).map { s with asleep := s.asleep.erase f }.conclude else none
  | .lock b => if s.queues.bLock b then none else some (s.put b { s.buffer b with bLock := true })
  | .addRequest b rw =>
    if s.queues.bLock b ∧ s.request b = none ∧ s.queues.bDev b ≠ 0
        ∧ (rw = .READ → s.queues.bUptodate b = false) ∧ (rw = .WRITE → s.queues.bDirt b) then
      some (s.addRequest b rw)
    else
      none
  | .unlock b => if s.request b = none then some (s.put b { s.buffer b with bLock := false }) else none
  | .done b => s.endRequest b none
  | .failed b d => s.endRequest b (some d)
  | .write r d => if r ∈ s.held then some (s.write r.bh d) else none
  | .clear r d =>
    if r ∈ s.held ∧ s.queues.bLock r.bh = false ∧ s.queues.bCount r.bh = 1 then some (s.clear r.bh d) else none
  | .forget r =>
    if r ∈ s.held ∧ s.queues.bLock r.bh = false ∧ s.queues.bCount r.bh = 1 then some (s.invalidate r.bh) else none
  | .invalidate b => if s.queues.bLock b then none else some (s.invalidate b)

def boot (disk : Key → D) (bData : Buf n → D) : State n D where
  queues := Queues.bufferInit n
  bData := bData
  request := fun _ => none
  asleep := []
  held := []
  disk := disk
  written := disk
  lost := fun _ => false
  view := disk

end State

section Calls

variable {n : Nat} {q q' : Queues n} {rs rs' : List (Reference n)} {r : Reference n} {b bh : Buf n}
    {dev : BitVec 16} {block : BitVec 32} {out : Queues n × Outcome n}

inductive Settles (dev : BitVec 16) (block : BitVec 32) (q : Queues n) : Queues n × Outcome n → Prop where
  | shared (bh : Buf n) (out : Outcome n) (hfind : q.findBuffer (dev.setWidth 32) block = some bh)
      (hout : out.references = [⟨bh, dev, block⟩]) : Settles dev block q (counted bh (q.bCount bh + 1) q, out)
  | unchanged (out : Outcome n) (hout : out.references = []) : Settles dev block q (q, out)
  | taken (bh : Buf n) (hfind : q.findBuffer (dev.setWidth 32) block = none) (hcount : q.bCount bh = 0)
      (hlock : q.bLock bh = false) (hdirt : q.bDirt bh = false) :
      Settles dev block q (q.taken bh dev block, .got ⟨bh, dev, block⟩)

theorem settles_getHashTable (new : Bool) (dev : BitVec 16) (block : BitVec 32) (q : Queues n)
    : Settles dev block q (getHashTable new dev block q) := by
  unfold getHashTable
  split
  . exact .unchanged _ rfl
  . next bh hfind =>
    dsimp only
    split
    . exact .shared bh _ hfind rfl
    . exact .shared bh _ hfind rfl

theorem settle_spec (h : q.Sound) (hring : q.OneRing) {again : Queues n → Option (Queues n × Outcome n)}
    (hagain : q.bCount bh ≠ 0 ∨ q.findBuffer (dev.setWidth 32) block ≠ none →
      ∃ out, again q = some out ∧ Settles dev block q out)
    : ∃ out, settle again dev block bh q = some out ∧ Settles dev block q out := by
  unfold settle
  split
  . exact ⟨_, rfl, .unchanged _ rfl⟩
  . next hlock =>
    split
    . next hcount => exact hagain (Or.inl hcount)
    . next hcount =>
      split
      . exact ⟨_, rfl, .unchanged _ rfl⟩
      . next hdirt =>
        split
        . next hfind => exact hagain (Or.inr hfind)
        . next hfind =>
          obtain ⟨htake, _, _⟩ := h.take hring bh dev block
          rw [htake]
          exact ⟨_, rfl, .taken bh (not_not.mp hfind) (not_not.mp hcount) (eq_false_of_ne_true hlock)
            (eq_false_of_ne_true hdirt)⟩

theorem getblk_spec (h : q.Sound) (hring : q.OneRing) (dev : BitVec 16) (block : BitVec 32) (fuel : Nat)
    : ∃ out, getblk dev block (fuel + 1) q = some out ∧ Settles dev block q out := by
  unfold getblk getHashTable
  cases hfind : q.findBuffer (dev.setWidth 32) block with
  | some bh =>
    dsimp only
    split
    . next heq =>
      split at heq
      . cases heq
      . cases heq
    . refine ⟨_, rfl, ?_⟩
      split
      . exact .shared bh _ hfind rfl
      . exact .shared bh _ hfind rfl
  | none =>
    dsimp only
    cases hpick : q.pick with
    | none => exact ⟨_, rfl, .unchanged _ rfl⟩
    | some bh =>
      apply settle_spec h hring
      rintro (hcount | hsome)
      . exact absurd (Queues.pick_count hpick) hcount
      . exact absurd hfind hsome

theorem getblk_eq_some_iff
    : Queues.getblk (dev.setWidth 32) block q = some q'
        ↔
      ∃ bh, getblk dev block 1 q = some (q', .got ⟨bh, dev, block⟩) := by
  unfold Queues.getblk getblk getHashTable
  cases hfind : q.findBuffer (dev.setWidth 32) block with
  | some bh =>
    cases hlock : q.bLock bh with
    | true => simp [counted, hlock]
    | false => simp [counted, hlock]
  | none =>
    dsimp only
    cases hpick : q.pick with
    | none => simp
    | some bh =>
      have hcount := Queues.pick_count hpick
      unfold settle
      cases hlock : q.bLock bh with
      | true => simp [hlock]
      | false =>
        cases hdirt : q.bDirt bh with
        | true => simp [hlock, hdirt, hcount]
        | false => simp [hlock, hdirt, hcount, hfind]

theorem brelse_eq_some_iff (r : Reference n)
    : Queues.brelse r.bh q = some q' ↔ brelse r q = some (q', .null) := by
  unfold Queues.brelse brelse
  cases hlock : q.bLock r.bh with
  | true => simp
  | false => simp [counted]

structure Placed (q : Queues n) (rs : List (Reference n)) : Prop where
  sound : q.Sound
  ring : q.OneRing
  count : ∀ b, q.bCount b = BitVec.ofNat 8 (uses rs b)
  keyed : ∀ r ∈ rs, q.bDev r.bh = r.dev ∧ q.bBlocknr r.bh = r.block

theorem uses_cons (r : Reference n) (rs : List (Reference n)) (b : Buf n)
    : uses (r :: rs) b = uses rs b + if r.bh = b then 1 else 0 := by
  unfold uses
  rw [List.countP_cons]
  simp

theorem uses_eq_of_perm (h : rs.Perm rs') (b : Buf n) : uses rs b = uses rs' b :=
  h.countP_eq _

theorem Placed.of_perm (h : Placed q rs) (hperm : rs.Perm rs') : Placed q rs' where
  sound := h.sound
  ring := h.ring
  count := fun b => (uses_eq_of_perm hperm b) ▸ h.count b
  keyed := fun r hr => h.keyed r (hperm.mem_iff.mpr hr)

theorem Placed.of_flags (h : Placed q rs) (bLock bDirt bUptodate : Buf n → Bool)
    : Placed { q with bLock, bDirt, bUptodate } rs :=
  have hs := h.sound
  ⟨⟨hs.chain, hs.ring, hs.next_free, hs.prev_free, hs.freeList, hs.head, hs.first, hs.same, hs.rank⟩, h.ring, h.count,
    h.keyed⟩

theorem sound_counted (h : q.Sound) (bh : Buf n) (c : BitVec 8) : (counted bh c q).Sound :=
  h.of_counts _ q.bDirt q.bUptodate

theorem Placed.count_zero (h : Placed q rs) (hfew : uses rs b < 256) (hcount : q.bCount b = 0) : ∀ r ∈ rs, r.bh ≠ b := by
  intro r hr heq
  have hpos : 0 < uses rs b := List.countP_pos_iff.mpr ⟨r, hr, decide_eq_true heq⟩
  have hzero := congrArg BitVec.toNat ((h.count b).symm.trans hcount)
  rw [BitVec.toNat_ofNat, Nat.mod_eq_of_lt hfew] at hzero
  exact Nat.ne_of_gt hpos hzero

theorem Placed.share (h : Placed q rs) (hfind : q.findBuffer (dev.setWidth 32) block = some bh)
    : Placed (counted bh (q.bCount bh + 1) q) (⟨bh, dev, block⟩ :: rs) := by
  obtain ⟨_, hdev, hblocknr⟩ := h.sound.of_findBuffer hfind
  refine ⟨sound_counted h.sound bh _, h.ring, ?_, ?_⟩
  . intro b
    rw [uses_cons]
    change Function.update q.bCount bh _ b = BitVec.ofNat 8 (uses rs b + if bh = b then 1 else 0)
    by_cases hb : b = bh
    . subst hb
      rw [Function.update_self, h.count, if_pos rfl, BitVec.ofNat_add]
      rfl
    . rw [if_neg (Ne.symm hb), Function.update_of_ne hb, h.count, Nat.add_zero]
  . intro r hr
    rcases List.mem_cons.mp hr with rfl | hr
    . refine ⟨?_, hblocknr⟩
      change q.bDev bh = dev
      simpa using congrArg (BitVec.setWidth 16) hdev
    . exact h.keyed r hr

theorem Placed.release (h : Placed q (r :: rs)) : Placed (counted r.bh (q.bCount r.bh - 1) q) rs := by
  refine ⟨sound_counted h.sound r.bh _, h.ring, ?_, fun r' hr => h.keyed r' (List.mem_cons_of_mem r hr)⟩
  intro b
  have hb := h.count b
  rw [uses_cons] at hb
  change Function.update q.bCount r.bh _ b = BitVec.ofNat 8 (uses rs b)
  by_cases heq : b = r.bh
  . subst heq
    rw [if_pos rfl, BitVec.ofNat_add] at hb
    rw [Function.update_self, hb]
    exact BitVec.add_sub_cancel _ _
  . rw [if_neg (Ne.symm heq)] at hb
    rw [Function.update_of_ne heq, hb, Nat.add_zero]

theorem Placed.taken (h : Placed q rs) (hfew : uses rs bh < 256) (hcount : q.bCount bh = 0)
    : Placed (q.taken bh dev block) (⟨bh, dev, block⟩ :: rs) := by
  obtain ⟨_, hsound, hring⟩ := h.sound.take h.ring bh dev block
  have hfields := Queues.taken_fields bh dev block q
  have hfree := h.count_zero hfew hcount
  refine ⟨hsound, hring, ?_, ?_⟩
  . intro b
    rw [uses_cons, hfields.bCount]
    by_cases hb : b = bh
    . subst hb
      have hzero : uses rs b = 0 := List.countP_eq_zero.mpr fun r hr => by simpa using hfree r hr
      rw [Function.update_self, if_pos rfl, hzero]
      rfl
    . rw [if_neg (Ne.symm hb), Function.update_of_ne hb, h.count]
      rfl
  . intro r hr
    rw [hfields.bDev, hfields.bBlocknr]
    rcases List.mem_cons.mp hr with rfl | hr
    . exact ⟨Function.update_self _ _ _, Function.update_self _ _ _⟩
    . have hne := hfree r hr
      rw [Function.update_of_ne hne, Function.update_of_ne hne]
      exact h.keyed r hr

theorem Placed.settles (h : Placed q rs) (hfew : ∀ b, uses rs b < 256) (hs : Settles dev block q out)
    : Placed out.1 (out.2.references ++ rs) := by
  cases hs with
  | shared bh out hfind hout =>
    rw [hout]
    exact h.share hfind
  | unchanged out hout =>
    rw [hout]
    exact h
  | taken bh hfind hcount hlock hdirt => exact h.taken (hfew bh) hcount

def Moves (q : Queues n) (out : Queues n × Outcome n) : Prop :=
  (∃ bCount, out.1 = { q with bCount }) ∨ ∃ dev block, Settles dev block q out

theorem brelse_spec (h : Placed q (r :: rs)) (hfew : uses (r :: rs) r.bh < 256)
    : ∃ out, brelse r q = some out ∧ Placed out.1 (out.2.references ++ rs) ∧ Moves q out := by
  unfold brelse
  split
  . exact ⟨_, rfl, h, Or.inl ⟨q.bCount, rfl⟩⟩
  . split
    . next hcount => exact absurd rfl (h.count_zero hfew hcount r List.mem_cons_self)
    . exact ⟨_, rfl, h.release, Or.inl ⟨_, rfl⟩⟩

theorem resume_spec {f : Sleeper n} (h : Placed q (f.reference.toList ++ rs))
    (hfew : ∀ b, uses (f.reference.toList ++ rs) b < 256)
    : ∃ out, resume q f = some out ∧ Placed out.1 (out.2.references ++ rs) ∧ Moves q out := by
  -- a call that has counted nothing looks for its block again
  have hsettles : ∀ {dev block out}, f.reference = none → Settles dev block q out →
      Placed out.1 (out.2.references ++ rs) ∧ Moves q out := by
    intro dev block out hnone hs
    rw [hnone] at h hfew
    exact ⟨h.settles hfew hs, Or.inr ⟨dev, block, hs⟩⟩
  cases f with
  | hashed new r =>
    rw [resume]
    split
    . exact ⟨_, rfl, h, Or.inl ⟨q.bCount, rfl⟩⟩
    . rw [if_pos (h.keyed r List.mem_cons_self)]
      exact ⟨_, rfl, h, Or.inl ⟨q.bCount, rfl⟩⟩
  | full dev block =>
    obtain ⟨out, hout, hs⟩ := getblk_spec h.sound h.ring dev block 0
    exact ⟨out, hout, hsettles rfl hs⟩
  | waiting dev block bh =>
    obtain ⟨out, hout, hs⟩ := settle_spec h.sound h.ring fun _ => getblk_spec h.sound h.ring dev block 0
    exact ⟨out, hout, hsettles rfl hs⟩
  | syncing dev block bh =>
    obtain ⟨out, hout, hs⟩ := settle_spec h.sound h.ring fun _ => getblk_spec h.sound h.ring dev block 0
    exact ⟨out, hout, hsettles rfl hs⟩
  | releasing r => exact brelse_spec h (hfew r.bh)

end Calls

namespace Contents

def dirty {D : Type} (c : Contents D) : Bool :=
  c.bDirt || decide (c.request = some .WRITE)

end Contents

namespace State

variable {n : Nat} {D : Type} {s s' : State n D} {b bh : Buf n} {c : Contents D} {d : D} {r : Reference n}
    {f : Sleeper n}

def line (s : State n D) (b : Buf n) : WriteBack.Line Key D where
  key := if s.queues.bDev b = 0 then none else some (s.key b)
  value := s.bData b
  valid := s.queues.bUptodate b
  dirty := (s.buffer b).dirty

structure Coherent (s : State n D) : Prop where
  request : ∀ b, s.request b ≠ none → s.queues.bLock b = true ∧ s.queues.bDev b ≠ 0
  lines : WriteBack.Coherent s.line s.disk s.view
  written : ∀ k, s.lost k = false → s.view k = s.written k

structure Inv (s : State n D) : Prop where
  placed : Placed s.queues s.references
  coherent : s.Coherent

theorem buffer_put_self : (s.put b c).buffer b = c := by
  unfold put buffer
  simp only [Function.update_self]

theorem buffer_put_of_ne (h : bh ≠ b) : (s.put b c).buffer bh = s.buffer bh := by
  unfold put buffer
  simp only [Function.update_of_ne h]

theorem line_eq (s : State n D) (b : Buf n)
    : s.line b =
        { key := if s.queues.bDev b = 0 then none else some (s.key b)
          value := (s.buffer b).bData
          valid := (s.buffer b).bUptodate
          dirty := (s.buffer b).dirty } :=
  rfl

theorem told_self {α : Type} {m : Key → α} {x : α} (hdev : s.queues.bDev b ≠ 0) : s.told b m x (s.key b) = x := by
  unfold told
  rw [if_neg hdev, Function.update_self]

theorem line_key_iff {k : Key} : (s.line b).key = some k ↔ s.queues.bDev b ≠ 0 ∧ s.key b = k := by
  change (if s.queues.bDev b = 0 then none else some (s.key b)) = some k ↔ _
  split
  . next hdev => exact ⟨nofun, fun hand => absurd hdev hand.left⟩
  . next hdev => exact ⟨fun heq => ⟨hdev, Option.some.inj heq⟩, fun hand => congrArg some hand.right⟩

theorem told_of_ne {α : Type} {m : Key → α} {x : α} {k : Key} (h : (s.line b).key ≠ some k) : s.told b m x k = m k := by
  unfold told
  split
  . rfl
  . next hdev =>
    apply Function.update_of_ne
    rintro rfl
    exact h (line_key_iff.mpr ⟨hdev, rfl⟩)

theorem Coherent.store_eq (h : s.Coherent) (hdev : s.queues.bDev b ≠ 0) (hdirty : (s.buffer b).dirty = false)
    : s.disk (s.key b) = s.view (s.key b) := by
  apply h.lines.store_eq
  intro j hj
  rw [h.lines.unique j b _ hj (line_key_iff.mpr ⟨hdev, rfl⟩)]
  exact hdirty

theorem Coherent.put (h : s.Coherent) {disk written view : Key → D} {lost : Key → Bool}
    (hrequest : c.request ≠ none → c.bLock = true ∧ s.queues.bDev b ≠ 0)
    (hdisk : ∀ k, (s.line b).key ≠ some k → disk k = s.disk k)
    (hview : ∀ k, (s.line b).key ≠ some k → view k = s.view k)
    (hvalue : s.queues.bDev b ≠ 0 → c.bUptodate = true ∨ c.dirty = true → c.bData = view (s.key b))
    (hclean : s.queues.bDev b ≠ 0 → c.dirty = false → disk (s.key b) = view (s.key b))
    (hwritten : ∀ k, lost k = false → view k = written k)
    : Coherent { s.put b c with disk, written, lost, view } := by
  have hself : (s.put b c).buffer b = c := buffer_put_self
  constructor
  . intro a ha
    by_cases hab : a = b
    . subst hab
      change Function.update s.request a c.request a ≠ none at ha
      change Function.update s.queues.bLock a c.bLock a = true ∧ s.queues.bDev a ≠ 0
      rw [Function.update_self] at ha ⊢
      exact hrequest ha
    . change Function.update s.request b c.request a ≠ none at ha
      change Function.update s.queues.bLock b c.bLock a = true ∧ s.queues.bDev a ≠ 0
      rw [Function.update_of_ne hab] at ha ⊢
      exact h.request a ha
  . apply h.lines.of_key_eq (i := b)
    . rfl
    . intro j hj
      change (s.put b c).line j = s.line j
      rw [line_eq, line_eq, buffer_put_of_ne hj]
      rfl
    . intro k hk hset
      obtain ⟨hdev, rfl⟩ := line_key_iff.mp hk
      change ((s.put b c).buffer b).bUptodate = true ∨ ((s.put b c).buffer b).dirty = true at hset
      change ((s.put b c).buffer b).bData = view (s.key b)
      rw [hself] at hset ⊢
      exact hvalue hdev hset
    . exact hview
    . exact hdisk
    . intro k hk hdirty
      obtain ⟨hdev, rfl⟩ := line_key_iff.mp hk
      change ((s.put b c).buffer b).dirty = false at hdirty
      rw [hself] at hdirty
      exact hclean hdev hdirty
  . exact hwritten

theorem Coherent.value (h : s.Coherent) (hdev : s.queues.bDev b ≠ 0)
    (hset : s.queues.bUptodate b = true ∨ (s.buffer b).dirty = true)
    : s.bData b = s.view (s.key b) :=
  h.lines.value_eq b _ (line_key_iff.mpr ⟨hdev, rfl⟩) hset

theorem dirty_of_request (hrequest : s.request b ≠ some .WRITE) : (s.buffer b).dirty = s.queues.bDirt b := by
  unfold Contents.dirty buffer
  dsimp only
  rw [decide_eq_false hrequest, Bool.or_false]

theorem Coherent.relock (h : s.Coherent) {l : Bool} (hl : l = true ∨ s.request b = none)
    : Coherent (s.put b { s.buffer b with bLock := l }) := by
  refine h.put (c := { s.buffer b with bLock := l }) ?_ (fun _ _ => rfl) (fun _ _ => rfl)
    (fun hdev hset => h.value hdev hset) (fun hdev hdirty => h.store_eq hdev hdirty) h.written
  intro hrequest
  exact ⟨hl.resolve_right hrequest, (h.request b hrequest).right⟩

theorem Coherent.told_lost (h : s.Coherent) {view : Key → D} (hview : ∀ k, (s.line b).key ≠ some k → view k = s.view k)
    {k : Key} (hlost : s.told b s.lost true k = false)
    : view k = s.written k := by
  by_cases hk : (s.line b).key = some k
  . obtain ⟨hdev, rfl⟩ := line_key_iff.mp hk
    rw [told_self hdev] at hlost
    cases hlost
  . rw [told_of_ne hk] at hlost
    exact (hview k hk).trans (h.written k hlost)

theorem Coherent.modify (h : s.Coherent) {bUptodate : Bool} : Coherent (s.modify b bUptodate d) := by
  refine h.put (c := { s.buffer b with bDirt := true, bUptodate, bData := d }) (h.request b) (fun _ _ => rfl)
    (fun _ => told_of_ne) (fun hdev _ => (told_self hdev).symm) (fun _ hdirty => ?_) ?_
  . cases hdirty
  . intro k hlost
    by_cases hk : (s.line b).key = some k
    . obtain ⟨hdev, rfl⟩ := line_key_iff.mp hk
      rw [told_self hdev, told_self hdev]
    . rw [told_of_ne hk] at hlost
      rw [told_of_ne hk, told_of_ne hk]
      exact h.written k hlost

theorem Coherent.lose (h : s.Coherent) (hwriting : s.request b ≠ some .WRITE)
    (hrequest : c.request ≠ none → c.bLock = true ∧ s.queues.bDev b ≠ 0)
    (hvalue : c.bUptodate = true ∨ c.dirty = true →
      if s.queues.bDirt b then c.bData = d else s.queues.bDev b ≠ 0 → c.bData = s.view (s.key b))
    (hclean : c.dirty = false → s.queues.bDirt b = true → s.disk (s.key b) = d)
    : Coherent (s.lose b c d) := by
  refine h.put (c := c) hrequest (fun _ _ => rfl) ?_ ?_ ?_ ?_
  . intro k hk
    split
    . exact told_of_ne hk
    . rfl
  . intro hdev hset
    have hdata := hvalue hset
    split
    . next hdirt =>
      rw [if_pos hdirt] at hdata
      exact hdata.trans (told_self hdev).symm
    . next hdirt =>
      rw [if_neg hdirt] at hdata
      exact hdata hdev
  . intro hdev hdirty
    split
    . next hdirt => exact (hclean hdirty hdirt).trans (told_self hdev).symm
    . next hdirt =>
      apply h.store_eq hdev
      rw [dirty_of_request hwriting]
      exact eq_false_of_ne_true hdirt
  . intro k hlost
    split at hlost
    . next hdirt =>
      rw [if_pos hdirt]
      exact h.told_lost (fun _ => told_of_ne) hlost
    . next hdirt =>
      rw [if_neg hdirt]
      exact h.written k hlost

theorem Coherent.lose_clean (h : s.Coherent) (hwriting : s.request b ≠ some .WRITE) (huptodate : c.bUptodate = false)
    (hdirty : c.dirty = false) (hrequest : c.request ≠ none → c.bLock = true ∧ s.queues.bDev b ≠ 0)
    : Coherent (s.lose b c (s.disk (s.key b))) := by
  refine h.lose hwriting hrequest ?_ fun _ _ => rfl
  intro hset
  rw [huptodate, hdirty] at hset
  rcases hset with hset | hset <;> cases hset

theorem Coherent.addRequest {rw : Command} (h : s.Coherent) (hlock : s.queues.bLock b = true) (hrequest : s.request b = none)
    (hdev : s.queues.bDev b ≠ 0) (hread : rw = .READ → s.queues.bUptodate b = false)
    (hwrite : rw = .WRITE → s.queues.bDirt b = true)
    : Coherent (s.addRequest b rw) := by
  cases rw with
  | READ =>
    refine h.lose_clean ?_ (hread rfl) rfl fun _ => ⟨hlock, hdev⟩
    rw [hrequest]
    nofun
  | WRITE =>
    refine h.put (c := { s.buffer b with bDirt := false, request := some .WRITE }) (fun _ => ⟨hlock, hdev⟩)
      (fun _ _ => rfl) (fun _ _ => rfl) (fun hdev _ => h.value hdev (Or.inr ?_)) (fun _ hdirty => ?_) h.written
    . unfold Contents.dirty buffer
      dsimp only
      rw [hwrite rfl, Bool.true_or]
    . cases hdirty

theorem Coherent.invalidate (h : s.Coherent) (hlock : s.queues.bLock b = false) : Coherent (s.invalidate b) := by
  have hnone : s.request b = none := by
    cases hrequest : s.request b with
    | none => rfl
    | some rw =>
      obtain ⟨hlocked, _⟩ := h.request b (by rw [hrequest]; nofun)
      rw [hlock] at hlocked
      cases hlocked
  have hwriting : s.request b ≠ some .WRITE := by
    rw [hnone]
    nofun
  refine h.lose_clean hwriting rfl ?_ (h.request b)
  unfold Contents.dirty buffer
  dsimp only
  rw [decide_eq_false hwriting]
  rfl

theorem Coherent.endRequest (h : s.Coherent) {junk : Option D} (hs : s.endRequest b junk = some s') : Coherent s' := by
  unfold State.endRequest at hs
  dsimp only at hs
  split at hs
  . cases hs
  . next hrequest =>
    obtain rfl := Option.some.inj hs
    have hwriting : s.request b ≠ some .WRITE := by
      rw [hrequest]
      nofun
    refine h.lose hwriting nofun ?_ ?_
    . intro hset
      split
      . rfl
      . next hdirt =>
        have hdirt := eq_false_of_ne_true hdirt
        intro hdev
        rcases hset with hset | hset
        . obtain rfl := Option.isNone_iff_eq_none.mp hset
          exact h.store_eq hdev ((dirty_of_request hwriting).trans hdirt)
        . rw [Contents.dirty] at hset
          change (s.queues.bDirt b || false) = true at hset
          rw [hdirt] at hset
          cases hset
    . intro hdirty hdirt
      change (s.queues.bDirt b || false) = false at hdirty
      rw [hdirt] at hdirty
      cases hdirty
  . next hrequest =>
    obtain rfl := Option.some.inj hs
    have hdev : s.queues.bDev b ≠ 0 := (h.request b (by rw [hrequest]; nofun)).right
    have hvalue : s.bData b = s.view (s.key b) := by
      apply h.value hdev
      right
      unfold Contents.dirty buffer
      dsimp only
      rw [decide_eq_true hrequest, Bool.or_true]
    refine h.put nofun ?_ ?_ ?_ ?_ ?_
    . intro k hk
      apply Function.update_of_ne
      rintro rfl
      exact hk (line_key_iff.mpr ⟨hdev, rfl⟩)
    . intro k hk
      split
      . rfl
      . exact told_of_ne hk
    . intro _ hset
      split
      . exact hvalue
      . next hdirt =>
        have hdirt := eq_false_of_ne_true hdirt
        rw [told_self hdev]
        rcases hset with hset | hset
        . obtain rfl := Option.isNone_iff_eq_none.mp hset
          rfl
        . change (s.queues.bDirt b || false) = true at hset
          rw [hdirt] at hset
          cases hset
    . intro _ hdirty
      change (s.queues.bDirt b || false) = false at hdirty
      rw [Bool.or_false] at hdirty
      rw [hdirty, Function.update_self]
      exact (told_self hdev).symm
    . intro k hlost
      by_cases hkept : s.queues.bDirt b = true ∨ junk = none
      . rw [if_pos hkept] at hlost
        refine Eq.trans ?_ (h.written k hlost)
        split
        . rfl
        . next hdirt =>
          obtain rfl := hkept.resolve_left hdirt
          by_cases hk : (s.line b).key = some k
          . obtain ⟨_, rfl⟩ := line_key_iff.mp hk
            exact (told_self hdev).trans hvalue
          . exact told_of_ne hk
      . rw [if_neg hkept] at hlost
        rw [if_neg (mt Or.inl hkept)]
        exact h.told_lost (fun _ => told_of_ne) hlost

theorem Coherent.taken {q : Queues n} (h : s.Coherent) (hsound : s.queues.Sound) {dev : BitVec 16} {block : BitVec 32}
    (hfind : s.queues.findBuffer (dev.setWidth 32) block = none) (hlock : s.queues.bLock bh = false)
    (hdirt : s.queues.bDirt bh = false) (hq : Queues.Taken bh dev block s.queues q)
    : Coherent { s with queues := q } := by
  have hnone : s.request bh = none := by
    cases hrequest : s.request bh with
    | none => rfl
    | some rw =>
      obtain ⟨hlocked, _⟩ := h.request bh (by rw [hrequest]; nofun)
      rw [hlock] at hlocked
      cases hlocked
  have hwriting : s.request bh ≠ some .WRITE := by
    rw [hnone]
    nofun
  have hclean : (s.line bh).dirty = false := (dirty_of_request hwriting).trans hdirt
  have hother : ∀ a, a ≠ bh → line { s with queues := q } a = s.line a := by
    intro a ha
    unfold line key buffer
    dsimp only
    rw [hq.bDev, hq.bBlocknr, hq.bLock, hq.bDirt, hq.bUptodate, Function.update_of_ne ha, Function.update_of_ne ha,
      Function.update_of_ne ha, Function.update_of_ne ha]
  have hself : line { s with queues := q } bh =
      { s.line bh with key := if dev = 0 then none else some (dev, block), valid := false, dirty := false } := by
    have hdirty : (buffer { s with queues := q } bh).dirty = false := by
      refine (dirty_of_request (s := { s with queues := q }) hwriting).trans ?_
      change q.bDirt bh = false
      rw [hq.bDirt, Function.update_self]
    unfold line key
    rw [hdirty]
    dsimp only
    rw [hq.bDev, hq.bBlocknr, hq.bUptodate, Function.update_self, Function.update_self, Function.update_self]
  have hline : line { s with queues := q } = Function.update s.line bh
      { s.line bh with key := if dev = 0 then none else some (dev, block), valid := false, dirty := false } := by
    funext a
    by_cases ha : a = bh
    . subst ha
      rw [Function.update_self, hself]
    . rw [Function.update_of_ne ha, hother a ha]
  constructor
  . intro a ha
    obtain ⟨hlocked, hdev⟩ := h.request a ha
    have hne : a ≠ bh := by
      rintro rfl
      exact ha hnone
    change q.bLock a = true ∧ q.bDev a ≠ 0
    rw [hq.bLock, hq.bDev, Function.update_of_ne hne]
    exact ⟨hlocked, hdev⟩
  . by_cases hdev : dev = 0
    . rw [if_pos hdev] at hline
      exact h.lines.discard hclean hline
    . rw [if_neg hdev] at hline
      refine h.lines.replace hclean ?_ hline
      intro j hj
      obtain ⟨hdev', hkey⟩ := line_key_iff.mp hj
      obtain ⟨hd, hb⟩ := Prod.mk.inj hkey
      exact hsound.not_matches hfind hdev' ⟨congrArg (BitVec.setWidth 32) hd, hb⟩
  . exact h.written

theorem references_conclude (s : State n D) (out : Queues n × Outcome n)
    : (s.conclude out).references.Perm (out.2.references ++ s.references) := by
  obtain ⟨q, out⟩ := out
  cases out with
  | got r => exact List.Perm.refl _
  | null => exact List.Perm.refl _
  | sleeps f =>
    unfold references conclude Outcome.held Outcome.asleep Outcome.references
    dsimp only
    rw [List.nil_append, List.cons_append, List.nil_append, List.filterMap_cons]
    split
    . next hf => rw [hf]; exact List.Perm.refl _
    . next r hf => rw [hf]; exact List.perm_middle

theorem references_held (hr : r ∈ s.held) : s.references.Perm (r :: references { s with held := s.held.erase r }) :=
  (List.perm_cons_erase hr).append_right _

theorem references_asleep (hf : f ∈ s.asleep)
    : s.references.Perm (f.reference.toList ++ references { s with asleep := s.asleep.erase f }) := by
  have hperm := (List.perm_cons_erase hf).filterMap Sleeper.reference
  refine (hperm.append_left s.held).trans ?_
  rw [List.filterMap_cons]
  split
  . next hnone => rw [hnone]; exact List.Perm.refl _
  . next r hsome => rw [hsome]; exact List.perm_middle

theorem Inv.of_moves {out : Queues n × Outcome n} (hcoherent : s.Coherent) (hsound : s.queues.Sound)
    (hplaced : Placed out.1 (out.2.references ++ s.references)) (hmoves : Moves s.queues out)
    : Inv (s.conclude out) := by
  refine ⟨hplaced.of_perm (references_conclude s out).symm, ?_⟩
  obtain ⟨q, out⟩ := out
  rcases hmoves with ⟨bCount, hq⟩ | ⟨dev, block, hs⟩
  . subst hq
    exact ⟨hcoherent.request, hcoherent.lines, hcoherent.written⟩
  . cases hs with
    | shared bh out hfind hout => exact ⟨hcoherent.request, hcoherent.lines, hcoherent.written⟩
    | unchanged out hout => exact ⟨hcoherent.request, hcoherent.lines, hcoherent.written⟩
    | taken bh hfind hcount hlock hdirt =>
      have htaken := hcoherent.taken hsound hfind hlock hdirt (Queues.taken_fields bh dev block s.queues)
      exact ⟨htaken.request, htaken.lines, htaken.written⟩

theorem Inv.settles {dev : BitVec 16} {block : BitVec 32} {out : Queues n × Outcome n} (h : s.Inv)
    (hfew : ∀ b, uses s.references b < 256) (hs : Settles dev block s.queues out)
    : Inv (s.conclude out) :=
  Inv.of_moves h.coherent h.placed.sound (h.placed.settles hfew hs) (Or.inr ⟨dev, block, hs⟩)

theorem Inv.brelse (h : s.Inv) (hfew : ∀ b, uses s.references b < 256) (hr : r ∈ s.held)
    : ∃ s', s.step (.brelse r) = some s' ∧ s'.Inv := by
  have hperm := references_held hr
  have hplaced := h.placed.of_perm hperm
  obtain ⟨out, hout, hplaced', hmoves⟩ := brelse_spec hplaced (uses_eq_of_perm hperm r.bh ▸ hfew r.bh)
  refine ⟨conclude { s with held := s.held.erase r } out, ?_, ?_⟩
  . rw [step, if_pos hr, hout, Option.map_some]
  . exact Inv.of_moves ⟨h.coherent.request, h.coherent.lines, h.coherent.written⟩ h.placed.sound hplaced' hmoves

theorem Inv.resume (h : s.Inv) (hfew : ∀ b, uses s.references b < 256) (hf : f ∈ s.asleep)
    : ∃ s', s.step (.resume f) = some s' ∧ s'.Inv := by
  have hperm := references_asleep hf
  have hplaced := h.placed.of_perm hperm
  obtain ⟨out, hout, hplaced', hmoves⟩ := resume_spec hplaced fun b => uses_eq_of_perm hperm b ▸ hfew b
  refine ⟨conclude { s with asleep := s.asleep.erase f } out, ?_, ?_⟩
  . rw [step, if_pos hf, hout, Option.map_some]
  . exact Inv.of_moves ⟨h.coherent.request, h.coherent.lines, h.coherent.written⟩ h.placed.sound hplaced' hmoves

theorem Inv.getblk (h : s.Inv) (hfew : ∀ b, uses s.references b < 256) (dev : BitVec 16) (block : BitVec 32)
    : ∃ s', s.step (.getblk dev block) = some s' ∧ s'.Inv := by
  obtain ⟨out, hout, hs⟩ := getblk_spec h.placed.sound h.placed.ring dev block 0
  refine ⟨s.conclude out, ?_, h.settles hfew hs⟩
  rw [step, hout, Option.map_some]

theorem Inv.of_coherent (h : s.Inv) {disk written view : Key → D} {lost : Key → Bool}
    (hc : Coherent { s.put b c with disk, written, lost, view })
    : Inv { s.put b c with disk, written, lost, view } :=
  ⟨h.placed.of_flags _ _ _, hc⟩

theorem Inv.endRequest (h : s.Inv) {junk : Option D} (hs : s.endRequest b junk = some s') : s'.Inv := by
  refine ⟨?_, h.coherent.endRequest hs⟩
  unfold State.endRequest at hs
  dsimp only at hs
  split at hs
  . cases hs
  . obtain rfl := Option.some.inj hs
    exact h.placed.of_flags _ _ _
  . obtain rfl := Option.some.inj hs
    exact h.placed.of_flags _ _ _

theorem Inv.step {a : Action n D} (h : s.Inv) (hfew : ∀ b, uses s.references b < 256) (hs : s.step a = some s')
    : s'.Inv := by
  have hsame : ∀ {t}, s.step a = some t ∧ t.Inv → s'.Inv := by
    intro t ht
    rw [ht.left] at hs
    exact Option.some.inj hs ▸ ht.right
  cases a with
  | getHashTable dev block =>
    obtain rfl := Option.some.inj hs
    exact h.settles hfew (settles_getHashTable false dev block s.queues)
  | getblk dev block => exact hsame (h.getblk hfew dev block).choose_spec
  | brelse r =>
    by_cases hr : r ∈ s.held
    . exact hsame (h.brelse hfew hr).choose_spec
    . rw [State.step, if_neg hr] at hs
      cases hs
  | resume f =>
    by_cases hf : f ∈ s.asleep
    . exact hsame (h.resume hfew hf).choose_spec
    . rw [State.step, if_neg hf] at hs
      cases hs
  | uncount r =>
    rw [State.step] at hs
    split at hs
    . next hr =>
      obtain rfl := Option.some.inj hs
      exact ⟨(h.placed.of_perm (references_held hr)).release, h.coherent.request, h.coherent.lines, h.coherent.written⟩
    . cases hs
  | lock b =>
    rw [State.step] at hs
    split at hs
    . cases hs
    . obtain rfl := Option.some.inj hs
      exact h.of_coherent (h.coherent.relock (Or.inl rfl))
  | addRequest b rw =>
    rw [State.step] at hs
    split at hs
    . next hready =>
      obtain ⟨hlock, hrequest, hdev, hread, hwrite⟩ := hready
      obtain rfl := Option.some.inj hs
      have hc := h.coherent.addRequest hlock hrequest hdev hread hwrite
      cases rw with
      | READ => exact h.of_coherent hc
      | WRITE => exact h.of_coherent hc
    . cases hs
  | unlock b =>
    rw [State.step] at hs
    split at hs
    . next hrequest =>
      obtain rfl := Option.some.inj hs
      exact h.of_coherent (h.coherent.relock (Or.inr hrequest))
    . cases hs
  | done b => exact h.endRequest hs
  | failed b d => exact h.endRequest hs
  | write r d =>
    rw [State.step] at hs
    split at hs
    . obtain rfl := Option.some.inj hs
      exact h.of_coherent h.coherent.modify
    . cases hs
  | clear r d =>
    rw [State.step] at hs
    split at hs
    . obtain rfl := Option.some.inj hs
      exact h.of_coherent h.coherent.modify
    . cases hs
  | forget r =>
    rw [State.step] at hs
    split at hs
    . next hready =>
      obtain rfl := Option.some.inj hs
      exact h.of_coherent (h.coherent.invalidate hready.right.left)
    . cases hs
  | invalidate b =>
    rw [State.step] at hs
    split at hs
    . cases hs
    . next hlock =>
      obtain rfl := Option.some.inj hs
      exact h.of_coherent (h.coherent.invalidate (eq_false_of_ne_true hlock))

theorem inv_boot (disk : Key → D) (bData : Buf n → D) : Inv (boot disk bData) := by
  have hkey : ∀ b k, ((boot disk bData).line b).key ≠ some k := by
    intro b k hk
    exact (line_key_iff.mp hk).left rfl
  refine ⟨⟨Queues.sound_init n, Queues.oneRing_init n, fun _ => rfl, nofun⟩, fun _ hrequest => absurd rfl hrequest, ?_,
    fun _ _ => rfl⟩
  constructor
  . intro i j k hk
    exact absurd hk (hkey i k)
  . intro i k hk
    exact absurd hk (hkey i k)
  . intro k _
    rfl

def Few (s : State n D) : Prop :=
  ∀ b, uses s.references b < 256

instance (s : State n D) : Decidable s.Few :=
  inferInstanceAs (Decidable (∀ _, _))

theorem inv_of_reaches {disk : Key → D} {bData : Buf n → D} (h : Run.Reaches step (fun s _ => s.Few) (boot disk bData) s)
    : s.Inv :=
  h.invariant Inv (inv_boot disk bData) fun _ _ _ hinv hfew hs => hinv.step hfew hs

structure Serves (s : State n D) : Prop where
  ring : s.queues.OneRing
  chains : ∀ k, ∃ l, DoublyLinked.Trail s.queues.bNext (s.queues.hashTable k) l ∧ l.Nodup
    ∧ ∀ b, b ∈ l ↔ s.queues.bDev b ≠ 0 ∧ s.queues.bucket b = k
  count : ∀ b, s.queues.bCount b = BitVec.ofNat 8 (uses s.references b)
  held : ∀ r ∈ s.held, s.key r.bh = (r.dev, r.block)
  single : ∀ b, s.queues.bDev b ≠ 0 → ∀ b', s.key b' = s.key b → b' = b
  read : ∀ r ∈ s.held, r.dev ≠ 0 → s.queues.bUptodate r.bh = true → s.lost (r.dev, r.block) = false →
    s.bData r.bh = s.written (r.dev, r.block)
  synced : (∀ b, s.queues.bDirt b = false ∧ s.request b ≠ some .WRITE) → ∀ k, s.lost k = false → s.disk k = s.written k

/--
No call panics: there is always a buffer to look at, and one that is given back has been counted.
-/
theorem returns_of_reaches {disk : Key → D} {bData : Buf n → D}
    (h : Run.Reaches step (fun s _ => s.Few) (boot disk bData) s) (hfew : s.Few)
    : (∀ dev block, ∃ s', s.step (.getblk dev block) = some s') ∧ (∀ r ∈ s.held, ∃ s', s.step (.brelse r) = some s')
        ∧ ∀ f ∈ s.asleep, ∃ s', s.step (.resume f) = some s' := by
  have hinv := inv_of_reaches h
  refine ⟨fun dev block => ?_, fun r hr => ?_, fun f hf => ?_⟩
  . obtain ⟨s', hs, _⟩ := hinv.getblk hfew dev block
    exact ⟨s', hs⟩
  . obtain ⟨s', hs, _⟩ := hinv.brelse hfew hr
    exact ⟨s', hs⟩
  . obtain ⟨s', hs, _⟩ := hinv.resume hfew hf
    exact ⟨s', hs⟩

def busyRun : List (Action 1 Nat) :=
  [.getblk 0x301 5, .lock 0, .addRequest 0 .READ, .getblk 0x301 5, .getblk 0x301 6, .getblk 0x301 7]

theorem returns_busyRun
    : ∃ s : State 1 Nat, s.held = [⟨1, 0x301, 6⟩, ⟨0, 0x301, 5⟩]
        ∧ s.asleep = [.full 0x301 7, .hashed true ⟨0, 0x301, 5⟩]
        ∧ (∀ dev block, ∃ s', s.step (.getblk dev block) = some s') ∧ (∀ r ∈ s.held, ∃ s', s.step (.brelse r) = some s')
        ∧ ∀ f ∈ s.asleep, ∃ s', s.step (.resume f) = some s' := by
  have hok : Run.AllOk step (fun s _ => s.Few) (boot (fun _ => 0) fun _ => 0 : State 1 Nat) busyRun := by
    decide
  have hrun : (Run.exec step (boot (fun _ => 0) fun _ => 0 : State 1 Nat) busyRun).map
      (fun s => (s.held, s.asleep, decide s.Few))
        = some ([⟨1, 0x301, 6⟩, ⟨0, 0x301, 5⟩], [.full 0x301 7, .hashed true ⟨0, 0x301, 5⟩], true) := by
    decide
  obtain ⟨s, hexec, hs⟩ := Option.map_eq_some_iff.mp hrun
  obtain ⟨hheld, hrest⟩ := Prod.mk.inj hs
  obtain ⟨hasleep, hfew⟩ := Prod.mk.inj hrest
  exact ⟨s, hheld, hasleep, returns_of_reaches (Run.Reaches.of_exec hok hexec) (of_decide_eq_true hfew)⟩

end State
end SharedCache
end OS
