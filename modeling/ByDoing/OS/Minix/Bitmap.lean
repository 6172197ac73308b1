import Mathlib.Data.List.Range
import ByDoing.Lib.BitWords
import ByDoing.OS.Minix.Buffer

namespace OS
namespace Minix

namespace Bitmap

def bit (m : Bitmap) (nr : Nat) : Bool :=
  BitWords.bit m.bData nr

def findFirstZero (m : Bitmap) : Nat :=
  BitWords.scan m.bData 256 0

-- The map with the bit set, and `b_dirt` as the callers set it.
def setBit (m : Bitmap) (nr : Nat) : Bitmap :=
  { bData := BitWords.set m.bData nr, bDirt := true }

def clearBit (m : Bitmap) (nr : Nat) : Bitmap :=
  { bData := BitWords.clear m.bData nr, bDirt := true }

@[simp]
theorem bit_setBit (m : Bitmap) (nr nr' : Nat) : (m.setBit nr).bit nr' = (decide (nr' = nr) || m.bit nr') :=
  BitWords.bit_set (by decide) _ _ _

@[simp]
theorem bit_clearBit (m : Bitmap) (nr nr' : Nat)
    : (m.clearBit nr).bit nr' = (!decide (nr' = nr) && m.bit nr') :=
  BitWords.bit_clear (by decide) _ _ _

theorem bit_findFirstZero {m : Bitmap} (h : m.findFirstZero < 8192) : m.bit m.findFirstZero = false :=
  @BitWords.bit_scan 32 m.bData 256 0 h

theorem bit_of_lt_findFirstZero {m : Bitmap} {nr : Nat} (h : nr < m.findFirstZero) : m.bit nr = true :=
  BitWords.bit_of_lt_scan (Nat.zero_le nr) h

end Bitmap

def mapBit (maps : Nat → Option Bitmap) (n : Nat) : Bool :=
  match maps (n / 8192) with
  | some m => m.bit (n % 8192)
  | none => false

def firstClear (maps : Nat → Option Bitmap) : Option (Nat × Nat) :=
  (List.range 8).findSome? fun i =>
    match maps i with
    | some m => if m.findFirstZero < 8192 then some (i, m.findFirstZero) else none
    | none => none

theorem firstClear_spec {maps : Nat → Option Bitmap} {i j : Nat} (h : firstClear maps = some (i, j))
    : i < 8 ∧ j < 8192 ∧ ∃ m, maps i = some m ∧ m.bit j = false := by
  unfold firstClear at h
  obtain ⟨k, hk, hfound⟩ := List.exists_of_findSome?_eq_some h
  rw [List.mem_range] at hk
  cases hmap : maps k with
  | none => simp [hmap] at hfound
  | some m =>
    simp only [hmap, Option.ite_none_right_eq_some, Option.some.injEq, Prod.mk.injEq] at hfound
    obtain ⟨hlt, rfl, rfl⟩ := hfound
    exact ⟨hk, hlt, m, hmap, m.bit_findFirstZero hlt⟩

theorem mapBit_firstClear {maps : Nat → Option Bitmap} {i j : Nat} (h : firstClear maps = some (i, j))
    : mapBit maps (j + i * 8192) = false := by
  obtain ⟨_, hj, m, hmap, hbit⟩ := firstClear_spec h
  unfold mapBit
  rw [show (j + i * 8192) / 8192 = i by omega, show (j + i * 8192) % 8192 = j by omega, hmap]
  exact hbit

theorem mapBit_update {maps : Nat → Option Bitmap} {i j : Nat} {m m' : Bitmap} (hmap : maps i = some m)
    (hj : j < 8192) (hbit : ∀ nr, nr ≠ j → m'.bit nr = m.bit nr) (n : Nat)
    : mapBit (Function.update maps i (some m')) n = if n = j + i * 8192 then m'.bit j else mapBit maps n := by
  unfold mapBit
  by_cases hi : n / 8192 = i
  . subst hi
    rw [Function.update_self, hmap]
    dsimp only
    split
    . next hn => rw [show n % 8192 = j by omega]
    . exact hbit _ (by omega)
  . rw [Function.update_of_ne hi, if_neg (by omega)]

namespace Fs

variable {ι : Type}

def setZmap (s : Fs ι) (dev i : Nat) (m : Bitmap) : Fs ι :=
  { s with superBlock := fun dev' =>
      if dev' = dev then
        (s.superBlock dev).map fun sb => { sb with sZmap := Function.update sb.sZmap i (some m) }
      else
        s.superBlock dev' }

end Fs

section Zones

variable {ι : Type}

def newBlock (dev : Nat) : Call ι Nat := do
  match getSuper (← get) dev with
  | none => panic "trying to get new block from nonexistant device"
  | some sb =>
    match firstClear sb.sZmap with
    | none => return 0
    | some (i, j) =>
      match sb.sZmap i with
      | none => Machine.stop .fault
      | some m =>
        if m.bit j then panic "new_block: bit already set"
        modify fun s => s.setZmap dev i (m.setBit j)
        let j := j + i * 8192 + sb.sFirstdatazone - 1
        if j ≥ sb.sNzones then return 0
        let bh ← getblk dev j
        if bh.bCount ≠ 1 then panic "new block: count is != 1"
        modify fun s => s.put dev j { bh with bData := fun _ => 0, bUptodate := true, bDirt := true }
        brelse dev j
        return j

-- The second half of `free_block`, on the number of the bit.
def freeBlockBit (dev block : Nat) (sb : SuperBlock ι) : Call ι Unit := do
  let n := block + 1 - sb.sFirstdatazone
  match sb.sZmap (n / 8192) with
  | none => Machine.stop .fault
  | some m =>
    if !m.bit (n % 8192) then panic "free_block: bit already cleared"
    modify fun s => { s.setZmap dev (n / 8192) (m.clearBit (n % 8192)) with cleared := (dev, block) :: s.cleared }

def freeBlock (dev block : Nat) : Call ι Unit := do
  match getSuper (← get) dev with
  | none => panic "trying to free block on nonexistent device"
  | some sb =>
    if block < sb.sFirstdatazone ∨ block ≥ sb.sNzones then panic "trying to free block not in datazone"
    match ← getHashTable dev block with
    | none => freeBlockBit dev block sb
    | some bh =>
      -- `printk` says that the block is in use, and the bit stays.
      if bh.bCount ≠ 1 then return
      modify fun s => s.put dev block { bh with bDirt := false, bUptodate := false }
      brelse dev block
      freeBlockBit dev block sb

@[simp]
theorem superBlock_put (s : Fs ι) (dev block : Nat) (bh : BufferHead)
    : (s.put dev block bh).superBlock = s.superBlock :=
  rfl

@[simp]
theorem cache_setZmap (s : Fs ι) (dev i : Nat) (m : Bitmap) : (s.setZmap dev i m).cache = s.cache :=
  rfl

@[simp]
theorem count_setZmap (s : Fs ι) (dev i : Nat) (m : Bitmap) : (s.setZmap dev i m).count = s.count :=
  rfl

-- What `new_block` leaves in the buffer of the block that it returns.
def zeroed : BufferHead where
  bCount := 0
  bDirt := true
  bUptodate := true
  bData := fun _ => 0

theorem newBlock_cases {s s' : Fs ι} {dev r : Nat} (h : newBlock dev s = .ok (r, s'))
    : ∃ sb, getSuper s dev = some sb
        ∧ ((firstClear sb.sZmap = none ∧ r = 0 ∧ s' = s)
          ∨ ∃ i j m, firstClear sb.sZmap = some (i, j) ∧ sb.sZmap i = some m ∧ m.bit j = false
            ∧ ((sb.sNzones ≤ j + i * 8192 + sb.sFirstdatazone - 1 ∧ r = 0
                ∧ s' = s.setZmap dev i (m.setBit j))
              ∨ (r < sb.sNzones ∧ r = j + i * 8192 + sb.sFirstdatazone - 1 ∧ s.count dev r = 0
                ∧ s' = (s.setZmap dev i (m.setBit j)).put dev r zeroed))) := by
  unfold newBlock at h
  rw [Machine.bind_of_eq_ok Machine.get_eq] at h
  cases hsuper : getSuper s dev with
  | none =>
    rw [hsuper] at h
    exact absurd h Machine.stop_ne_ok
  | some sb =>
    rw [hsuper] at h
    refine ⟨sb, rfl, ?_⟩
    cases hfirst : firstClear sb.sZmap with
    | none =>
      simp only [hfirst, Machine.pure_eq_ok_iff] at h
      exact .inl ⟨rfl, h.left.symm, h.right.symm⟩
    | some p =>
      obtain ⟨i, j⟩ := p
      obtain ⟨_, _, m, hmap, hbit⟩ := firstClear_spec hfirst
      refine .inr ⟨i, j, m, rfl, hmap, hbit, ?_⟩
      simp only [hfirst, hmap, hbit, Bool.false_eq_true, if_false] at h
      rw [Machine.bind_of_eq_ok Machine.modify_eq] at h
      split at h
      . next hge =>
        rw [Machine.pure_eq_ok_iff] at h
        exact .inl ⟨hge, h.left.symm, h.right.symm⟩
      . next hlt =>
        rw [Machine.bind_of_eq_ok (getblk_eq _ _ _), bCount_got, count_setZmap] at h
        split at h
        . exact absurd h (by simp [panic, Machine.bind_eq_ok_iff])
        . next hcount =>
          rw [Machine.bind_of_eq_ok Machine.modify_eq, put_put,
            Machine.bind_of_eq_ok (brelse_eq (cache_put_self _ _ _ _) (by simp)), put_put,
            Machine.pure_eq_ok_iff] at h
          obtain ⟨rfl, rfl⟩ := h
          have hzero : s.count dev (j + i * 8192 + sb.sFirstdatazone - 1) = 0 := by omega
          refine .inr ⟨by omega, rfl, hzero, ?_⟩
          congr 1
          simp [zeroed, hzero]

def discard (s : Fs ι) (dev block : Nat) : Fs ι :=
  match s.cache dev block with
  | some bh => s.put dev block { bh with bDirt := false, bUptodate := false }
  | none => s

@[simp]
theorem superBlock_discard (s : Fs ι) (dev block : Nat) : (discard s dev block).superBlock = s.superBlock := by
  unfold discard
  cases s.cache dev block with
  | none | some => rfl

@[simp]
theorem inode_discard (s : Fs ι) (dev block : Nat) : (discard s dev block).inode = s.inode := by
  unfold discard
  cases s.cache dev block with
  | none | some => rfl

@[simp]
theorem disk_discard (s : Fs ι) (dev block : Nat) : (discard s dev block).disk = s.disk := by
  unfold discard
  cases s.cache dev block with
  | none | some => rfl

@[simp]
theorem time_discard (s : Fs ι) (dev block : Nat) : (discard s dev block).CURRENT_TIME = s.CURRENT_TIME := by
  unfold discard
  cases s.cache dev block with
  | none | some => rfl

theorem cache_discard_of_ne (s : Fs ι) {dev block d z : Nat} (h : ¬ (d = dev ∧ z = block))
    : (discard s dev block).cache d z = s.cache d z := by
  unfold discard
  cases s.cache dev block with
  | none => rfl
  | some bh => rw [cache_put, if_neg h]

@[simp]
theorem log_discard (s : Fs ι) (dev block : Nat) : (discard s dev block).cleared = s.cleared := by
  unfold discard
  cases s.cache dev block with
  | none | some => rfl

@[simp]
theorem count_discard (s : Fs ι) (dev block : Nat) : (discard s dev block).count = s.count := by
  unfold discard
  cases hcache : s.cache dev block with
  | none => rfl
  | some bh =>
    funext dev' block'
    rw [count_put]
    split
    . next h => rw [h.left, h.right, Fs.count, hcache]
    . rfl

def freed (s : Fs ι) (dev block n : Nat) (m : Bitmap) : Fs ι :=
  { (discard s dev block).setZmap dev (n / 8192) (m.clearBit (n % 8192)) with
    cleared := (dev, block) :: s.cleared }

theorem freeBlockBit_eq {s : Fs ι} {dev block : Nat} {sb : SuperBlock ι} {m : Bitmap}
    (hmap : sb.sZmap ((block + 1 - sb.sFirstdatazone) / 8192) = some m)
    (hbit : m.bit ((block + 1 - sb.sFirstdatazone) % 8192) = true)
    : freeBlockBit dev block sb s
        = .ok ((), { s.setZmap dev ((block + 1 - sb.sFirstdatazone) / 8192)
            (m.clearBit ((block + 1 - sb.sFirstdatazone) % 8192)) with
              cleared := (dev, block) :: s.cleared }) := by
  unfold freeBlockBit
  simp only [hmap, hbit, Bool.not_true, Bool.false_eq_true, if_false]
  rw [Machine.modify_eq]

theorem freeBlockBit_cases {s s' : Fs ι} {dev block : Nat} {sb : SuperBlock ι} {u : Unit}
    (h : freeBlockBit dev block sb s = .ok (u, s'))
    : ∃ m, sb.sZmap ((block + 1 - sb.sFirstdatazone) / 8192) = some m
        ∧ m.bit ((block + 1 - sb.sFirstdatazone) % 8192) = true := by
  unfold freeBlockBit at h
  cases hmap : sb.sZmap ((block + 1 - sb.sFirstdatazone) / 8192) with
  | none => exact absurd h (by simp [hmap])
  | some m =>
    cases hbit : m.bit ((block + 1 - sb.sFirstdatazone) % 8192) with
    | true => exact ⟨m, rfl, hbit⟩
    | false =>
      simp only [hmap, hbit] at h
      exact absurd h (by simp [panic, Machine.bind_eq_ok_iff])

theorem freeBlock_eq {s : Fs ι} {dev block : Nat} {sb : SuperBlock ι} {m : Bitmap}
    (hsuper : getSuper s dev = some sb) (hzone : sb.sFirstdatazone ≤ block ∧ block < sb.sNzones)
    (hcount : s.count dev block = 0)
    (hmap : sb.sZmap ((block + 1 - sb.sFirstdatazone) / 8192) = some m)
    (hbit : m.bit ((block + 1 - sb.sFirstdatazone) % 8192) = true)
    : freeBlock dev block s = .ok ((), freed s dev block (block + 1 - sb.sFirstdatazone) m) := by
  have hrange : ¬ (block < sb.sFirstdatazone ∨ block ≥ sb.sNzones) := by omega
  unfold freeBlock freed discard
  rw [Machine.bind_of_eq_ok Machine.get_eq, hsuper]
  dsimp only
  rw [if_neg hrange]
  cases hcache : s.cache dev block with
  | none =>
    rw [Machine.bind_of_eq_ok (getHashTable_none hcache)]
    dsimp only
    rw [freeBlockBit_eq hmap hbit]
  | some bh =>
    have hzero : bh.bCount = 0 := by simpa [Fs.count, hcache] using hcount
    rw [Machine.bind_of_eq_ok (getHashTable_some hcache)]
    simp only [hzero, Nat.zero_add, ne_eq, not_true_eq_false, if_false]
    rw [Machine.bind_of_eq_ok Machine.modify_eq, put_put,
      Machine.bind_of_eq_ok (brelse_eq (cache_put_self _ _ _ _) (Nat.succ_pos _)), put_put,
      freeBlockBit_eq hmap hbit]
    rfl

theorem freeBlock_busy {s : Fs ι} {dev block : Nat} {sb : SuperBlock ι} {bh : BufferHead}
    (hsuper : getSuper s dev = some sb) (hzone : sb.sFirstdatazone ≤ block ∧ block < sb.sNzones)
    (hcache : s.cache dev block = some bh) (hcount : bh.bCount ≠ 0)
    : freeBlock dev block s = .ok ((), s.put dev block { bh with bCount := bh.bCount + 1 }) := by
  have hrange : ¬ (block < sb.sFirstdatazone ∨ block ≥ sb.sNzones) := by omega
  have hbusy : bh.bCount + 1 ≠ 1 := by omega
  unfold freeBlock
  rw [Machine.bind_of_eq_ok Machine.get_eq, hsuper]
  dsimp only
  rw [if_neg hrange, Machine.bind_of_eq_ok (getHashTable_some hcache)]
  dsimp only
  rw [if_pos hbusy]
  rfl

theorem freeBlock_cases {s s' : Fs ι} {dev block : Nat} {u : Unit} (h : freeBlock dev block s = .ok (u, s'))
    : ∃ sb, getSuper s dev = some sb ∧ sb.sFirstdatazone ≤ block ∧ block < sb.sNzones
        ∧ ((∃ bh, s.cache dev block = some bh ∧ bh.bCount ≠ 0
            ∧ s' = s.put dev block { bh with bCount := bh.bCount + 1 })
          ∨ (s.count dev block = 0 ∧ ∃ m, sb.sZmap ((block + 1 - sb.sFirstdatazone) / 8192) = some m
            ∧ m.bit ((block + 1 - sb.sFirstdatazone) % 8192) = true
            ∧ s' = freed s dev block (block + 1 - sb.sFirstdatazone) m)) := by
  have hcall := h
  unfold freeBlock at h
  rw [Machine.bind_of_eq_ok Machine.get_eq] at h
  cases hsuper : getSuper s dev with
  | none =>
    rw [hsuper] at h
    exact absurd h Machine.stop_ne_ok
  | some sb =>
    rw [hsuper] at h
    dsimp only at h
    split at h
    . exact absurd h (by simp [panic, Machine.bind_eq_ok_iff])
    . next hrange =>
      refine ⟨sb, rfl, by omega, by omega, ?_⟩
      have hclear : s.count dev block = 0 → ∀ m, sb.sZmap ((block + 1 - sb.sFirstdatazone) / 8192) = some m →
          m.bit ((block + 1 - sb.sFirstdatazone) % 8192) = true →
          s' = freed s dev block (block + 1 - sb.sFirstdatazone) m := by
        intro hcount m hmap hbit
        rw [freeBlock_eq hsuper (by omega) hcount hmap hbit] at hcall
        simp only [Except.ok.injEq, Prod.mk.injEq] at hcall
        exact hcall.right.symm
      cases hcache : s.cache dev block with
      | none =>
        rw [Machine.bind_of_eq_ok (getHashTable_none hcache)] at h
        obtain ⟨m, hmap, hbit⟩ := freeBlockBit_cases h
        have hcount : s.count dev block = 0 := by rw [Fs.count, hcache]
        exact .inr ⟨hcount, m, hmap, hbit, hclear hcount m hmap hbit⟩
      | some bh =>
        rw [Machine.bind_of_eq_ok (getHashTable_some hcache)] at h
        dsimp only at h
        split at h
        . next hbusy =>
          rw [Machine.pure_eq_ok_iff] at h
          exact .inl ⟨bh, rfl, by omega, h.right.symm⟩
        . next hidle =>
          have hcount : s.count dev block = 0 := by
            simp only [Fs.count, hcache]
            omega
          rw [Machine.bind_of_eq_ok Machine.modify_eq, put_put,
            Machine.bind_of_eq_ok (brelse_eq (cache_put_self _ _ _ _) (Nat.succ_pos _))] at h
          obtain ⟨m, hmap, hbit⟩ := freeBlockBit_cases h
          exact .inr ⟨hcount, m, hmap, hbit, hclear hcount m hmap hbit⟩

theorem newBlock_beyond {s : Fs ι} {dev i j : Nat} {sb : SuperBlock ι} {m : Bitmap}
    (hsuper : getSuper s dev = some sb) (hfirst : firstClear sb.sZmap = some (i, j))
    (hmap : sb.sZmap i = some m) (hbeyond : sb.sNzones ≤ j + i * 8192 + sb.sFirstdatazone - 1)
    : newBlock dev s = .ok (0, s.setZmap dev i (m.setBit j)) := by
  obtain ⟨_, _, m', hmap', hbit⟩ := firstClear_spec hfirst
  cases hmap.symm.trans hmap'
  unfold newBlock
  rw [Machine.bind_of_eq_ok Machine.get_eq, hsuper]
  simp only [hfirst, hmap, hbit, Bool.false_eq_true, if_false]
  rw [Machine.bind_of_eq_ok Machine.modify_eq, if_pos hbeyond]
  rfl

theorem newBlock_eq {s : Fs ι} {dev i j r : Nat} {sb : SuperBlock ι} {m : Bitmap}
    (hsuper : getSuper s dev = some sb) (hfirst : firstClear sb.sZmap = some (i, j))
    (hmap : sb.sZmap i = some m) (hr : r = j + i * 8192 + sb.sFirstdatazone - 1) (hzone : r < sb.sNzones)
    (hcount : s.count dev r = 0)
    : newBlock dev s = .ok (r, (s.setZmap dev i (m.setBit j)).put dev r zeroed) := by
  obtain ⟨_, _, m', hmap', hbit⟩ := firstClear_spec hfirst
  cases hmap.symm.trans hmap'
  subst hr
  have hgot : (got (s.setZmap dev i (m.setBit j)) dev (j + i * 8192 + sb.sFirstdatazone - 1)).bCount = 1 := by
    rw [bCount_got, count_setZmap, hcount]
  unfold newBlock
  rw [Machine.bind_of_eq_ok Machine.get_eq, hsuper]
  simp only [hfirst, hmap, hbit, Bool.false_eq_true, if_false]
  rw [Machine.bind_of_eq_ok Machine.modify_eq, if_neg (Nat.not_le.mpr hzone),
    Machine.bind_of_eq_ok (getblk_eq _ _ _), hgot]
  simp only [ne_eq, not_true_eq_false, if_false]
  rw [Machine.bind_of_eq_ok Machine.modify_eq, put_put,
    Machine.bind_of_eq_ok (brelse_eq (cache_put_self _ _ _ _) (by simp)), put_put, Machine.pure_eq]
  simp [zeroed]

end Zones

section GivingUp

variable {ι : Type}

inductive BitmapCall where
  | newBlock (dev : Nat)
  | freeBlock (dev block : Nat)

def Fs.flags (s : Fs ι) (dev block : Nat) : Option (Nat × Bool × Bool) :=
  (s.cache dev block).map fun bh => (bh.bCount, bh.bDirt, bh.bUptodate)

def Fs.SameFlags (s s' : Fs ι) : Prop :=
  s'.superBlock = s.superBlock ∧ s'.flags = s.flags

/--
A call that gives up, `new_block` because it returns 0 and `free_block` because the block is in use, has
changed nothing.
-/
def LeavesAlone (s : Fs ι) : BitmapCall → Prop
  | .newBlock dev => ∀ s', newBlock dev s = .ok (0, s') → s.SameFlags s'
  | .freeBlock dev block =>
    ∀ s', freeBlock dev block s = .ok ((), s') → s.count dev block ≠ 0 → s.SameFlags s'

def GivesUpLate (s : Fs ι) : BitmapCall → Prop
  | .newBlock dev =>
    ∃ sb i j, getSuper s dev = some sb ∧ firstClear sb.sZmap = some (i, j)
      ∧ (sb.sNzones ≤ j + i * 8192 + sb.sFirstdatazone - 1
        ∨ (j + i * 8192 + sb.sFirstdatazone - 1 = 0 ∧ s.count dev 0 = 0))
  | .freeBlock dev block =>
    ∃ sb, getSuper s dev = some sb ∧ sb.sFirstdatazone ≤ block ∧ block < sb.sNzones ∧ s.count dev block ≠ 0

theorem getSuper_eq {s : Fs ι} {dev : Nat} {sb : SuperBlock ι} (h : getSuper s dev = some sb)
    : s.superBlock dev = some sb := by
  unfold getSuper at h
  split at h
  . simp at h
  . exact h

theorem setZmap_ne {s : Fs ι} {dev i j : Nat} {sb : SuperBlock ι} {m : Bitmap}
    (hsuper : getSuper s dev = some sb) (hfirst : firstClear sb.sZmap = some (i, j))
    (hmap : sb.sZmap i = some m)
    : (s.setZmap dev i (m.setBit j)).superBlock ≠ s.superBlock := by
  obtain ⟨_, _, m', hmap', hbit⟩ := firstClear_spec hfirst
  cases hmap.symm.trans hmap'
  intro heq
  have hdev := congrFun heq dev
  simp only [Fs.setZmap, getSuper_eq hsuper, if_true, Option.map_some, Option.some.injEq] at hdev
  have hmaps := congrFun (congrArg SuperBlock.sZmap hdev) i
  simp only [Function.update_self, hmap, Option.some.injEq] at hmaps
  have hset := congrArg (fun m => m.bit j) hmaps
  simp [hbit] at hset

theorem leavesAlone_newBlock (s : Fs ι) (dev : Nat)
    : LeavesAlone s (.newBlock dev) ↔ ¬ GivesUpLate s (.newBlock dev) := by
  constructor
  . rintro h ⟨sb, i, j, hsuper, hfirst, hwhy⟩
    obtain ⟨_, _, m, hmap, _⟩ := firstClear_spec hfirst
    obtain hbeyond | ⟨hzero, hcount⟩ := hwhy
    . exact setZmap_ne hsuper hfirst hmap (h _ (newBlock_beyond hsuper hfirst hmap hbeyond)).left
    . by_cases hzone : 0 < sb.sNzones
      . exact setZmap_ne hsuper hfirst hmap
          (h _ (newBlock_eq hsuper hfirst hmap hzero.symm hzone hcount)).left
      . have hbeyond : sb.sNzones ≤ j + i * 8192 + sb.sFirstdatazone - 1 := by omega
        exact setZmap_ne hsuper hfirst hmap (h _ (newBlock_beyond hsuper hfirst hmap hbeyond)).left
  . intro h s' hcall
    obtain ⟨sb, hsuper, ⟨_, _, rfl⟩ | ⟨i, j, m, hfirst, hmap, _, ⟨hbeyond, _⟩ | ⟨_, hzero, hcount, _⟩⟩⟩ :=
      newBlock_cases hcall
    . exact ⟨rfl, rfl⟩
    . exact absurd ⟨sb, i, j, hsuper, hfirst, .inl hbeyond⟩ h
    . exact absurd ⟨sb, i, j, hsuper, hfirst, .inr ⟨hzero.symm, hcount⟩⟩ h

theorem exists_of_count_ne_zero {s : Fs ι} {dev block : Nat} (h : s.count dev block ≠ 0)
    : ∃ bh, s.cache dev block = some bh ∧ bh.bCount ≠ 0 := by
  unfold Fs.count at h
  cases hcache : s.cache dev block with
  | none => simp [hcache] at h
  | some bh =>
    rw [hcache] at h
    exact ⟨bh, rfl, h⟩

theorem leavesAlone_freeBlock (s : Fs ι) (dev block : Nat)
    : LeavesAlone s (.freeBlock dev block) ↔ ¬ GivesUpLate s (.freeBlock dev block) := by
  constructor
  . rintro h ⟨sb, hsuper, hfirst, hzones, hcount⟩
    obtain ⟨bh, hcache, hbusy⟩ := exists_of_count_ne_zero hcount
    have hsame := h _ (freeBlock_busy hsuper ⟨hfirst, hzones⟩ hcache hbusy) hcount
    have hflags := congrFun (congrFun hsame.right dev) block
    simp [Fs.flags, hcache] at hflags
  . intro h s' hcall hcount
    obtain ⟨sb, hsuper, hfirst, hzones, _⟩ := freeBlock_cases hcall
    exact absurd ⟨sb, hsuper, hfirst, hzones, hcount⟩ h

/--
A call that gives up leaves the bitmaps and the buffers as they were exactly if it does not give up late.
-/
theorem leavesAlone_iff (s : Fs ι) (call : BitmapCall) : LeavesAlone s call ↔ ¬ GivesUpLate s call := by
  cases call with
  | newBlock dev => exact leavesAlone_newBlock s dev
  | freeBlock dev block => exact leavesAlone_freeBlock s dev block

def oneZone : Fs Unit where
  superBlock := fun dev =>
    if dev = 1 then
      some {
        sNinodes := 1
        sNzones := 6
        sImapBlocks := 1
        sZmapBlocks := 1
        sFirstdatazone := 5
        sImap := fun _ => none
        sZmap := fun i => if i = 0 then some { bData := fun k => if k = 0 then 3 else 0, bDirt := false } else none
        sImount := none
      }
    else
      none
  cache := fun dev block =>
    if dev = 1 ∧ block = 5 then
      some { bCount := 1, bDirt := false, bUptodate := true, bData := fun _ => 0 }
    else
      none
  disk := fun _ _ => some fun _ => 0
  inode := fun _ =>
    { iMode := 0, iUid := 0, iSize := 0, iMtime := 0, iGid := 0, iNlinks := 0, iZone := fun _ => 0
      iAtime := 0, iCtime := 0, iDev := 0, iNum := 0, iCount := 0, iDirt := false, iPipe := false
      iMount := false }
  CURRENT_TIME := 0
  cleared := []

theorem not_leavesAlone_oneZone
    : ¬ LeavesAlone oneZone (.newBlock 1) ∧ ¬ LeavesAlone oneZone (.freeBlock 1 5) := by
  constructor
  . intro h
    exact (leavesAlone_newBlock oneZone 1).mp h ⟨_, 0, 2, rfl, by decide +kernel, .inl (by decide)⟩
  . intro h
    exact (leavesAlone_freeBlock oneZone 1 5).mp h ⟨_, rfl, by decide, by decide, by decide⟩

end GivingUp

end Minix
end OS
