import ByDoing.OS.Directory
import ByDoing.OS.Minix.Inode

/-!
This module contains the three loops of `namei.c` over the entries of a directory: `find_entry`, `add_entry` and
`empty_dir`. A pointer to a buffer is null, or holds a buffer, or is left from a buffer that has been released;
what follows one that does not hold its buffer is a fault.
-/

namespace OS
namespace Minix

inductive Handle where
  | null
  | held (dev block : Nat)
  | released
  deriving Repr, DecidableEq

structure EntryPtr where
  dev : Nat
  block : Nat
  k : Nat
  deriving Repr, DecidableEq

def EntryPtr.handle (p : EntryPtr) : Handle :=
  .held p.dev p.block

def entryByte (data : Block) (k j : Nat) : UInt8 :=
  UInt8.ofNat (data (8 * k + 1 + j / 2) / 256 ^ (j % 2))

-- Entry `k` of a block: its number and 14 bytes in 8 shorts.
def dirEntry (data : Block) (k : Nat) : DirEntry where
  inode := data (8 * k)
  name := (List.range NAME_LEN).map (entryByte data k)
  length_name := by simp

section Code

def Handle.deref (bh : Handle) : Call Slot (Nat × Nat) :=
  match bh with
  | .held dev block => return (dev, block)
  | .null => Machine.stop .fault
  | .released => Machine.stop .fault

-- `brelse` ignores a null pointer.
def Handle.release (bh : Handle) : Call Slot Unit :=
  match bh with
  | .null => return
  | .held dev block => brelse dev block
  | .released => Machine.stop .fault

def EntryPtr.read (p : EntryPtr) : Call Slot DirEntry :=
  return dirEntry (← bData p.dev p.block) p.k

/--
What `find_entry` does about `..`, before it looks at a buffer: the directory and the length of the name that it
goes on with.
-/
def dotdot (current : Task) (dir : Slot) (name : List UInt8) (namelen : Nat) : Call Slot (Slot × Nat) := do
  if namelen = 2 ∧ name = [46, 46] then
    if current.root = some dir then return (dir, 1)
    let m := (← get).inode dir
    if m.iNum = ROOT_INO then
      match getSuper (← get) m.iDev with
      | none => Machine.stop .fault
      | some sb =>
        match sb.sImount with
        | none => return (dir, namelen)
        | some mount =>
          iput dir
          modify fun s => s.setInode mount fun m => { m with iCount := m.iCount + 1 }
          return (mount, namelen)
    return (dir, namelen)
  return (dir, namelen)

-- The head of the loop of `find_entry`: the entry to look at, in the next block behind the last one of a block.
def findNext (dir : Slot) (i : Nat) (bh : Handle) (k : Nat) : Call Slot (Option EntryPtr) := do
  let p ← bh.deref
  if k < DIR_ENTRIES_PER_BLOCK then return some ⟨p.fst, p.snd, k⟩
  bh.release
  let block ← bmap dir (i / DIR_ENTRIES_PER_BLOCK : Nat)
  if block = 0 then return none
  let dev := ((← get).inode dir).iDev
  if ← bread dev block then return some ⟨dev, block, 0⟩
  return none

def findLoop (dir : Slot) (name : List UInt8) (namelen entries : Nat)
    : Nat → Nat → Handle → Nat → Call Slot (Option EntryPtr)
  | 0, _, bh, _ => do
    bh.release
    return none
  | n + 1, i, bh, k => do
    if i < entries then
      match ← findNext dir i bh k with
      | none => findLoop dir name namelen entries n (i + DIR_ENTRIES_PER_BLOCK) .null k
      | some p =>
        if DirEntry.matchName namelen name (← p.read) then return some p
        findLoop dir name namelen entries n (i + 1) p.handle (p.k + 1)
    else
      bh.release
      return none

-- What follows the `..` of `find_entry`; `entries` are those of the directory that it was called for.
def findScan (dir : Slot) (name : List UInt8) (namelen entries : Nat) : Call Slot (Option EntryPtr) := do
  let m := (← get).inode dir
  if m.iZone 0 = 0 then return none
  if ← bread m.iDev (m.iZone 0) then
    findLoop dir name namelen entries entries 0 (.held m.iDev (m.iZone 0)) 0
  else
    return none

-- The directory is returned with the entry, as `find_entry` may have exchanged it.
def findEntry (current : Task) (dir : Slot) (name : List UInt8) : Call Slot (Slot × Option EntryPtr) := do
  let namelen := min name.length NAME_LEN
  let entries := ((← get).inode dir).iSize / 16
  if namelen = 0 then return (dir, none)
  let (dir, namelen) ← dotdot current dir name namelen
  return (dir, ← findScan dir name namelen entries)

/--
What the head of the loop of `add_entry` leads to: an entry, the end without one, or the next round with a null
pointer.
-/
inductive AddNext where
  | entry (p : EntryPtr)
  | full
  | unread

def addNext (dir : Slot) (i : Nat) (bh : Handle) (k : Nat) : Call Slot AddNext := do
  let p ← bh.deref
  if k < DIR_ENTRIES_PER_BLOCK then return .entry ⟨p.fst, p.snd, k⟩
  bh.release
  let block ← createBlock dir (i / DIR_ENTRIES_PER_BLOCK : Nat)
  if block = 0 then return .full
  let dev := ((← get).inode dir).iDev
  if ← bread dev block then return .entry ⟨dev, block, 0⟩
  return .unread

-- The two bytes of a name that are the short `t` of an entry.
def nameShort (name : List UInt8) (namelen t : Nat) : Nat :=
  let byte j := if j < namelen then (name.getD j 0).toNat else 0
  byte (2 * t) + 256 * byte (2 * t + 1)

def addLoop (dir : Slot) (name : List UInt8) (namelen : Nat)
    : Nat → Nat → Handle → Nat → Call Slot (Option EntryPtr)
  | 0, _, _, _ => Machine.stop .fault
  | n + 1, i, bh, k => do
    match ← addNext dir i bh k with
    | .full => return none
    | .unread => addLoop dir name namelen n (i + DIR_ENTRIES_PER_BLOCK) .null k
    | .entry p =>
      if i * 16 ≥ ((← get).inode dir).iSize then
        store p.dev p.block (8 * p.k) 0
        modify fun s => s.setInode dir fun m =>
          { m with iSize := (i + 1) * 16, iDirt := true, iCtime := s.CURRENT_TIME }
      if (← p.read).inode = 0 then
        modify fun s => s.setInode dir fun m => { m with iMtime := s.CURRENT_TIME }
        forM (List.range 7) fun t => store p.dev p.block (8 * p.k + 1 + t) (nameShort name namelen t)
        return some p
      addLoop dir name namelen n (i + 1) p.handle (p.k + 1)

def addEntry (dir : Slot) (name : List UInt8) : Call Slot (Option EntryPtr) := do
  let namelen := min name.length NAME_LEN
  if namelen = 0 then return none
  let m := (← get).inode dir
  if m.iZone 0 = 0 then return none
  if ← bread m.iDev (m.iZone 0) then
    addLoop dir name namelen (m.iSize / 16 + 2) 0 (.held m.iDev (m.iZone 0)) 0
  else
    return none

inductive EmptyNext where
  | entry (p : EntryPtr)
  | hole
  | unread

def emptyNext (inode : Slot) (nr : Nat) (bh : Handle) (k : Nat) : Call Slot EmptyNext := do
  let p ← bh.deref
  if k < DIR_ENTRIES_PER_BLOCK then return .entry ⟨p.fst, p.snd, k⟩
  bh.release
  let block ← bmap inode (nr / DIR_ENTRIES_PER_BLOCK : Nat)
  if block = 0 then return .hole
  let dev := ((← get).inode inode).iDev
  if ← bread dev block then return .entry ⟨dev, block, 0⟩
  return .unread

def emptyLoop (inode : Slot) (len : Nat) : Nat → Nat → Handle → Nat → Call Slot Bool
  | 0, _, bh, _ => do
    bh.release
    return true
  | n + 1, nr, bh, k => do
    if nr < len then
      match ← emptyNext inode nr bh k with
      | .hole => emptyLoop inode len n (nr + DIR_ENTRIES_PER_BLOCK) .released k
      | .unread => return false
      | .entry p =>
        if (← p.read).inode ≠ 0 then
          p.handle.release
          return false
        emptyLoop inode len n (nr + 1) p.handle (p.k + 1)
    else
      bh.release
      return true

-- `strcmp` with the first two names.
def dots (inode : Slot) (data : Block) (s : Fs Slot) : Bool :=
  (dirEntry data 0).inode = (s.inode inode).iNum && (dirEntry data 1).inode ≠ 0
    && (dirEntry data 0).text = [46] && (dirEntry data 1).text = [46, 46]

def emptyDir (inode : Slot) : Call Slot Bool := do
  let m := (← get).inode inode
  let len := m.iSize / 16
  if len < 2 ∨ m.iZone 0 = 0 then return false
  if ← bread m.iDev (m.iZone 0) then
    let data ← bData m.iDev (m.iZone 0)
    if dots inode data (← get) then
      emptyLoop inode len len 2 (.held m.iDev (m.iZone 0)) 2
    else
      -- The buffer stays held.
      return false
  else
    return false

end Code

section Calm

open Machine

structure Calm (s s' : Fs Slot) : Prop where
  inode : s'.inode = s.inode
  content : s'.content = s.content
  count : s'.count = s.count
  superBlock : s'.superBlock = s.superBlock

namespace Calm

variable {s s₁ s' : Fs Slot}

theorem refl (s : Fs Slot) : Calm s s :=
  ⟨rfl, rfl, rfl, rfl⟩

theorem trans (h : Calm s s₁) (h₁ : Calm s₁ s') : Calm s s' where
  inode := h₁.inode.trans h.inode
  content := h₁.content.trans h.content
  count := h₁.count.trans h.count
  superBlock := h₁.superBlock.trans h.superBlock

theorem forest (h : Calm s s') : forest s' = forest s := by
  unfold Minix.forest
  rw [h.inode, h.content]

end Calm

theorem Read.content_put {s : Fs Slot} {dev block : Nat} {b : Bool} {bh bh' : BufferHead} (h : Read s dev block b bh)
    (huptodate : bh'.bUptodate = bh.bUptodate) (hdata : bh'.bData = bh.bData)
    : (s.put dev block bh').content = s.content := by
  cases b with
  | true => exact content_put_of_eq h.content (huptodate.trans h.uptodate) hdata
  | false =>
    have hdisk : s.disk dev block = none := by
      have hcontent := h.content
      unfold Fs.content at hcontent
      split at hcontent
      . split at hcontent
        . cases hcontent
        . exact hcontent
      . exact hcontent
    funext d z
    rw [Minix.content_put]
    split
    . next heq => rw [huptodate, h.uptodate, heq.left, heq.right, h.content, if_neg (by simp), if_neg (by simp), hdisk]
    . rfl

theorem Read.calm_false {s : Fs Slot} {dev block : Nat} {bh : BufferHead} (h : Read s dev block false bh)
    : Calm s (s.put dev block bh) where
  inode := rfl
  content := h.content_put rfl rfl
  count := count_put_self h.count
  superBlock := rfl

theorem Read.calm_release {s : Fs Slot} {dev block : Nat} {bh : BufferHead} (h : Read s dev block true bh)
    : Calm s (s.put dev block { bh with bCount := bh.bCount - 1 }) where
  inode := rfl
  content := h.content_put rfl rfl
  count := count_put_self (by rw [h.count]; rfl)
  superBlock := rfl

theorem Read.release_ensures {s : Fs Slot} {dev block : Nat} {bh : BufferHead} {Q : Unit → Fs Slot → Prop}
    {E : Stop → Prop} (h : Read s dev block true bh)
    (hQ : ∀ s', Calm s s' → Q () s')
    : Ensures (brelse dev block) (s.put dev block bh) Q E := by
  have hpos : 0 < bh.bCount := by
    rw [h.count]
    exact Nat.succ_pos _
  apply Ensures.of_eq_ok (brelse_eq (cache_put_self s dev block bh) hpos)
  rw [put_put]
  exact hQ _ h.calm_release

theorem indexEntry_calm {E : Stop → Prop} (s : Fs Slot) (dev block k : Nat)
    : Ensures (indexEntry dev block k false) s (fun _ s' => Calm s s') E := by
  unfold indexEntry
  apply Ensures.bind
  apply bread_ensures
  intro b bh hread
  cases b with
  | false =>
    rw [if_neg (by simp)]
    exact .pure hread.calm_false
  | true =>
    rw [if_pos rfl]
    apply Ensures.bind
    apply Ensures.of_eq_ok (bData_eq (cache_put_self s dev block bh))
    dsimp only
    rw [if_neg (by simp)]
    apply Ensures.bind
    apply hread.release_ensures
    intro s' hcalm
    exact .pure hcalm

def maxBlocks : Nat :=
  7 + 512 + 512 * 512

def fileZone (s : Fs Slot) (inode : Slot) (block : Nat) : Nat :=
  zoneOf ((forest s).ptr inode (pathOf block))

theorem bmap_ensures {s : Fs Slot} {inode : Slot} {block : Nat} {Q : Nat → Fs Slot → Prop} {E : Stop → Prop}
    (hQ : block < maxBlocks → ∀ s', Calm s s' → Q (fileZone s inode block) s')
    (hE : maxBlocks ≤ block → E (.panic "_bmap: block>big"))
    : Ensures (bmap inode (block : Nat)) s Q E := by
  by_cases hblock : block < maxBlocks
  . obtain ⟨s', hbmap⟩ := bmap_eq s inode hblock
    apply Ensures.of_eq_ok hbmap
    apply hQ hblock
    have hcalm : Ensures (bmap inode (block : Nat)) s (fun _ s' => Calm s s') fun _ => True := by
      unfold bmap _bmap
      rw [if_neg (by omega), if_neg (by unfold maxBlocks at hblock; omega)]
      simp only [Int.toNat_natCast]
      apply Ensures.ite
      . intro _
        apply Ensures.bind
        apply Ensures.of_eq_ok (createZone_eq s inode _)
        apply Ensures.bind
        apply Ensures.get
        exact .pure (.refl s)
      intro _
      apply Ensures.ite
      . intro _
        apply Ensures.bind
        apply Ensures.of_eq_ok (createZone_eq s inode _)
        apply Ensures.bind
        apply Ensures.get
        apply Ensures.ite
        . intro _
          exact .pure (.refl s)
        . intro _
          exact indexEntry_calm s _ _ _
      intro _
      apply Ensures.bind
      apply Ensures.of_eq_ok (createZone_eq s inode _)
      apply Ensures.bind
      apply Ensures.get
      apply Ensures.ite
      . intro _
        exact .pure (.refl s)
      intro _
      apply Ensures.bind
      apply (indexEntry_calm s _ _ _).imp
      intro i s₁ hcalm
      apply Ensures.ite
      . intro _
        exact .pure hcalm
      . intro _
        exact (indexEntry_calm s₁ _ _ _).imp fun _ _ hcalm₁ => hcalm.trans hcalm₁
    exact hcalm.ok hbmap
  . have hbig : bmap inode (block : Nat) s = .error (.panic "_bmap: block>big") := by
      unfold bmap _bmap
      rw [if_neg (by omega), if_pos (by unfold maxBlocks at hblock; omega)]
      rfl
    exact .of_eq_error hbig (hE (Nat.le_of_not_lt hblock))

end Calm

section Holding

open Machine

def blockData (s : Fs Slot) (dir : Slot) (block : Nat) : Option Block :=
  if block < maxBlocks ∧ fileZone s dir block ≠ 0 then
    s.content (s.inode dir).iDev (fileZone s dir block)
  else
    none

def entryAt (s : Fs Slot) (dir : Slot) (i : Nat) : Option DirEntry :=
  (blockData s dir (i / DIR_ENTRIES_PER_BLOCK)).map fun data => dirEntry data (i % DIR_ENTRIES_PER_BLOCK)

def entryPtr (s : Fs Slot) (dir : Slot) (i : Nat) : EntryPtr where
  dev := (s.inode dir).iDev
  block := fileZone s dir (i / DIR_ENTRIES_PER_BLOCK)
  k := i % DIR_ENTRIES_PER_BLOCK

-- The state is `s` but for a buffer with a block of the directory, which the loop holds.
structure Holds (s t : Fs Slot) (dir : Slot) (block : Nat) : Prop where
  exists_read : ∃ s₁ bh, Calm s s₁ ∧ Read s₁ (s.inode dir).iDev (fileZone s dir block) true bh
    ∧ blockData s dir block = some bh.bData ∧ t = s₁.put (s.inode dir).iDev (fileZone s dir block) bh

namespace Holds

variable {s t : Fs Slot} {dir : Slot} {block : Nat} {E : Stop → Prop}

theorem inode (h : Holds s t dir block) : t.inode = s.inode := by
  obtain ⟨s₁, bh, hcalm, _, _, rfl⟩ := h.exists_read
  exact hcalm.inode

theorem present (h : Holds s t dir block) : blockData s dir block ≠ none := by
  obtain ⟨_, _, _, _, hdata, _⟩ := h.exists_read
  simp [hdata]

theorem lt (h : Holds s t dir block) : block < maxBlocks := by
  by_contra hblock
  exact h.present (by simp [blockData, hblock])

theorem bData_ensures (h : Holds s t dir block) {Q : Block → Fs Slot → Prop}
    (hQ : ∀ data, blockData s dir block = some data → Q data t)
    : Ensures (bData (s.inode dir).iDev (fileZone s dir block)) t Q E := by
  obtain ⟨s₁, bh, _, _, hdata, rfl⟩ := h.exists_read
  exact .of_eq_ok (bData_eq (cache_put_self _ _ _ bh)) (hQ _ hdata)

theorem read_ensures {i : Nat} (h : Holds s t dir (i / DIR_ENTRIES_PER_BLOCK)) {Q : DirEntry → Fs Slot → Prop}
    (hQ : ∀ de, entryAt s dir i = some de → Q de t)
    : Ensures (entryPtr s dir i).read t Q E := by
  apply Ensures.bind
  apply h.bData_ensures
  intro data hdata
  apply Ensures.pure
  apply hQ
  rw [entryAt, hdata]
  rfl

theorem release_ensures (h : Holds s t dir block) {Q : Unit → Fs Slot → Prop} (hQ : ∀ s', Calm s s' → Q () s')
    : Ensures (Handle.held (s.inode dir).iDev (fileZone s dir block)).release t Q E := by
  obtain ⟨s₁, bh, hcalm, hread, _, rfl⟩ := h.exists_read
  apply hread.release_ensures
  intro s' hcalm'
  exact hQ s' (hcalm.trans hcalm')

end Holds

theorem bread_block_ensures {s s₁ : Fs Slot} {dir : Slot} {block : Nat} {Q : Bool → Fs Slot → Prop} {E : Stop → Prop}
    (hcalm : Calm s s₁) (hblock : block < maxBlocks) (hzone : fileZone s dir block ≠ 0)
    (htrue : ∀ t, Holds s t dir block → Q true t)
    (hfalse : ∀ t, Calm s t → blockData s dir block = none → Q false t)
    : Ensures (bread (s.inode dir).iDev (fileZone s dir block)) s₁ Q E := by
  apply bread_ensures
  intro b bh hread
  have hcontent := hread.content
  rw [hcalm.content] at hcontent
  cases b with
  | true =>
    apply htrue
    refine ⟨s₁, bh, hcalm, hread, ?_, rfl⟩
    rw [blockData, if_pos ⟨hblock, hzone⟩, hcontent]
    rfl
  | false =>
    apply hfalse
    . exact hcalm.trans hread.calm_false
    . rw [blockData, if_pos ⟨hblock, hzone⟩, hcontent]
      rfl

theorem blockData_eq_none_of_zone {s : Fs Slot} {dir : Slot} {block : Nat} (h : fileZone s dir block = 0)
    : blockData s dir block = none := by
  rw [blockData, if_neg (by simp [h])]

theorem fileZone_zero (s : Fs Slot) (dir : Slot) : fileZone s dir 0 = (s.inode dir).iZone 0 := by
  unfold fileZone
  rw [pathOf_direct (by decide)]
  by_cases hzero : (s.inode dir).iZone 0 = 0
  . rw [ptr_zone_none hzero, hzero]
    rfl
  . rw [ptr_zone hzero]
    rfl

theorem zero_lt_maxBlocks : 0 < maxBlocks := by
  decide

def At (block i k : Nat) : Prop :=
  (k < DIR_ENTRIES_PER_BLOCK ∧ i = DIR_ENTRIES_PER_BLOCK * block + k)
    ∨ (k = DIR_ENTRIES_PER_BLOCK ∧ i = DIR_ENTRIES_PER_BLOCK * (block + 1))

theorem at_next (i : Nat)
    : At (i / DIR_ENTRIES_PER_BLOCK) (i + 1) (i % DIR_ENTRIES_PER_BLOCK + 1) := by
  unfold At DIR_ENTRIES_PER_BLOCK at *
  omega

theorem At.block_le {block i k : Nat} (h : At block i k) : i / DIR_ENTRIES_PER_BLOCK ≤ block + 1 := by
  unfold At DIR_ENTRIES_PER_BLOCK at *
  omega

theorem emptyNext_ensures {s t : Fs Slot} {dir : Slot} {block i k : Nat} {Q : EmptyNext → Fs Slot → Prop}
    {E : Stop → Prop} (hholds : Holds s t dir block) (hat : At block i k)
    (hentry : ∀ t', Holds s t' dir (i / DIR_ENTRIES_PER_BLOCK) → Q (.entry (entryPtr s dir i)) t')
    (hhole : i = DIR_ENTRIES_PER_BLOCK * (block + 1) → block + 1 < maxBlocks → fileZone s dir (block + 1) = 0 →
      ∀ t', Calm s t' → Q .hole t')
    (hunread : i = DIR_ENTRIES_PER_BLOCK * (block + 1) → block + 1 < maxBlocks → fileZone s dir (block + 1) ≠ 0 →
      blockData s dir (block + 1) = none → ∀ t', Calm s t' → Q .unread t')
    (hbig : i = DIR_ENTRIES_PER_BLOCK * (block + 1) → maxBlocks ≤ block + 1 → E (.panic "_bmap: block>big"))
    : Ensures (emptyNext dir i (.held (s.inode dir).iDev (fileZone s dir block)) k) t Q E := by
  unfold emptyNext
  apply Ensures.bind
  apply Ensures.pure
  dsimp only
  obtain ⟨hk, hi⟩ | ⟨hk, hi⟩ := hat
  . rw [if_pos hk]
    apply Ensures.pure
    have hdiv : i / DIR_ENTRIES_PER_BLOCK = block := by
      unfold DIR_ENTRIES_PER_BLOCK at *
      omega
    have hmod : i % DIR_ENTRIES_PER_BLOCK = k := by
      unfold DIR_ENTRIES_PER_BLOCK at *
      omega
    have hptr : entryPtr s dir i = ⟨(s.inode dir).iDev, fileZone s dir block, k⟩ := by
      rw [entryPtr, hdiv, hmod]
    rw [← hptr]
    exact hentry t (hdiv ▸ hholds)
  . have hdiv : i / DIR_ENTRIES_PER_BLOCK = block + 1 := by
      unfold DIR_ENTRIES_PER_BLOCK at *
      omega
    have hptr : entryPtr s dir i = ⟨(s.inode dir).iDev, fileZone s dir (block + 1), 0⟩ := by
      have hmod : i % DIR_ENTRIES_PER_BLOCK = 0 := by
        unfold DIR_ENTRIES_PER_BLOCK at *
        omega
      rw [entryPtr, hdiv, hmod]
    rw [if_neg (by omega)]
    apply Ensures.bind
    apply hholds.release_ensures
    intro s₁ hcalm
    apply Ensures.bind
    rw [hdiv]
    apply bmap_ensures
    . intro hlt s₂ hcalm₂
      rw [fileZone, hcalm.forest, ← fileZone]
      have hcalm' := hcalm.trans hcalm₂
      apply Ensures.ite
      . intro hzone
        exact .pure (hhole hi hlt hzone s₂ hcalm')
      intro hzone
      apply Ensures.bind
      apply Ensures.get
      rw [hcalm'.inode]
      apply Ensures.bind
      apply bread_block_ensures hcalm' hlt hzone
      . intro t' hholds'
        rw [if_pos rfl, ← hptr]
        exact .pure (hentry t' (hdiv ▸ hholds'))
      . intro t' hcalm'' hdata
        exact .pure (hunread hi hlt hzone hdata t' hcalm'')
    . exact hbig hi

end Holding

end Minix
end OS
