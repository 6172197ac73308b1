import ByDoing.Lib.Overwrite
import ByDoing.OS.Minix.FileBlocks

namespace OS
namespace Minix

def BLOCK_SIZE : Nat := 1024

def byteOf (data : Block) (j : Nat) : UInt8 :=
  UInt8.ofNat (data (j / 2) / 256 ^ (j % 2))

def setByte (data : Block) (j : Nat) (c : UInt8) : Block :=
  Function.update data (j / 2)
    (if j % 2 = 0 then data (j / 2) / 256 * 256 + c.toNat else data (j / 2) % 256 + 256 * c.toNat)

def setBytes (data : Block) (j : Nat) : List UInt8 → Block
  | [] => data
  | c :: cs => setBytes (setByte data j c) (j + 1) cs

section Code

def setDirty (dev block : Nat) : Call Slot Unit :=
  fun s =>
    match s.cache dev block with
    | some bh => .ok ((), s.put dev block { bh with bDirt := true })
    | none => .error .fault

-- `while (c-->0) *(p++) = get_fs_byte(buf++);`, into a buffer that is held.
def getFsBytes (dev block j : Nat) (cs : List UInt8) : Call Slot Unit :=
  fun s =>
    match s.cache dev block with
    | some bh => .ok ((), s.put dev block { bh with bData := setBytes bh.bData j cs })
    | none => .error .fault

/--
The loop of `file_read`, which makes at most one round a byte: the new `f_pos`, `left`, and the bytes that go to the
user.
-/
def readLoop (inode : Slot) : Nat → Nat → Nat → Call Slot (Nat × Nat × List UInt8)
  | 0, fPos, left => return (fPos, left, [])
  | n + 1, fPos, left => do
    if left = 0 then return (fPos, left, [])
    let nr ← bmap inode (fPos / BLOCK_SIZE : Nat)
    let chars := min (BLOCK_SIZE - fPos % BLOCK_SIZE) left
    if nr ≠ 0 then
      let dev := ((← get).inode inode).iDev
      if ← bread dev nr then
        let data ← bData dev nr
        brelse dev nr
        let (fPos', left', bytes) ← readLoop inode n (fPos + chars) (left - chars)
        return (fPos', left', (List.range chars).map (fun j => byteOf data (fPos % BLOCK_SIZE + j)) ++ bytes)
      else
        return (fPos, left, [])
    else
      let (fPos', left', bytes) ← readLoop inode n (fPos + chars) (left - chars)
      return (fPos', left', List.replicate chars 0 ++ bytes)

-- `-ERROR` is returned if there is nothing to return.
def fileRead (inode : Slot) (fPos : Nat) (count : Int) : Call Slot (Int × Nat × List UInt8) := do
  if count ≤ 0 then return (0, fPos, [])
  let (fPos, left, bytes) ← readLoop inode count.toNat fPos count.toNat
  modify fun s => s.setInode inode fun m => { m with iAtime := s.CURRENT_TIME }
  return (if count - left ≠ 0 then count - left else -99, fPos, bytes)

-- The loop of `file_write`: the new `pos`, and what is left of the bytes from the user.
def writeLoop (inode : Slot) : Nat → Nat → List UInt8 → Call Slot (Nat × List UInt8)
  | 0, pos, buf => return (pos, buf)
  | n + 1, pos, buf => do
    if buf = [] then return (pos, buf)
    let block ← createBlock inode (pos / BLOCK_SIZE : Nat)
    if block = 0 then return (pos, buf)
    let dev := ((← get).inode inode).iDev
    if ← bread dev block then
      setDirty dev block
      let c := min (BLOCK_SIZE - pos % BLOCK_SIZE) buf.length
      modify fun s => s.setInode inode fun m =>
        if pos + c > m.iSize then { m with iSize := pos + c, iDirt := true } else m
      getFsBytes dev block (pos % BLOCK_SIZE) (buf.take c)
      brelse dev block
      writeLoop inode n (pos + c) (buf.drop c)
    else
      return (pos, buf)

def fileWrite (inode : Slot) (append : Bool) (fPos : Nat) (buf : List UInt8) : Call Slot (Int × Nat) := do
  let iSize := ((← get).inode inode).iSize
  let start := if append then iSize else fPos
  let (pos, rest) ← writeLoop inode buf.length start buf
  let i := buf.length - rest.length
  modify fun s => s.setInode inode fun m => { m with iMtime := s.CURRENT_TIME }
  if !append then
    modify fun s => s.setInode inode fun m => { m with iCtime := s.CURRENT_TIME }
  return (if i ≠ 0 then (i : Int) else -1, if append then fPos else pos)

end Code

section Bytes

theorem byteOf_setByte (data : Block) (j : Nat) (c : UInt8) (i : Nat)
    : byteOf (setByte data j c) i = if i = j then c else byteOf data i := by
  have hc : c.toNat < 256 := c.toNat_lt
  have hofNat : ∀ n m, n % 256 = m % 256 → UInt8.ofNat n = UInt8.ofNat m := by
    intro n m h
    apply UInt8.toNat_inj.mp
    simpa using h
  unfold byteOf setByte
  by_cases hdiv : i / 2 = j / 2
  . rw [hdiv, Function.update_self]
    by_cases hij : i = j
    . subst hij
      rw [if_pos rfl]
      apply UInt8.toNat_inj.mp
      obtain hpar | hpar := Nat.mod_two_eq_zero_or_one i
      . rw [if_pos hpar, hpar]
        simp
      . rw [if_neg (by omega), hpar]
        simp
        omega
    . rw [if_neg hij]
      apply hofNat
      obtain hpar | hpar := Nat.mod_two_eq_zero_or_one j
      . have hi : i % 2 = 1 := by omega
        rw [if_pos hpar, hi]
        omega
      . have hi : i % 2 = 0 := by omega
        rw [if_neg (by omega), hi]
        omega
  . have hij : i ≠ j := by
      rintro rfl
      exact hdiv rfl
    rw [Function.update_of_ne hdiv, if_neg hij]

theorem byteOf_setBytes (data : Block) (j : Nat) (cs : List UInt8) (i : Nat)
    : byteOf (setBytes data j cs) i = if j ≤ i ∧ i < j + cs.length then cs.getD (i - j) 0 else byteOf data i := by
  induction cs generalizing data j with
  | nil =>
    rw [setBytes, if_neg]
    rintro ⟨hge, hlt⟩
    exact absurd hlt (by simpa using hge)
  | cons c cs ih =>
    rw [setBytes, ih, byteOf_setByte, List.length_cons]
    by_cases hlater : j + 1 ≤ i ∧ i < j + 1 + cs.length
    . rw [if_pos hlater, if_pos (by omega), show i - j = i - (j + 1) + 1 by omega, List.getD_cons_succ]
    . rw [if_neg hlater]
      by_cases hij : i = j
      . rw [if_pos hij, if_pos (by omega), hij, Nat.sub_self, List.getD_cons_zero]
      . rw [if_neg hij, if_neg (by omega)]

-- Byte `n` of a file. What has no zone reads as 0.
def fileByte (s : Fs Slot) (inode : Slot) (n : Nat) : UInt8 :=
  match blockData s inode (n / BLOCK_SIZE) with
  | some data => byteOf data (n % BLOCK_SIZE)
  | none => 0

def fileBytes (s : Fs Slot) (inode : Slot) : List UInt8 :=
  (List.range (s.inode inode).iSize).map (fileByte s inode)

def maxBytes : Nat :=
  maxBlocks * BLOCK_SIZE

theorem byteOf_zeros (n : Nat) : byteOf (fun _ => 0) n = 0 := by
  simp [byteOf]

@[simp]
theorem length_fileBytes (s : Fs Slot) (inode : Slot) : (fileBytes s inode).length = (s.inode inode).iSize := by
  simp [fileBytes]

theorem getD_fileBytes {s : Fs Slot} {inode : Slot} {n : Nat} (h : n < (s.inode inode).iSize)
    : (fileBytes s inode).getD n 0 = fileByte s inode n := by
  unfold fileBytes
  rw [List.getD_eq_getElem _ _ (by simpa using h)]
  simp

theorem blockData_eq_some {s : Fs Slot} {j : Slot} {c : Nat} {a : Nat × Nat} (hc : c < maxBlocks)
    (h : (forest s).ptr j (pathOf c) = some a)
    : blockData s j c = s.content a.fst a.snd := by
  obtain ⟨hdev, hne⟩ := ptr_spec h
  have hzone : fileZone s j c = a.snd := by
    unfold fileZone
    rw [h]
    rfl
  rw [blockData, if_pos ⟨hc, by rwa [hzone]⟩, hzone, hdev]

theorem blockData_eq_none {s : Fs Slot} {j : Slot} {c : Nat} (h : (forest s).ptr j (pathOf c) = none)
    : blockData s j c = none :=
  blockData_eq_none_of_zone (zoneOf_none h)

theorem Calm.fileByte {s s' : Fs Slot} (h : Calm s s') : fileByte s' = Minix.fileByte s := by
  funext j n
  unfold Minix.fileByte blockData fileZone
  rw [h.forest, h.content, h.inode]

theorem Grows.fileByte {s s' : Fs Slot} (h : Grows s s') : fileByte s' = Minix.fileByte s := by
  funext j n
  unfold Minix.fileByte
  by_cases hc : n / BLOCK_SIZE < maxBlocks
  . cases hptr : (forest s).ptr j (pathOf (n / BLOCK_SIZE)) with
    | some a =>
      obtain ⟨hptr', hcontent⟩ := h.old j _ a hc hptr
      rw [blockData_eq_some hc hptr, blockData_eq_some hc hptr', hcontent]
    | none =>
      rw [blockData_eq_none hptr]
      cases hptr' : (forest s').ptr j (pathOf (n / BLOCK_SIZE)) with
      | none => rw [blockData_eq_none hptr']
      | some a =>
        rw [blockData_eq_some hc hptr', h.new j _ a hc hptr hptr']
        exact byteOf_zeros _
  . simp [blockData, hc]

end Bytes

section Storing

variable {s : Fs Slot} {inode : Slot} {dev r block : Nat} {bh : BufferHead}

theorem ptr_put_block (hsound : Sound s) (hblock : block < maxBlocks)
    (hptr : (forest s).ptr inode (pathOf block) = some (dev, r)) {j : Slot} {p : List Nat} (hp : IsPath p)
    : (forest (s.put dev r bh)).ptr j p = (forest s).ptr j p := by
  apply Forest.ptr_eq_of_entry_eq isPath_closed
  . intro k _
    rfl
  . intro q a k hq ha hqk
    have hne : ¬ (a.fst = dev ∧ a.snd = r) := by
      intro heq
      have hleaf := hsound.unshared j inode q (pathOf block) a hq (isPath_pathOf hblock) ha
        (hptr.trans (congrArg some (Prod.ext heq.left heq.right).symm))
      rw [hleaf.right] at hqk
      exact not_isPath_above block hqk
    simp only [forest]
    rw [content_put, if_neg hne]
  . exact hp

theorem Sound.put_block (hsound : Sound s) (hblock : block < maxBlocks)
    (hptr : (forest s).ptr inode (pathOf block) = some (dev, r))
    : Sound (s.put dev r bh) where
  unshared := by
    intro i j p q a hp hq ha hb
    rw [ptr_put_block hsound hblock hptr hp] at ha
    rw [ptr_put_block hsound hblock hptr hq] at hb
    exact hsound.unshared i j p q a hp hq ha hb
  marked := by
    intro i p a hp ha
    rw [ptr_put_block hsound hblock hptr hp] at ha
    exact hsound.marked i p a hp ha

theorem blockData_put_block (hsound : Sound s) (hblock : block < maxBlocks)
    (hptr : (forest s).ptr inode (pathOf block) = some (dev, r)) (huptodate : bh.bUptodate = true) (j : Slot)
    (c : Nat)
    : blockData (s.put dev r bh) j c = if j = inode ∧ c = block then some bh.bData else blockData s j c := by
  by_cases hc : c < maxBlocks
  . have hsame : (forest (s.put dev r bh)).ptr j (pathOf c) = (forest s).ptr j (pathOf c) :=
      ptr_put_block hsound hblock hptr (isPath_pathOf hc)
    cases ha : (forest s).ptr j (pathOf c) with
    | none =>
      rw [blockData_eq_none ha, blockData_eq_none (hsame.trans ha), if_neg]
      rintro ⟨rfl, rfl⟩
      rw [hptr] at ha
      cases ha
    | some a =>
      rw [blockData_eq_some hc ha, blockData_eq_some hc (hsame.trans ha), content_put]
      by_cases hhere : j = inode ∧ c = block
      . obtain ⟨rfl, rfl⟩ := hhere
        cases hptr.symm.trans ha
        rw [if_pos ⟨rfl, rfl⟩, if_pos huptodate, if_pos ⟨rfl, rfl⟩]
      . have hne : ¬ (a.fst = dev ∧ a.snd = r) := by
          intro heq
          have hsamepath := hsound.unshared j inode (pathOf c) (pathOf block) a (isPath_pathOf hc)
            (isPath_pathOf hblock) ha (hptr.trans (congrArg some (Prod.ext heq.left heq.right).symm))
          exact hhere ⟨hsamepath.left, pathOf_injective hsamepath.right⟩
        rw [if_neg hne, if_neg hhere]
  . have hne : ¬ (j = inode ∧ c = block) := by
      rintro ⟨_, rfl⟩
      exact hc hblock
    simp [blockData, hc, hne]

theorem fileByte_put_block (hsound : Sound s) (hblock : block < maxBlocks)
    (hptr : (forest s).ptr inode (pathOf block) = some (dev, r)) (huptodate : bh.bUptodate = true) {data : Block}
    (hcontent : s.content dev r = some data) {pos : Nat} {cs : List UInt8} (hpos : pos / BLOCK_SIZE = block)
    (hlength : pos % BLOCK_SIZE + cs.length ≤ BLOCK_SIZE) (hdata : bh.bData = setBytes data (pos % BLOCK_SIZE) cs)
    (j : Slot) (n : Nat)
    : fileByte (s.put dev r bh) j n
        = if j = inode ∧ pos ≤ n ∧ n < pos + cs.length then cs.getD (n - pos) 0 else fileByte s j n := by
  have hsize : 0 < BLOCK_SIZE := by decide
  have hold : blockData s inode block = some data := by rw [blockData_eq_some hblock hptr, hcontent]
  unfold fileByte
  rw [blockData_put_block hsound hblock hptr huptodate]
  by_cases hhere : j = inode ∧ n / BLOCK_SIZE = block
  . obtain ⟨rfl, hn⟩ := hhere
    rw [if_pos ⟨rfl, hn⟩]
    dsimp only
    rw [hn, hold, hdata, byteOf_setBytes]
    have hdivmod := Nat.div_add_mod n BLOCK_SIZE
    have hdivmod' := Nat.div_add_mod pos BLOCK_SIZE
    rw [hn] at hdivmod
    rw [hpos] at hdivmod'
    by_cases hin : pos % BLOCK_SIZE ≤ n % BLOCK_SIZE ∧ n % BLOCK_SIZE < pos % BLOCK_SIZE + cs.length
    . rw [if_pos hin, if_pos ⟨rfl, by omega, by omega⟩]
      congr 1
      omega
    . rw [if_neg hin, if_neg]
      rintro ⟨_, hge, hlt⟩
      exact hin ⟨by omega, by omega⟩
  . rw [if_neg hhere, if_neg]
    rintro ⟨rfl, hge, hlt⟩
    refine hhere ⟨rfl, ?_⟩
    rw [← hpos]
    unfold BLOCK_SIZE at *
    omega

end Storing

section Writing

open Machine

structure Healthy (s : Fs Slot) (files : Slot → Prop) : Prop where
  sound : Sound s
  readable : ∀ d z, s.content d z ≠ none
  formatted : ∀ i, files i → IsFormatted s (s.inode i).iDev
  size : ∀ i, files i → (s.inode i).iSize ≤ maxBytes
  blank : ∀ i, files i → ∀ n, (s.inode i).iSize ≤ n → fileByte s i n = 0

def Touches (s s' : Fs Slot) : Prop :=
  ∀ j, ∃ size zone atime mtime ctime dirt, s'.inode j = { s.inode j with
    iSize := size, iZone := zone, iAtime := atime, iMtime := mtime, iCtime := ctime, iDirt := dirt }

theorem Touches.trans {s s₁ s' : Fs Slot} (h : Touches s s₁) (h₁ : Touches s₁ s') : Touches s s' := by
  intro j
  obtain ⟨_, _, _, _, _, _, hj⟩ := h j
  obtain ⟨size, zone, atime, mtime, ctime, dirt, hj₁⟩ := h₁ j
  exact ⟨size, zone, atime, mtime, ctime, dirt, by rw [hj₁, hj]⟩

theorem Touches.iDev {s s' : Fs Slot} (h : Touches s s') (j : Slot) : (s'.inode j).iDev = (s.inode j).iDev := by
  obtain ⟨_, _, _, _, _, _, hj⟩ := h j
  rw [hj]

structure Wrote (s s' : Fs Slot) (files : Slot → Prop) (inode : Slot) (pos : Nat) (bytes : List UInt8) : Prop where
  healthy : Healthy s' files
  here : fileBytes s' inode = Overwrite.overwrite 0 (fileBytes s inode) pos bytes
  other : ∀ j, j ≠ inode → fileBytes s' j = fileBytes s j
  touches : Touches s s'

variable {s s₁ s' : Fs Slot} {files : Slot → Prop} {inode : Slot} {pos : Nat}

theorem Wrote.trans {xs ys : List UInt8} (h : Wrote s s₁ files inode pos xs)
    (h₁ : Wrote s₁ s' files inode (pos + xs.length) ys)
    : Wrote s s' files inode pos (xs ++ ys) where
  healthy := h₁.healthy
  here := by rw [h₁.here, h.here, Overwrite.overwrite_append]
  other := fun j hj => (h₁.other j hj).trans (h.other j hj)
  touches := h.touches.trans h₁.touches

theorem fileBytes_congr {j : Slot} (hsize : (s'.inode j).iSize = (s.inode j).iSize)
    (hbyte : fileByte s' j = fileByte s j)
    : fileBytes s' j = fileBytes s j := by
  rw [fileBytes, fileBytes, hsize, hbyte]

theorem Grows.wrote (h : Grows s s') (hsound : Sound s') (hhealthy : Healthy s files)
    : Wrote s s' files inode pos [] := by
  have hsize : ∀ j, (s'.inode j).iSize = (s.inode j).iSize := by
    intro j
    obtain ⟨_, _, _, hj⟩ := h.inode j
    rw [hj]
  refine ⟨⟨hsound, h.readable hhealthy.readable, ?_, ?_, ?_⟩, ?_, ?_, ?_⟩
  . intro i hi
    rw [h.iDev]
    exact h.formatted _ (hhealthy.formatted i hi)
  . intro i hi
    rw [hsize]
    exact hhealthy.size i hi
  . intro i hi n hn
    rw [hsize] at hn
    rw [h.fileByte]
    exact hhealthy.blank i hi n hn
  . exact fileBytes_congr (hsize inode) (by rw [h.fileByte])
  . intro j _
    exact fileBytes_congr (hsize j) (by rw [h.fileByte])
  . intro j
    obtain ⟨_, _, _, hj⟩ := h.inode j
    exact ⟨_, _, _, _, _, _, hj⟩

theorem forest_setInode {f : MInode → MInode} (hdev : (f (s.inode inode)).iDev = (s.inode inode).iDev)
    (hzone : (f (s.inode inode)).iZone = (s.inode inode).iZone)
    : forest (s.setInode inode f) = forest s := by
  unfold forest
  congr 1
  funext j k
  by_cases hj : j = inode
  . subst hj
    rw [inode_setInode, Function.update_self, hdev, hzone]
  . rw [inode_setInode, Function.update_of_ne hj]

theorem fileByte_setInode {f : MInode → MInode} (hdev : (f (s.inode inode)).iDev = (s.inode inode).iDev)
    (hzone : (f (s.inode inode)).iZone = (s.inode inode).iZone)
    : fileByte (s.setInode inode f) = fileByte s := by
  funext j n
  unfold fileByte blockData fileZone
  rw [forest_setInode hdev hzone]
  by_cases hj : j = inode
  . subst hj
    rw [inode_setInode, Function.update_self, hdev]
    rfl
  . rw [inode_setInode, Function.update_of_ne hj]
    rfl

theorem Sound.congr (hforest : forest s' = forest s) (hsuper : s'.superBlock = s.superBlock) (h : Sound s)
    : Sound s' where
  unshared := by
    rw [hforest]
    exact h.unshared
  marked := by
    intro i p a hp ha
    rw [hforest] at ha
    obtain ⟨sb, hsb, hrest⟩ := h.marked i p a hp ha
    exact ⟨sb, by rw [hsuper, hsb], hrest⟩

variable {dev r : Nat}

theorem wrote_block (bh : BufferHead) (hhealthy : Healthy s files) (hfile : files inode)
    (hptr : (forest s).ptr inode (pathOf (pos / BLOCK_SIZE)) = some (dev, r)) (hblock : pos / BLOCK_SIZE < maxBlocks)
    {data : Block} (hcontent : s.content dev r = some data) (huptodate : bh.bUptodate = true)
    (hcount : bh.bCount = s.count dev r) {cs : List UInt8} (hcs : cs ≠ [])
    (hlength : pos % BLOCK_SIZE + cs.length ≤ BLOCK_SIZE) (hdata : bh.bData = setBytes data (pos % BLOCK_SIZE) cs)
    {f : MInode → MInode} {dirt : Bool} (hf : f (s.inode inode)
      = { s.inode inode with iSize := max (s.inode inode).iSize (pos + cs.length), iDirt := dirt })
    : Wrote s ((s.put dev r bh).setInode inode f) files inode pos cs := by
  have hdev : (f ((s.put dev r bh).inode inode)).iDev = ((s.put dev r bh).inode inode).iDev := by
    rw [inode_put, hf]
  have hzone : (f ((s.put dev r bh).inode inode)).iZone = ((s.put dev r bh).inode inode).iZone := by
    rw [inode_put, hf]
  have hinode : ((s.put dev r bh).setInode inode f).inode = Function.update s.inode inode
      { s.inode inode with iSize := max (s.inode inode).iSize (pos + cs.length), iDirt := dirt } := by
    rw [inode_setInode, inode_put, hf]
  have hbyte : fileByte ((s.put dev r bh).setInode inode f) = fun j n =>
      if j = inode ∧ pos ≤ n ∧ n < pos + cs.length then cs.getD (n - pos) 0 else fileByte s j n := by
    rw [fileByte_setInode hdev hzone]
    funext j n
    exact fileByte_put_block hhealthy.sound hblock hptr huptodate hcontent rfl hlength hdata j n
  have hsizes : ∀ j, (((s.put dev r bh).setInode inode f).inode j).iSize
      = if j = inode then max (s.inode inode).iSize (pos + cs.length) else (s.inode j).iSize := by
    intro j
    rw [hinode]
    by_cases hj : j = inode
    . rw [hj, Function.update_self, if_pos rfl]
    . rw [Function.update_of_ne hj, if_neg hj]
  have htouches : Touches s ((s.put dev r bh).setInode inode f) := by
    intro j
    rw [hinode]
    by_cases hj : j = inode
    . subst hj
      exact ⟨_, _, _, _, _, _, Function.update_self _ _ _⟩
    . exact ⟨_, _, _, _, _, _, Function.update_of_ne hj _ _⟩
  refine ⟨⟨?_, ?_, ?_, ?_, ?_⟩, ?_, ?_, htouches⟩
  . exact Sound.congr (forest_setInode hdev hzone) rfl (hhealthy.sound.put_block hblock hptr)
  . intro d z
    change (s.put dev r bh).content d z ≠ none
    rw [content_put, if_pos huptodate]
    split
    . simp
    . exact hhealthy.readable d z
  . intro i hi
    rw [htouches.iDev]
    exact (hhealthy.formatted i hi).congr rfl (count_put_self hcount)
  . intro i hi
    rw [hsizes]
    split
    . have hsize := hhealthy.size inode hfile
      unfold maxBytes BLOCK_SIZE at *
      omega
    . exact hhealthy.size i hi
  . intro i hi n hn
    rw [hsizes] at hn
    rw [hbyte]
    dsimp only
    split at hn
    . next heq =>
      subst heq
      rw [if_neg (by omega)]
      exact hhealthy.blank i hi n (by omega)
    . next hne =>
      rw [if_neg (fun h => hne h.left)]
      exact hhealthy.blank i hi n hn
  . have hlen : (fileBytes ((s.put dev r bh).setInode inode f) inode).length
        = max (s.inode inode).iSize (pos + cs.length) := by
      rw [length_fileBytes, hsizes, if_pos rfl]
    apply Overwrite.ext 0
    . rw [hlen, Overwrite.length_overwrite hcs, length_fileBytes]
    . intro n hn
      rw [length_fileBytes] at hn
      rw [getD_fileBytes hn, Overwrite.getD_overwrite, hbyte]
      dsimp only
      by_cases hin : pos ≤ n ∧ n < pos + cs.length
      . rw [if_pos ⟨rfl, hin⟩, if_pos hin]
      . rw [if_neg (fun h => hin h.right), if_neg hin]
        by_cases hold : n < (s.inode inode).iSize
        . rw [getD_fileBytes hold]
        . rw [hhealthy.blank inode hfile n (Nat.le_of_not_lt hold), List.getD_eq_default]
          rw [length_fileBytes]
          exact Nat.le_of_not_lt hold
  . intro j hj
    apply fileBytes_congr
    . rw [hsizes, if_neg hj]
    . rw [hbyte]
      funext n
      exact if_neg fun h => hj h.left

theorem setDirty_eq {block : Nat} (h : s.cache dev block = some bh)
    : setDirty dev block s = .ok ((), s.put dev block { bh with bDirt := true }) := by
  unfold setDirty
  rw [h]

theorem getFsBytes_eq {block : Nat} (h : s.cache dev block = some bh) (j : Nat) (cs : List UInt8)
    : getFsBytes dev block j cs s = .ok ((), s.put dev block { bh with bData := setBytes bh.bData j cs }) := by
  unfold getFsBytes
  rw [h]

/--
The first `k` of some bytes have been written: all of them unless no zone is free.
-/
structure Took (s s' : Fs Slot) (files : Slot → Prop) (inode : Slot) (pos : Nat) (buf : List UInt8) (k : Nat) : Prop where
  le : k ≤ buf.length
  wrote : Wrote s s' files inode pos (buf.take k)
  full : k < buf.length → Full s' (s.inode inode).iDev
  fits : 0 < k → pos + k ≤ maxBytes

theorem Took.nothing {buf : List UInt8} (hwrote : Wrote s s' files inode pos [])
    (hfull : 0 < buf.length → Full s' (s.inode inode).iDev)
    : Took s s' files inode pos buf 0 :=
  ⟨Nat.zero_le _, hwrote, hfull, fun h => absurd h (Nat.lt_irrefl 0)⟩

theorem Took.cons {buf : List UInt8} {c k : Nat} (hwrote : Wrote s s₁ files inode pos (buf.take c))
    (hle : c ≤ buf.length) (hfits : pos + c ≤ maxBytes)
    (h : Took s₁ s' files inode (pos + c) (buf.drop c) k)
    : Took s s' files inode pos buf (c + k) where
  le := by
    have := h.le
    rw [List.length_drop] at this
    omega
  wrote := by
    have hlength : (buf.take c).length = c := by
      rw [List.length_take]
      omega
    rw [List.take_add]
    apply hwrote.trans
    rw [hlength]
    exact h.wrote
  full := by
    intro hlt
    rw [← hwrote.touches.iDev]
    apply h.full
    rw [List.length_drop]
    omega
  fits := by
    intro _
    by_cases hk : 0 < k
    . have := h.fits hk
      omega
    . omega

theorem writeLoop_ensures (hfile : files inode) {n : Nat} {buf : List UInt8} (hn : buf.length ≤ n)
    (hhealthy : Healthy s files)
    : Ensures (writeLoop inode n pos buf) s
        (fun res s' => ∃ k, res = (pos + k, buf.drop k) ∧ Took s s' files inode pos buf k)
        fun e => e = .panic "_bmap: block>big" ∧ maxBytes < pos + buf.length := by
  induction n generalizing s pos buf with
  | zero =>
    apply Ensures.pure
    exact ⟨0, rfl, .nothing ((Grows.of_calm (.refl s)).wrote hhealthy.sound hhealthy) (by omega)⟩
  | succ n ih =>
    unfold writeLoop
    apply Ensures.ite
    . intro hempty
      apply Ensures.pure
      exact ⟨0, rfl, .nothing ((Grows.of_calm (.refl s)).wrote hhealthy.sound hhealthy) (by simp [hempty])⟩
    intro hne
    have hpos : 0 < buf.length := List.length_pos_of_ne_nil hne
    apply Ensures.bind
    by_cases hblock : pos / BLOCK_SIZE < maxBlocks
    . apply (createBlock_step hhealthy.sound hblock (hhealthy.formatted inode hfile) hhealthy.readable).mono _
        fun _ h => h.elim
      rintro r s₁ ⟨hsound, hhere, hgrows, hfull⟩
      have hwrote₁ : Wrote s s₁ files inode pos [] := hgrows.wrote hsound hhealthy
      apply Ensures.ite
      . intro hzero
        exact .pure ⟨0, rfl, .nothing hwrote₁ fun _ => hfull hzero⟩
      intro hr
      rw [zoneAt, if_neg hr] at hhere
      apply Ensures.bind
      apply Ensures.get
      rw [hgrows.iDev]
      apply Ensures.bind
      apply bread_ensures
      intro b bh hread
      cases b with
      | false => exact absurd hread.content (hwrote₁.healthy.readable _ _)
      | true =>
        rw [if_pos rfl]
        apply Ensures.bind
        apply Ensures.of_eq_ok (setDirty_eq (cache_put_self _ _ _ _))
        rw [put_put]
        apply Ensures.bind
        apply Ensures.modify
        rw [setInode_put]
        apply Ensures.bind
        apply Ensures.of_eq_ok (getFsBytes_eq (cache_put_self _ _ _ _) _ _)
        rw [put_put]
        apply Ensures.bind
        apply Ensures.of_eq_ok (brelse_eq (cache_put_self _ _ _ _) (by
          dsimp only
          rw [hread.count]
          exact Nat.succ_pos _))
        rw [put_put, ← setInode_put]
        generalize hc : min (BLOCK_SIZE - pos % BLOCK_SIZE) buf.length = c
        have hmod : pos % BLOCK_SIZE < BLOCK_SIZE := Nat.mod_lt pos (by decide)
        have hle : c ≤ buf.length := by omega
        have hcpos : 0 < c := by omega
        have hlength : (buf.take c).length = c := by
          rw [List.length_take]
          omega
        have hfits : pos + c ≤ maxBytes := by
          have hdiv := Nat.div_add_mod pos BLOCK_SIZE
          unfold maxBytes BLOCK_SIZE at *
          omega
        have hsize : ∃ dirt, (if pos + c > (s₁.inode inode).iSize then
              { s₁.inode inode with iSize := pos + c, iDirt := true } else s₁.inode inode)
            = { s₁.inode inode with iSize := max (s₁.inode inode).iSize (pos + (buf.take c).length), iDirt := dirt } := by
          rw [hlength]
          split
          . next hlt => exact ⟨true, by rw [Nat.max_eq_right (Nat.le_of_lt hlt)]⟩
          . next hge => exact ⟨(s₁.inode inode).iDirt, by rw [Nat.max_eq_left (Nat.le_of_not_lt hge)]⟩
        obtain ⟨dirt, hsize⟩ := hsize
        have hwrote := wrote_block
          { bh with bDirt := true, bData := setBytes bh.bData (pos % BLOCK_SIZE) (buf.take c), bCount := bh.bCount - 1 }
          (f := fun m => if pos + c > m.iSize then { m with iSize := pos + c, iDirt := true } else m)
          hwrote₁.healthy hfile hhere hblock hread.content hread.uptodate (by rw [hread.count]; rfl)
          (List.ne_nil_of_length_pos (by rw [hlength]; exact hcpos)) (by rw [hlength]; omega) rfl hsize
        apply (ih _ hwrote.healthy).mono
        . rintro res s' ⟨k, rfl, htook⟩
          refine ⟨c + k, ?_, .cons (hwrote₁.trans hwrote) hle hfits htook⟩
          rw [List.drop_drop, Nat.add_assoc]
        . rintro e ⟨he, hbig⟩
          rw [List.length_drop] at hbig
          exact ⟨he, by omega⟩
        . rw [List.length_drop]
          omega
    . apply Ensures.of_eq_error (createBlock_big (Nat.le_of_not_lt hblock))
      refine ⟨rfl, ?_⟩
      have hbig : maxBytes ≤ pos := (Nat.le_div_iff_mul_le (by decide)).mp (Nat.le_of_not_lt hblock)
      omega

theorem Wrote.stamp {bytes : List UInt8} (h : Wrote s s₁ files inode pos bytes) {f : MInode → MInode}
    (hf : ∃ atime mtime ctime, f (s₁.inode inode)
      = { s₁.inode inode with iAtime := atime, iMtime := mtime, iCtime := ctime })
    : Wrote s (s₁.setInode inode f) files inode pos bytes := by
  obtain ⟨atime, mtime, ctime, hf⟩ := hf
  have hdev : (f (s₁.inode inode)).iDev = (s₁.inode inode).iDev := by rw [hf]
  have hzone : (f (s₁.inode inode)).iZone = (s₁.inode inode).iZone := by rw [hf]
  have hinode : ∀ j, ∃ atime mtime ctime, (s₁.setInode inode f).inode j
      = { s₁.inode j with iAtime := atime, iMtime := mtime, iCtime := ctime } := by
    intro j
    by_cases hj : j = inode
    . subst hj
      exact ⟨atime, mtime, ctime, by rw [inode_setInode, Function.update_self, hf]⟩
    . exact ⟨_, _, _, by rw [inode_setInode, Function.update_of_ne hj]⟩
  have hsize : ∀ j, ((s₁.setInode inode f).inode j).iSize = (s₁.inode j).iSize := by
    intro j
    obtain ⟨_, _, _, hj⟩ := hinode j
    rw [hj]
  have hbyte := fileByte_setInode hdev hzone
  have hbytes : ∀ j, fileBytes (s₁.setInode inode f) j = fileBytes s₁ j :=
    fun j => fileBytes_congr (hsize j) (by rw [hbyte])
  refine ⟨⟨h.healthy.sound.congr (forest_setInode hdev hzone) rfl, h.healthy.readable, ?_, ?_, ?_⟩, ?_, ?_, ?_⟩
  . intro i hi
    obtain ⟨_, _, _, hj⟩ := hinode i
    rw [hj]
    exact (h.healthy.formatted i hi).congr rfl rfl
  . intro i hi
    rw [hsize]
    exact h.healthy.size i hi
  . intro i hi n hn
    rw [hsize] at hn
    rw [hbyte]
    exact h.healthy.blank i hi n hn
  . rw [hbytes, h.here]
  . intro j hj
    rw [hbytes, h.other j hj]
  . apply h.touches.trans
    intro j
    obtain ⟨_, _, _, hj⟩ := hinode j
    exact ⟨_, _, _, _, _, _, hj⟩

theorem fileWrite_ensures (hfile : files inode) (hhealthy : Healthy s files) (append : Bool) (buf : List UInt8)
    : let start := if append then (s.inode inode).iSize else pos
      Ensures (fileWrite inode append pos buf) s
        (fun res s' => ∃ k : Nat, res = (if k = 0 then -1 else (k : Int), if append then pos else pos + k)
          ∧ Took s s' files inode start buf k)
        fun e => e = .panic "_bmap: block>big" ∧ maxBytes < start + buf.length := by
  intro start
  unfold fileWrite
  apply Ensures.bind
  apply Ensures.get
  apply Ensures.bind
  apply (writeLoop_ensures hfile (Nat.le_refl _) hhealthy).imp
  rintro _ s₁ ⟨k, rfl, htook⟩
  have hle := htook.le
  have hwritten : buf.length - (buf.drop k).length = k := by
    rw [List.length_drop]
    omega
  dsimp only
  rw [hwritten]
  apply Ensures.bind
  apply Ensures.modify
  have hresult : (if k ≠ 0 then (k : Int) else -1) = if k = 0 then -1 else (k : Int) :=
    ite_not _ _ _
  have hfull : ∀ s', s'.superBlock = s₁.superBlock → k < buf.length → Full s' (s.inode inode).iDev :=
    fun s' hsuper hlt => (htook.full hlt).congr hsuper
  cases append with
  | true =>
    apply Ensures.pure
    exact ⟨k, by rw [hresult]; rfl, hle, htook.wrote.stamp ⟨_, _, _, rfl⟩, hfull _ rfl, htook.fits⟩
  | false =>
    apply Ensures.bind
    apply Ensures.modify
    apply Ensures.pure
    refine ⟨k, by rw [hresult]; rfl, hle, (htook.wrote.stamp ⟨_, _, _, rfl⟩).stamp ⟨_, _, _, rfl⟩, hfull _ rfl, htook.fits⟩

end Writing

section Reading

open Machine

variable {s : Fs Slot} {files : Slot → Prop} {inode : Slot} {pos : Nat}

theorem slice_fileBytes {n : Nat} (h : pos + n ≤ (s.inode inode).iSize)
    : Overwrite.slice (fileBytes s inode) pos n = (List.range n).map fun j => fileByte s inode (pos + j) := by
  have hlength : (Overwrite.slice (fileBytes s inode) pos n).length = n :=
    Overwrite.length_slice (by rwa [length_fileBytes])
  apply Overwrite.ext 0
  . rw [hlength, List.length_map, List.length_range]
  . intro i hi
    rw [hlength] at hi
    rw [Overwrite.getD_slice hi, getD_fileBytes (by omega), List.getD_eq_getElem _ _ (by simpa using hi)]
    simp

theorem readLoop_ensures (hfile : files inode) (hhealthy : Healthy s files) {n left : Nat} (hn : left ≤ n)
    (hend : pos + left ≤ (s.inode inode).iSize) {s₁ : Fs Slot} (hcalm : Calm s s₁)
    : Ensures (readLoop inode n pos left) s₁
        (fun res s' => res = (pos + left, 0, Overwrite.slice (fileBytes s inode) pos left) ∧ Calm s s')
        fun _ => False := by
  induction n generalizing pos left s₁ with
  | zero =>
    obtain rfl : left = 0 := by omega
    apply Ensures.pure
    exact ⟨by simp [Overwrite.slice], hcalm⟩
  | succ n ih =>
    unfold readLoop
    apply Ensures.ite
    . rintro rfl
      apply Ensures.pure
      exact ⟨by simp [Overwrite.slice], hcalm⟩
    intro hleft
    have hsize := hhealthy.size inode hfile
    have hblock : pos / BLOCK_SIZE < maxBlocks := by
      rw [Nat.div_lt_iff_lt_mul (by decide)]
      change pos < maxBytes
      omega
    generalize hc : min (BLOCK_SIZE - pos % BLOCK_SIZE) left = c
    have hmod : pos % BLOCK_SIZE < BLOCK_SIZE := Nat.mod_lt pos (by decide)
    have hle : c ≤ left := by omega
    have hsplit : Overwrite.slice (fileBytes s inode) pos left
        = (List.range c).map (fun j => fileByte s inode (pos + j))
          ++ Overwrite.slice (fileBytes s inode) (pos + c) (left - c) := by
      rw [← slice_fileBytes (by omega), ← Overwrite.slice_append]
      congr 1
      omega
    have hbyte : ∀ j < c, fileByte s inode (pos + j) = match blockData s inode (pos / BLOCK_SIZE) with
        | some data => byteOf data (pos % BLOCK_SIZE + j)
        | none => 0 := by
      intro j hj
      have hdiv : (pos + j) / BLOCK_SIZE = pos / BLOCK_SIZE := by
        unfold BLOCK_SIZE at *
        omega
      have hrem : (pos + j) % BLOCK_SIZE = pos % BLOCK_SIZE + j := by
        unfold BLOCK_SIZE at *
        omega
      rw [fileByte, hdiv, hrem]
    apply Ensures.bind
    apply bmap_ensures
    . intro _ s₂ hcalm₂
      rw [fileZone, hcalm.forest, ← fileZone]
      have hcalm' := hcalm.trans hcalm₂
      apply Ensures.ite
      . intro hzone
        apply Ensures.bind
        apply Ensures.get
        rw [hcalm'.inode]
        apply Ensures.bind
        apply bread_block_ensures hcalm' hblock hzone
        . intro t hholds
          rw [if_pos rfl]
          apply Ensures.bind
          apply hholds.bData_ensures
          intro data hdata
          apply Ensures.bind
          apply hholds.release_ensures
          intro s₃ hcalm₃
          apply Ensures.bind
          apply (ih (by omega) (by omega) hcalm₃).imp
          rintro _ s' ⟨rfl, hcalm''⟩
          apply Ensures.pure
          refine ⟨?_, hcalm''⟩
          rw [hsplit, Nat.add_assoc, Nat.add_sub_cancel' hle]
          congr 3
          apply List.map_congr_left
          intro j hj
          rw [hbyte j (List.mem_range.mp hj), hdata]
        . intro t _ hdata
          exact absurd hdata (by
            rw [blockData, if_pos ⟨hblock, hzone⟩]
            exact hhealthy.readable _ _)
      . intro hzone
        rw [not_not] at hzone
        apply Ensures.bind
        apply (ih (by omega) (by omega) hcalm').imp
        rintro _ s' ⟨rfl, hcalm''⟩
        apply Ensures.pure
        refine ⟨?_, hcalm''⟩
        rw [hsplit, Nat.add_assoc, Nat.add_sub_cancel' hle]
        have hnone := blockData_eq_none_of_zone hzone
        have hzeros : (List.range c).map (fun j => fileByte s inode (pos + j)) = List.replicate c 0 := by
          rw [List.eq_replicate_iff]
          refine ⟨by simp, ?_⟩
          simp only [List.mem_map, List.mem_range]
          rintro _ ⟨j, hj, rfl⟩
          rw [hbyte j hj, hnone]
        rw [hzeros]
    . intro hbig
      exact absurd hblock (Nat.not_lt.mpr hbig)

theorem Calm.wrote {s' : Fs Slot} (h : Calm s s') (hhealthy : Healthy s files) : Wrote s s' files inode pos [] :=
  (Grows.of_calm h).wrote (hhealthy.sound.congr h.forest h.superBlock) hhealthy

theorem fileRead_ensures (hfile : files inode) (hhealthy : Healthy s files) {count : Nat} (hcount : 0 < count)
    (hend : pos + count ≤ (s.inode inode).iSize)
    : Ensures (fileRead inode pos count) s
        (fun res s' => res = ((count : Int), pos + count, Overwrite.slice (fileBytes s inode) pos count)
          ∧ Wrote s s' files inode pos [])
        fun _ => False := by
  unfold fileRead
  rw [if_neg (by omega), Int.toNat_natCast]
  apply Ensures.bind
  apply (readLoop_ensures hfile hhealthy (Nat.le_refl _) hend (.refl s)).imp
  rintro _ s₁ ⟨rfl, hcalm⟩
  apply Ensures.bind
  apply Ensures.modify
  apply Ensures.pure
  refine ⟨?_, (hcalm.wrote hhealthy).stamp ⟨_, _, _, rfl⟩⟩
  rw [if_pos (by omega)]
  simp

end Reading

end Minix
end OS
