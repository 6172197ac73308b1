import ByDoing.Lib.Forest
import ByDoing.Lib.Run
import ByDoing.OS.Minix.Bitmap

/-!
This module contains `bmap` and `create_block` of `inode.c`, and the zones that the pointers of the inodes lead
to: seven direct ones, one index block and one index block of index blocks. A path to a zone is the list of the
indices from the last one up to the slot of `i_zone`.
-/

namespace OS
namespace Minix

section Code

variable {ι : Type} [DecidableEq ι]

def Fs.setInode (s : Fs ι) (inode : ι) (f : MInode → MInode) : Fs ι :=
  { s with inode := Function.update s.inode inode (f (s.inode inode)) }

-- `if (create && !inode->i_zone[k]) if ((inode->i_zone[k]=new_block(inode->i_dev)))` and what follows.
def createZone (inode : ι) (k : Nat) (create : Bool) : Call ι Unit := do
  let m := (← get).inode inode
  if create ∧ m.iZone k = 0 then
    let zone ← newBlock m.iDev
    if zone ≠ 0 then
      modify fun s => s.setInode inode fun m =>
        { m with iZone := Function.update m.iZone k zone, iCtime := s.CURRENT_TIME, iDirt := true }

-- One level of `_bmap` below the inode: the entry `k` of the index block, 0 if it cannot be read.
def indexEntry (dev block k : Nat) (create : Bool) : Call ι Nat := do
  if ← bread dev block then
    let i := (← bData dev block) k
    if create ∧ i = 0 then
      let i ← newBlock dev
      if i ≠ 0 then
        store dev block k i
      brelse dev block
      return i
    brelse dev block
    return i
  else
    return 0

def _bmap (inode : ι) (block : Int) (create : Bool) : Call ι Nat := do
  if block < 0 then panic "_bmap: block<0"
  if block ≥ 7 + 512 + 512 * 512 then panic "_bmap: block>big"
  let block := block.toNat
  if block < 7 then
    createZone inode block create
    return ((← get).inode inode).iZone block
  let block := block - 7
  if block < 512 then
    createZone inode 7 create
    let m := (← get).inode inode
    if m.iZone 7 = 0 then return 0
    indexEntry m.iDev (m.iZone 7) block create
  else
    let block := block - 512
    createZone inode 8 create
    let m := (← get).inode inode
    if m.iZone 8 = 0 then return 0
    let i ← indexEntry m.iDev (m.iZone 8) (block / 512) create
    if i = 0 then return 0
    indexEntry m.iDev i (block % 512) create

def bmap (inode : ι) (block : Int) : Call ι Nat :=
  _bmap inode block false

def createBlock (inode : ι) (block : Int) : Call ι Nat :=
  _bmap inode block true

end Code

section Paths

variable {ι : Type}

def zoneAt (dev zone : Nat) : Option (Nat × Nat) :=
  if zone = 0 then none else some (dev, zone)

def forest (s : Fs ι) : Forest ι (Nat × Nat) where
  root inode k := zoneAt (s.inode inode).iDev ((s.inode inode).iZone k)
  entry a k :=
    match s.content a.fst a.snd with
    | some data => zoneAt a.fst (data k)
    | none => none

inductive IsPath : List Nat → Prop where
  | zone {k : Nat} : k < 9 → IsPath [k]
  | index {k r : Nat} : k < 512 → (r = 7 ∨ r = 8) → IsPath [k, r]
  | double {l k : Nat} : l < 512 → k < 512 → IsPath [l, k, 8]

theorem isPath_closed : Forest.Closed IsPath := by
  intro k l p h
  cases h with
  | index _ hr => exact .zone (by omega)
  | double _ hk => exact .index hk (.inr rfl)

-- Where `_bmap` looks for a block of the file.
def pathOf (block : Nat) : List Nat :=
  if block < 7 then
    [block]
  else if block - 7 < 512 then
    [block - 7, 7]
  else
    [(block - 7 - 512) % 512, (block - 7 - 512) / 512, 8]

def zoneOf (p : Option (Nat × Nat)) : Nat :=
  match p with
  | some a => a.snd
  | none => 0

def Fs.Marked (s : Fs ι) (a : Nat × Nat) : Prop :=
  ∃ sb, s.superBlock a.fst = some sb ∧ sb.sFirstdatazone ≤ a.snd + 1
    ∧ mapBit sb.sZmap (a.snd + 1 - sb.sFirstdatazone) = true

structure Sound (s : Fs ι) : Prop where
  unshared : Forest.Unshared IsPath (forest s)
  marked : ∀ inode p a, IsPath p → (forest s).ptr inode p = some a → s.Marked a

theorem marked_setZmap {s : Fs ι} {dev i j : Nat} {sb : SuperBlock ι} {m : Bitmap}
    (hsuper : s.superBlock dev = some sb) (hmap : sb.sZmap i = some m) (hj : j < 8192) (a : Nat × Nat)
    : (s.setZmap dev i (m.setBit j)).Marked a
        ↔ s.Marked a ∨ (a.fst = dev ∧ sb.sFirstdatazone ≤ a.snd + 1
          ∧ a.snd + 1 - sb.sFirstdatazone = j + i * 8192) := by
  unfold Fs.Marked Fs.setZmap
  by_cases hdev : a.fst = dev
  . have hbit : ∀ nr, nr ≠ j → (m.setBit j).bit nr = m.bit nr := by
      intro nr hnr
      simp [hnr]
    simp only [hdev, if_true, hsuper, Option.map_some, Option.some.injEq, exists_eq_left', true_and,
      mapBit_update hmap hj hbit, Bitmap.bit_setBit, decide_true, Bool.true_or]
    split
    . next hn =>
      simp only [hn, and_true]
      exact ⟨.inr, fun h => h.elim And.left id⟩
    . next hn => simp [hn]
  . simp [hdev]

/--
What a caller of `new_block` sees: only the zone that it gets has changed, and it is marked, was not, and is
filled with zeros.
-/
structure NewBlock (s s' : Fs ι) (dev r : Nat) : Prop where
  inode : s'.inode = s.inode
  time : s'.CURRENT_TIME = s.CURRENT_TIME
  disk : s'.disk = s.disk
  count : s'.count = s.count
  cache : ∀ d z, ¬ (d = dev ∧ z = r) → s'.cache d z = s.cache d z
  marked : ∀ a, s.Marked a → s'.Marked a
  fresh : r ≠ 0 → ¬ s.Marked (dev, r) ∧ s'.Marked (dev, r) ∧ s'.cache dev r = some zeroed

theorem newBlock_of_eq_ok {s s' : Fs ι} {dev r : Nat} (h : newBlock dev s = .ok (r, s')) : NewBlock s s' dev r := by
  obtain ⟨sb, hget, hcases⟩ := newBlock_cases h
  have hsuper := getSuper_eq hget
  obtain ⟨_, rfl, rfl⟩ | ⟨i, j, m, hfirst, hmap, hbit, hrest⟩ := hcases
  . exact ⟨rfl, rfl, rfl, rfl, fun _ _ _ => rfl, fun _ h => h, fun h => absurd rfl h⟩
  . have hj := (firstClear_spec hfirst).right.left
    have hmarked := marked_setZmap hsuper hmap hj
    obtain ⟨_, rfl, rfl⟩ | ⟨_, hr, hcount, rfl⟩ := hrest
    . exact ⟨rfl, rfl, rfl, rfl, fun _ _ _ => rfl, fun a ha => (hmarked a).mpr (.inl ha),
        fun h => absurd rfl h⟩
    . refine ⟨rfl, rfl, rfl, ?_, ?_, fun a ha => (hmarked a).mpr (.inl ha), ?_⟩
      . funext d z
        rw [count_put, count_setZmap]
        split
        . next heq => rw [heq.left, heq.right, hcount, zeroed]
        . rfl
      . intro d z hne
        rw [cache_put, if_neg hne, cache_setZmap]
      . intro hzero
        have hn : sb.sFirstdatazone ≤ r + 1 ∧ r + 1 - sb.sFirstdatazone = j + i * 8192 := by omega
        refine ⟨?_, (hmarked (dev, r)).mpr (.inr ⟨rfl, hn⟩), cache_put_self _ _ _ _⟩
        rintro ⟨sb', hsuper', _, hset⟩
        cases hsuper.symm.trans hsuper'
        rw [hn.right, mapBit_firstClear hfirst] at hset
        cases hset

theorem zoneAt_eq_some {dev zone : Nat} {a : Nat × Nat} (h : zoneAt dev zone = some a)
    : a = (dev, zone) ∧ zone ≠ 0 := by
  unfold zoneAt at h
  split at h
  . cases h
  . next hne =>
    cases h
    exact ⟨rfl, hne⟩

theorem ptr_spec {s : Fs ι} {inode : ι} {p : List Nat} {a : Nat × Nat} (h : (forest s).ptr inode p = some a)
    : a.fst = (s.inode inode).iDev ∧ a.snd ≠ 0 := by
  induction p generalizing a with
  | nil => cases h
  | cons k p ih =>
    cases p with
    | nil =>
      obtain ⟨rfl, hne⟩ := zoneAt_eq_some h
      exact ⟨rfl, hne⟩
    | cons l p =>
      cases hup : (forest s).ptr inode (l :: p) with
      | none =>
        rw [Forest.ptr_cons_of_none hup] at h
        cases h
      | some b =>
        rw [Forest.ptr_cons_of_some hup, forest] at h
        dsimp only at h
        split at h
        . obtain ⟨rfl, hne⟩ := zoneAt_eq_some h
          exact ⟨(ih hup).left, hne⟩
        . cases h

structure Quiet (s s' : Fs ι) : Prop where
  inode : s'.inode = s.inode
  content : ∀ d z, z ≠ 0 → s'.content d z = s.content d z
  marked : ∀ a, s.Marked a → s'.Marked a

namespace Quiet

variable {s s' s₁ : Fs ι}

theorem refl (s : Fs ι) : Quiet s s :=
  ⟨rfl, fun _ _ _ => rfl, fun _ h => h⟩

theorem trans (h : Quiet s s₁) (h₁ : Quiet s₁ s') : Quiet s s' where
  inode := h₁.inode.trans h.inode
  content := fun d z hz => (h₁.content d z hz).trans (h.content d z hz)
  marked := fun a ha => h₁.marked a (h.marked a ha)

theorem ptr (h : Quiet s s') (inode : ι) {p : List Nat} (hp : IsPath p)
    : (forest s').ptr inode p = (forest s).ptr inode p := by
  apply Forest.ptr_eq_of_entry_eq isPath_closed
  . intro k _
    simp only [forest, h.inode]
  . intro q a k _ ha _
    simp only [forest, h.content a.fst a.snd (ptr_spec ha).right]
  . exact hp

theorem sound (h : Quiet s s') (hsound : Sound s) : Sound s' where
  unshared := by
    intro i j p q a hp hq ha hb
    rw [h.ptr i hp] at ha
    rw [h.ptr j hq] at hb
    exact hsound.unshared i j p q a hp hq ha hb
  marked := by
    intro i p a hp ha
    rw [h.ptr i hp] at ha
    exact h.marked a (hsound.marked i p a hp ha)

end Quiet

structure Extends (s s' : Fs ι) (inode : ι) (p : List Nat) (r : Nat) : Prop where
  dev : ∀ j, (s'.inode j).iDev = (s.inode j).iDev
  sound : Sound s'
  here : (forest s').ptr inode p = zoneAt (s.inode inode).iDev r
  ptr : ∀ j q, IsPath q → ¬ (j = inode ∧ q = p) → (forest s').ptr j q = (forest s).ptr j q

theorem Extends.of_quiet {s s' : Fs ι} {inode : ι} {p : List Nat} {r : Nat} (h : Quiet s s') (hsound : Sound s)
    (hp : IsPath p) (hhere : (forest s).ptr inode p = zoneAt (s.inode inode).iDev r)
    : Extends s s' inode p r where
  dev := fun j => by rw [h.inode]
  sound := h.sound hsound
  here := (h.ptr inode hp).trans hhere
  ptr := fun j q hq _ => h.ptr j hq

theorem Extends.of_links {s s' : Fs ι} {inode : ι} {p : List Nat} {r : Nat} (hsound : Sound s) (hr : r ≠ 0)
    (hdev : ∀ j, (s'.inode j).iDev = (s.inode j).iDev) (hmarked : ∀ a, s.Marked a → s'.Marked a)
    (hnew : s'.Marked ((s.inode inode).iDev, r))
    (hlinks : Forest.Links IsPath (forest s) (forest s') inode p ((s.inode inode).iDev, r))
    : Extends s s' inode p r where
  dev := hdev
  sound := ⟨hlinks.unshared isPath_closed hsound.unshared,
    hlinks.forall_ptr isPath_closed hnew fun j q b hq hb => hmarked b (hsound.marked j q b hq hb)⟩
  here := by
    rw [hlinks.ptr_self isPath_closed, zoneAt, if_neg hr]
  ptr := fun j q hq hne => hlinks.ptr_of_ne isPath_closed hq hne

theorem Sound.fresh {s : Fs ι} (h : Sound s) {a : Nat × Nat} (ha : ¬ s.Marked a) (j : ι) (q : List Nat)
    (hq : IsPath q)
    : (forest s).ptr j q ≠ some a := by
  intro hptr
  exact ha (h.marked j q a hq hptr)

theorem NewBlock.content {s s' : Fs ι} {dev r : Nat} (h : NewBlock s s' dev r) {d z : Nat}
    (hne : ¬ (d = dev ∧ z = r))
    : s'.content d z = s.content d z := by
  rw [Fs.content, Fs.content, h.cache d z hne, h.disk]

theorem NewBlock.quiet {s s' : Fs ι} {dev : Nat} (h : NewBlock s s' dev 0) : Quiet s s' where
  inode := h.inode
  content := fun _ _ hz => h.content fun heq => hz heq.right
  marked := h.marked

theorem NewBlock.content_new {s s' : Fs ι} {dev r : Nat} (h : NewBlock s s' dev r) (hr : r ≠ 0)
    : s'.content dev r = some fun _ => 0 := by
  rw [Fs.content, (h.fresh hr).right.right]
  rfl

section Steps

variable [DecidableEq ι]

theorem createZone_extends {s s' : Fs ι} {inode : ι} {k : Nat} {create : Bool} {u : Unit} (hsound : Sound s)
    (hk : k < 9) (h : createZone inode k create s = .ok (u, s'))
    : Extends s s' inode [k] ((s'.inode inode).iZone k) := by
  have hpath : IsPath [k] := .zone hk
  unfold createZone at h
  rw [Machine.bind_of_eq_ok Machine.get_eq] at h
  split at h
  . next hcreate =>
    rw [Machine.bind_eq_ok_iff] at h
    obtain ⟨r, s₁, hnew, h⟩ := h
    have hblock := newBlock_of_eq_ok hnew
    split at h
    . next hr =>
      rw [Machine.modify_eq_ok_iff] at h
      subst h
      obtain ⟨hfresh, hmarked, _⟩ := hblock.fresh hr
      have hself : ((s₁.setInode inode fun m =>
          { m with iZone := Function.update m.iZone k r, iCtime := s₁.CURRENT_TIME, iDirt := true }).inode
            inode).iZone k = r := by
        simp [Fs.setInode]
      have hdev : ∀ j, ((s₁.setInode inode fun m =>
          { m with iZone := Function.update m.iZone k r, iCtime := s₁.CURRENT_TIME, iDirt := true }).inode
            j).iDev = (s.inode j).iDev := by
        intro j
        by_cases hj : j = inode
        . subst hj
          simp [Fs.setInode, hblock.inode]
        . simp [Fs.setInode, hj, hblock.inode]
      rw [hself]
      refine .of_links hsound hr hdev hblock.marked hmarked ?_
      refine ⟨hpath, ?_, hsound.fresh hfresh, ?_, ?_, ?_, .inl ⟨k, rfl, ?_⟩⟩
      . simp [Forest.ptr, forest, zoneAt, hcreate.right]
      . intro j l _ hne
        by_cases hj : j = inode
        . subst hj
          have hl : l ≠ k := by
            rintro rfl
            exact hne ⟨rfl, rfl⟩
          simp [forest, Fs.setInode, hblock.inode, hl]
        . simp [forest, Fs.setInode, hblock.inode, hj]
      . intro j q b l hq hb _ _
        have hne : ¬ (b.fst = (s.inode inode).iDev ∧ b.snd = r) := by
          intro heq
          exact hsound.fresh hfresh j q hq (hb.trans (congrArg some (Prod.ext heq.left heq.right)))
        simp only [forest]
        rw [show (s₁.setInode inode _).content = s₁.content from rfl, hblock.content hne]
      . intro l
        simp only [forest]
        rw [show (s₁.setInode inode _).content = s₁.content from rfl, hblock.content_new hr]
        rfl
      . simp only [forest]
        rw [hdev, hself, zoneAt, if_neg hr]
    . next hr =>
      rw [not_not] at hr
      subst hr
      rw [Machine.pure_eq_ok_iff] at h
      obtain ⟨_, rfl⟩ := h
      refine .of_quiet hblock.quiet hsound hpath ?_
      rw [hblock.inode]
      rfl
  . rw [Machine.pure_eq_ok_iff] at h
    obtain ⟨_, rfl⟩ := h
    exact .of_quiet (.refl s) hsound hpath rfl

omit [DecidableEq ι] in
theorem quiet_put {s : Fs ι} {dev block : Nat} {bh : BufferHead} {data : Block}
    (hcontent : s.content dev block = some data) (huptodate : bh.bUptodate = true) (hdata : bh.bData = data)
    : Quiet s (s.put dev block bh) where
  inode := rfl
  content := fun d z _ => by rw [content_put_of_eq hcontent huptodate hdata]
  marked := fun _ h => h

omit [DecidableEq ι] in
theorem quiet_put_none {s : Fs ι} {dev block : Nat} {bh : BufferHead} (hcontent : s.content dev block = none)
    (huptodate : bh.bUptodate = false)
    : Quiet s (s.put dev block bh) where
  inode := rfl
  content := by
    intro d z _
    rw [content_put]
    split
    . next heq =>
      have hdisk : s.disk dev block = none := by
        unfold Fs.content at hcontent
        split at hcontent
        . split at hcontent
          . cases hcontent
          . exact hcontent
        . exact hcontent
      rw [heq.left, heq.right, hcontent, if_neg (by simp [huptodate]), hdisk]
    . rfl
  marked := fun _ h => h

omit [DecidableEq ι] in
theorem links_put {s s₁ s₂ : Fs ι} {inode : ι} {k l r dev block : Nat} {p : List Nat} {data : Block} {bh : BufferHead}
    (hsound : Sound s) (hquiet : Quiet s s₁) (hblock : NewBlock s₁ s₂ dev r) (hr : r ≠ 0)
    (hpath : IsPath (k :: l :: p)) (hup : (forest s).ptr inode (l :: p) = some (dev, block))
    (hcontent : s.content dev block = some data) (hempty : data k = 0) (huptodate : bh.bUptodate = true)
    (hdata : bh.bData = Function.update data k r)
    : Forest.Links IsPath (forest s) (forest (s₂.put dev block bh)) inode (k :: l :: p) (dev, r) := by
  have hvalid := isPath_closed k l p hpath
  have hfresh : ¬ s.Marked (dev, r) := fun hold => (hblock.fresh hr).left (hquiet.marked _ hold)
  have hne : block ≠ r := by
    rintro rfl
    exact hfresh (hsound.marked _ _ _ hvalid hup)
  have hself : (s₂.put dev block bh).content dev block = some (Function.update data k r) := by
    rw [content_put, if_pos ⟨rfl, rfl⟩, if_pos huptodate, hdata]
  have hzeros : (s₂.put dev block bh).content dev r = some fun _ => 0 := by
    rw [content_put, if_neg fun heq => hne heq.right.symm, hblock.content_new hr]
  have hinode : (s₂.put dev block bh).inode = s.inode := hblock.inode.trans hquiet.inode
  refine ⟨hpath, ?_, hsound.fresh hfresh, ?_, ?_, ?_, .inr ⟨k, l, p, (dev, block), rfl, hup, ?_⟩⟩
  . rw [Forest.ptr_cons_of_some hup]
    simp only [forest, hcontent, hempty]
    rfl
  . intro j m _ _
    simp only [forest, hinode]
  . intro j q b m hq hb hqm hnot
    have hbnew : ¬ (b.fst = dev ∧ b.snd = r) := by
      intro heq
      exact hsound.fresh hfresh j q hq (hb.trans (congrArg some (Prod.ext heq.left heq.right)))
    simp only [forest]
    by_cases hbb : b.fst = dev ∧ b.snd = block
    -- Only the path through this entry comes through the block.
    . have hbeq : b = (dev, block) := Prod.ext hbb.left hbb.right
      obtain ⟨rfl, rfl⟩ := hsound.unshared j inode q (l :: p) b hq hvalid hb (hbeq ▸ hup)
      have hm : m ≠ k := by
        rintro rfl
        exact hnot ⟨rfl, rfl⟩
      rw [hbeq, hself, hcontent]
      simp only [Function.update_of_ne hm]
    . rw [content_put, if_neg hbb, hblock.content hbnew, hquiet.content b.fst b.snd (ptr_spec hb).right]
  . intro m
    simp only [forest, hzeros]
    rfl
  . simp only [forest, hself, Function.update_self, zoneAt, if_neg hr]

omit [DecidableEq ι] in
theorem indexEntry_extends {s s' : Fs ι} {inode : ι} {k l r dev block : Nat} {p : List Nat} {create : Bool}
    (hsound : Sound s) (hpath : IsPath (k :: l :: p)) (hup : (forest s).ptr inode (l :: p) = some (dev, block))
    (h : indexEntry dev block k create s = .ok (r, s'))
    : Extends s s' inode (k :: l :: p) r := by
  have hdev : dev = (s.inode inode).iDev := (ptr_spec hup).left
  have hentry := Forest.ptr_cons_of_some (k := k) hup
  unfold indexEntry at h
  cases hcontent : s.content dev block with
  | none =>
    obtain ⟨bh, hread, _, huptodate⟩ := bread_eq_none hcontent
    rw [Machine.bind_of_eq_ok hread] at h
    obtain ⟨rfl, rfl⟩ := Machine.pure_eq_ok_iff.mp h
    refine .of_quiet (quiet_put_none hcontent huptodate) hsound hpath ?_
    rw [hentry]
    simp only [forest, hcontent]
    rfl
  | some data =>
    obtain ⟨bh, hread, hcount, huptodate, hdata⟩ := bread_eq_some hcontent
    have hquiet : Quiet s (s.put dev block bh) := quiet_put hcontent huptodate hdata
    have hold : (forest s).ptr inode (k :: l :: p) = zoneAt (s.inode inode).iDev (data k) := by
      rw [hentry, ← hdev]
      simp only [forest, hcontent]
    have hpos : 0 < bh.bCount := by omega
    rw [Machine.bind_of_eq_ok hread, if_pos rfl, Machine.bind_of_eq_ok (bData_eq (cache_put_self _ _ _ _)),
      hdata] at h
    split at h
    . next hcreate =>
      rw [Machine.bind_eq_ok_iff] at h
      obtain ⟨r', s₂, hnew, h⟩ := h
      have hblock := newBlock_of_eq_ok hnew
      have hcache : s₂.cache dev block = some bh := by
        rw [hblock.cache dev block, cache_put_self]
        rintro ⟨_, rfl⟩
        have hblock0 := (ptr_spec hup).right
        exact (hblock.fresh hblock0).left (hquiet.marked _ (hsound.marked _ _ _ (isPath_closed k l p hpath) hup))
      by_cases hr : r' = 0
      . subst hr
        have hcontent₂ : s₂.content dev block = some data := by
          rw [Fs.content, hcache]
          simp only [huptodate, if_true, hdata]
        simp only [ne_eq, not_true_eq_false, if_false] at h
        rw [Machine.bind_of_eq_ok (brelse_eq hcache hpos)] at h
        obtain ⟨rfl, rfl⟩ := Machine.pure_eq_ok_iff.mp h
        refine .of_quiet ?_ hsound hpath (hcreate.right ▸ hold)
        exact hquiet.trans (hblock.quiet.trans (quiet_put hcontent₂ huptodate hdata))
      . rw [if_pos hr, Machine.bind_of_eq_ok (store_eq hcache k r')] at h
        dsimp only at h
        rw [Machine.bind_of_eq_ok (brelse_eq (cache_put_self _ _ _ _) (by exact hpos)), put_put] at h
        obtain ⟨rfl, rfl⟩ := Machine.pure_eq_ok_iff.mp h
        have hinode : s₂.inode = s.inode := hblock.inode
        refine .of_links hsound hr (fun j => congrArg MInode.iDev (congrFun hinode j))
          (fun a ha => hblock.marked a (hquiet.marked a ha)) (hdev ▸ (hblock.fresh hr).right.left) ?_
        rw [← hdev]
        exact links_put hsound hquiet hblock hr hpath hup hcontent hcreate.right huptodate
          (congrArg (fun data => Function.update data k r') hdata)
    . rw [Machine.bind_of_eq_ok (brelse_eq (cache_put_self _ _ _ _) hpos), put_put] at h
      obtain ⟨rfl, rfl⟩ := Machine.pure_eq_ok_iff.mp h
      exact .of_quiet (quiet_put hcontent huptodate hdata) hsound hpath hold

end Steps

theorem isPath_pathOf {block : Nat} (h : block < 7 + 512 + 512 * 512) : IsPath (pathOf block) := by
  unfold pathOf
  split
  . exact .zone (by omega)
  . split
    . next hlt => exact .index hlt (.inl rfl)
    . exact .double (by omega) (by omega)

def blockOf : List Nat → Nat
  | [k] => k
  | [k, _] => 7 + k
  | [l, k, _] => 7 + 512 + (512 * k + l)
  | _ => 0

@[simp]
theorem blockOf_pathOf (block : Nat) : blockOf (pathOf block) = block := by
  unfold pathOf
  split
  . rfl
  . split
    . simp only [blockOf]
      omega
    . simp only [blockOf]
      omega

theorem pathOf_injective {b c : Nat} (h : pathOf b = pathOf c) : b = c := by
  rw [← blockOf_pathOf b, h, blockOf_pathOf]

theorem pathOf_ne_index (block : Nat)
    : pathOf block ≠ [7] ∧ pathOf block ≠ [8] ∧ ∀ k, pathOf block ≠ [k, 8] := by
  unfold pathOf
  split
  . refine ⟨?_, ?_, ?_⟩
    all_goals
      simp
      try omega
  . split
    . simp
    . simp

/--
What `create_block` does to the blocks of all files: the one that it is called for gets the zone that is
returned, and the others stay.
-/
structure Creates (s s' : Fs ι) (inode : ι) (block r : Nat) : Prop where
  sound : Sound s'
  here : (forest s').ptr inode (pathOf block) = zoneAt (s.inode inode).iDev r
  ptr : ∀ j c, c < 7 + 512 + 512 * 512 → ¬ (j = inode ∧ c = block) →
    (forest s').ptr j (pathOf c) = (forest s).ptr j (pathOf c)

theorem creates_of_extends {s s' : Fs ι} {inode : ι} {block r : Nat} (h : Extends s s' inode (pathOf block) r)
    : Creates s s' inode block r where
  sound := h.sound
  here := h.here
  ptr := by
    intro j c hc hne
    exact h.ptr j _ (isPath_pathOf hc) fun heq => hne ⟨heq.left, pathOf_injective heq.right⟩

theorem Creates.after {s s₁ s' : Fs ι} {inode : ι} {block r z : Nat} {p : List Nat} (h : Creates s₁ s' inode block r)
    (hp : ∀ c, pathOf c ≠ p) (h₁ : Extends s s₁ inode p z)
    : Creates s s' inode block r where
  sound := h.sound
  here := by rw [h.here, h₁.dev]
  ptr := by
    intro j c hc hne
    rw [h.ptr j c hc hne]
    exact h₁.ptr j _ (isPath_pathOf hc) fun heq => hp c heq.right

theorem creates_of_none {s : Fs ι} {inode : ι} {block : Nat} (hsound : Sound s)
    (h : (forest s).ptr inode (pathOf block) = none)
    : Creates s s inode block 0 where
  sound := hsound
  here := h
  ptr := fun _ _ _ _ => rfl

theorem pathOf_direct {block : Nat} (h : block < 7) : pathOf block = [block] :=
  if_pos h

theorem pathOf_index {block : Nat} (h : ¬ block < 7) (h' : block - 7 < 512) : pathOf block = [block - 7, 7] := by
  rw [pathOf, if_neg h, if_pos h']

theorem pathOf_double {block : Nat} (h : ¬ block < 7) (h' : ¬ block - 7 < 512)
    : pathOf block = [(block - 7 - 512) % 512, (block - 7 - 512) / 512, 8] := by
  rw [pathOf, if_neg h, if_neg h']

theorem ptr_zone {s : Fs ι} {inode : ι} {k : Nat} (h : (s.inode inode).iZone k ≠ 0)
    : (forest s).ptr inode [k] = some ((s.inode inode).iDev, (s.inode inode).iZone k) :=
  if_neg h

theorem ptr_zone_none {s : Fs ι} {inode : ι} {k : Nat} (h : (s.inode inode).iZone k = 0)
    : (forest s).ptr inode [k] = none :=
  if_pos h

theorem ptr_above_none {s : Fs ι} {inode : ι} {k l : Nat} {p : List Nat}
    (h : (forest s).ptr inode (l :: p) = none)
    : (forest s).ptr inode (k :: l :: p) = none :=
  Forest.ptr_cons_of_none h

theorem bmap_creates [DecidableEq ι] {s s' : Fs ι} {inode : ι} {block r : Nat} {create : Bool} (hsound : Sound s)
    (hblock : block < 7 + 512 + 512 * 512) (h : _bmap inode block create s = .ok (r, s'))
    : Creates s s' inode block r := by
  have hpath := isPath_pathOf hblock
  unfold _bmap at h
  rw [if_neg (by omega), if_neg (by omega)] at h
  simp only [Int.toNat_natCast] at h
  split at h
  . next hdirect =>
    rw [Machine.bind_eq_ok_iff] at h
    obtain ⟨_, s₁, hzone, h⟩ := h
    rw [Machine.bind_of_eq_ok Machine.get_eq] at h
    obtain ⟨rfl, rfl⟩ := Machine.pure_eq_ok_iff.mp h
    apply creates_of_extends
    rw [pathOf_direct hdirect]
    exact createZone_extends hsound (by omega) hzone
  . next hindirect =>
    split at h
    . next hindex =>
      rw [Machine.bind_eq_ok_iff] at h
      obtain ⟨_, s₁, hzone, h⟩ := h
      rw [Machine.bind_of_eq_ok Machine.get_eq] at h
      have hfirst := createZone_extends hsound (show 7 < 9 by omega) hzone
      have hpathOf := pathOf_index hindirect hindex
      refine Creates.after ?_ (fun c => (pathOf_ne_index c).left) hfirst
      split at h
      . next hnone =>
        obtain ⟨rfl, rfl⟩ := Machine.pure_eq_ok_iff.mp h
        apply creates_of_none hfirst.sound
        rw [hpathOf]
        exact ptr_above_none (ptr_zone_none hnone)
      . next hsome =>
        apply creates_of_extends
        rw [hpathOf] at hpath ⊢
        exact indexEntry_extends hfirst.sound hpath (ptr_zone hsome) h
    . next hdouble =>
      rw [Machine.bind_eq_ok_iff] at h
      obtain ⟨_, s₁, hzone, h⟩ := h
      rw [Machine.bind_of_eq_ok Machine.get_eq] at h
      have hfirst := createZone_extends hsound (show 8 < 9 by omega) hzone
      have hpathOf := pathOf_double hindirect hdouble
      refine Creates.after ?_ (fun c => (pathOf_ne_index c).right.left) hfirst
      split at h
      . next hnone =>
        obtain ⟨rfl, rfl⟩ := Machine.pure_eq_ok_iff.mp h
        apply creates_of_none hfirst.sound
        rw [hpathOf]
        exact ptr_above_none (ptr_above_none (ptr_zone_none hnone))
      . next hsome =>
        rw [Machine.bind_eq_ok_iff] at h
        obtain ⟨i, s₂, hentry, h⟩ := h
        rw [hpathOf] at hpath
        have hsecond := indexEntry_extends hfirst.sound (isPath_closed _ _ _ hpath) (ptr_zone hsome) hentry
        refine Creates.after ?_ (fun c => (pathOf_ne_index c).right.right _) hsecond
        split at h
        . next hnone =>
          obtain ⟨rfl, rfl⟩ := Machine.pure_eq_ok_iff.mp h
          apply creates_of_none hsecond.sound
          rw [hpathOf]
          refine ptr_above_none (hsecond.here.trans ?_)
          rw [hnone]
          rfl
        . next hsome' =>
          apply creates_of_extends
          rw [hpathOf]
          refine indexEntry_extends hsecond.sound hpath (hsecond.here.trans ?_) h
          rw [zoneAt, if_neg hsome']

theorem indexEntry_eq (s : Fs ι) {inode : ι} {k l dev block : Nat} {p : List Nat}
    (hup : (forest s).ptr inode (l :: p) = some (dev, block))
    : ∃ s', indexEntry dev block k false s = .ok (zoneOf ((forest s).ptr inode (k :: l :: p)), s')
        ∧ Quiet s s' := by
  rw [Forest.ptr_cons_of_some hup]
  unfold indexEntry
  cases hcontent : s.content dev block with
  | none =>
    obtain ⟨bh, hread, _, huptodate⟩ := bread_eq_none hcontent
    refine ⟨_, ?_, quiet_put_none hcontent huptodate⟩
    rw [Machine.bind_of_eq_ok hread]
    simp only [forest, hcontent]
    rfl
  | some data =>
    obtain ⟨bh, hread, hcount, huptodate, hdata⟩ := bread_eq_some hcontent
    have hpos : 0 < bh.bCount := by omega
    refine ⟨s.put dev block { bh with bCount := bh.bCount - 1 }, ?_, quiet_put hcontent huptodate hdata⟩
    rw [Machine.bind_of_eq_ok hread, if_pos rfl, Machine.bind_of_eq_ok (bData_eq (cache_put_self _ _ _ _)),
      if_neg (by simp), Machine.bind_of_eq_ok (brelse_eq (cache_put_self _ _ _ _) hpos), put_put, hdata]
    simp only [forest, hcontent, zoneAt]
    split
    . next hzero =>
      rw [hzero]
      rfl
    . rfl

theorem createZone_eq [DecidableEq ι] (s : Fs ι) (inode : ι) (k : Nat)
    : createZone inode k false s = .ok ((), s) := by
  unfold createZone
  rw [Machine.bind_of_eq_ok Machine.get_eq]
  simp only [Bool.false_eq_true, false_and, if_false]
  rfl

theorem bmap_eq [DecidableEq ι] (s : Fs ι) (inode : ι) {block : Nat} (hblock : block < 7 + 512 + 512 * 512)
    : ∃ s', bmap inode block s = .ok (zoneOf ((forest s).ptr inode (pathOf block)), s') := by
  have hpath : IsPath (pathOf block) := isPath_pathOf hblock
  unfold bmap _bmap
  rw [if_neg (by omega), if_neg (by omega)]
  simp only [Int.toNat_natCast]
  split
  . next hdirect =>
    rw [Machine.bind_of_eq_ok (createZone_eq s inode _), Machine.bind_of_eq_ok Machine.get_eq, pathOf_direct hdirect]
    refine ⟨s, ?_⟩
    rw [Machine.pure_eq]
    by_cases hzero : (s.inode inode).iZone block = 0
    . rw [ptr_zone_none hzero, hzero]
      rfl
    . rw [ptr_zone hzero]
      rfl
  . next hindirect =>
    split
    . next hindex =>
      rw [pathOf_index hindirect hindex]
      rw [Machine.bind_of_eq_ok (createZone_eq s inode _), Machine.bind_of_eq_ok Machine.get_eq]
      split
      . next hnone => exact ⟨s, by rw [ptr_above_none (ptr_zone_none hnone)]; rfl⟩
      . next hsome =>
        obtain ⟨s', hentry, _⟩ := indexEntry_eq s (ptr_zone hsome)
        exact ⟨s', hentry⟩
    . next hdouble =>
      rw [pathOf_double hindirect hdouble] at hpath ⊢
      rw [Machine.bind_of_eq_ok (createZone_eq s inode _), Machine.bind_of_eq_ok Machine.get_eq]
      split
      . next hnone => exact ⟨s, by rw [ptr_above_none (ptr_above_none (ptr_zone_none hnone))]; rfl⟩
      . next hsome =>
        have hmid := isPath_closed _ _ _ hpath
        obtain ⟨s₁, hentry, hquiet⟩ := indexEntry_eq s (ptr_zone hsome)
        rw [Machine.bind_of_eq_ok hentry]
        cases hptr : (forest s).ptr inode [(block - 7 - 512) / 512, 8] with
        | none => exact ⟨s₁, by rw [ptr_above_none hptr]; rfl⟩
        | some a =>
          obtain ⟨hdev, hne⟩ := ptr_spec hptr
          have hup : (forest s₁).ptr inode [(block - 7 - 512) / 512, 8] = some ((s.inode inode).iDev, a.snd) := by
            rw [hquiet.ptr inode hmid, hptr, ← hdev]
          obtain ⟨s₂, hentry₂, _⟩ := indexEntry_eq s₁ hup
          rw [hquiet.ptr inode hpath] at hentry₂
          refine ⟨s₂, ?_⟩
          rw [show zoneOf (some a) = a.snd from rfl, if_neg hne]
          exact hentry₂

-- What `bmap` returns, where it returns.
def bmapResult [DecidableEq ι] (s : Fs ι) (inode : ι) (block : Nat) : Option Nat :=
  match bmap inode block s with
  | .ok (zone, _) => some zone
  | .error _ => none

theorem bmapResult_eq [DecidableEq ι] (s : Fs ι) (inode : ι) {block : Nat} (hblock : block < 7 + 512 + 512 * 512)
    : bmapResult s inode block = some (zoneOf ((forest s).ptr inode (pathOf block))) := by
  obtain ⟨s', hbmap⟩ := bmap_eq s inode hblock
  rw [bmapResult, hbmap]

theorem bmapResult_big [DecidableEq ι] (s : Fs ι) (inode : ι) {block : Nat} (hblock : ¬ block < 7 + 512 + 512 * 512)
    : bmapResult s inode block = none := by
  unfold bmapResult bmap _bmap
  rw [if_neg (by omega), if_pos (by omega)]
  rfl

/--
`create_block` keeps the zones of all files apart and marked, `bmap` then returns its result, and returns for
every other block of this and of every other file what it returned before. This holds whatever the call finds:
a zone, no zone at any of the three levels, or an index block that cannot be read.
-/
theorem createBlock_sound [DecidableEq ι] {s s' : Fs ι} {inode : ι} {block r : Nat} (hsound : Sound s)
    (hblock : block < 7 + 512 + 512 * 512) (h : createBlock inode block s = .ok (r, s'))
    : Sound s' ∧ bmapResult s' inode block = some r
        ∧ ∀ j c, ¬ (j = inode ∧ c = block) → bmapResult s' j c = bmapResult s j c := by
  have hcreates := bmap_creates hsound hblock h
  refine ⟨hcreates.sound, ?_, ?_⟩
  . rw [bmapResult_eq s' inode hblock, hcreates.here, zoneAt]
    split
    . next hzero =>
      rw [hzero]
      rfl
    . rfl
  . intro j c hne
    by_cases hc : c < 7 + 512 + 512 * 512
    . rw [bmapResult_eq s' j hc, bmapResult_eq s j hc, hcreates.ptr j c hc hne]
    . rw [bmapResult_big s' j hc, bmapResult_big s j hc]

def emptyFs : Fs Unit where
  superBlock := fun dev =>
    if dev = 1 then
      some {
        sNinodes := 32
        sNzones := 20
        sImapBlocks := 1
        sZmapBlocks := 1
        sFirstdatazone := 5
        sImap := fun _ => none
        sZmap := fun i => if i = 0 then some { bData := fun k => if k = 0 then 1 else 0, bDirt := false } else none
        sImount := none
      }
    else
      none
  cache := fun _ _ => none
  disk := fun _ _ => some fun _ => 0
  inode := fun _ =>
    { iMode := 0, iUid := 0, iSize := 0, iMtime := 0, iGid := 0, iNlinks := 1, iZone := fun _ => 0
      iAtime := 0, iCtime := 0, iDev := 1, iNum := 2, iCount := 1, iDirt := false, iPipe := false
      iMount := false }
  CURRENT_TIME := 0
  cleared := []

theorem emptyFs_ptr (p : List Nat) : (forest emptyFs).ptr () p = none := by
  induction p with
  | nil => rfl
  | cons k p ih =>
    cases p with
    | nil => rfl
    | cons l p => exact Forest.ptr_cons_of_none ih

theorem emptyFs_sound : Sound emptyFs where
  unshared := by
    intro i j p q a _ _ ha
    rw [emptyFs_ptr] at ha
    cases ha
  marked := by
    intro i p a _ ha
    rw [emptyFs_ptr] at ha
    cases ha

-- A block behind two index blocks takes the zones 5, 6 and 7.
theorem createBlock_sound_emptyFs
    : ∃ s', createBlock () (600 : Nat) emptyFs = .ok (7, s')
        ∧ Sound s' ∧ bmapResult s' () 600 = some 7
        ∧ ∀ j c, ¬ (j = () ∧ c = 600) → bmapResult s' j c = bmapResult emptyFs j c := by
  have hrun : (createBlock () (600 : Nat) emptyFs).toOption.map Prod.fst = some 7 := by decide +kernel
  rw [Option.map_eq_some_iff] at hrun
  obtain ⟨⟨r, s'⟩, hok, hr⟩ := hrun
  cases hr
  have hcall := Run.ok_of_toOption hok
  exact ⟨s', hcall, createBlock_sound emptyFs_sound (by decide) hcall⟩

end Paths

end Minix
end OS
