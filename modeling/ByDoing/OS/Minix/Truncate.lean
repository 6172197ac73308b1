import Mathlib.Data.List.Nodup
import ByDoing.OS.Minix.Bmap

namespace OS
namespace Minix

def S_IFMT : Nat := 0o170000
def S_IFREG : Nat := 0o100000
def S_IFDIR : Nat := 0o040000

def S_ISREG (mode : Nat) : Bool :=
  mode &&& S_IFMT == S_IFREG

def S_ISDIR (mode : Nat) : Bool :=
  mode &&& S_IFMT == S_IFDIR

section Code

variable {ι : Type}

-- The code of `free_ind` and `free_dind`, which differ in what they do to an entry.
def freeIndex (free_entry : Nat → Nat → Call ι Unit) (dev block : Nat) : Call ι Unit := do
  if block = 0 then return
  if ← bread dev block then
    forM (List.range 512) fun i => do
      let zone := (← bData dev block) i
      if zone ≠ 0 then free_entry dev zone
    brelse dev block
  freeBlock dev block

def freeInd : Nat → Nat → Call ι Unit :=
  freeIndex freeBlock

def freeDind : Nat → Nat → Call ι Unit :=
  freeIndex freeInd

variable [DecidableEq ι]

def freeDirect (inode : ι) (i : Nat) : Call ι Unit := do
  let m := (← get).inode inode
  if m.iZone i ≠ 0 then
    freeBlock m.iDev (m.iZone i)
    modify fun s => s.setInode inode fun m => { m with iZone := Function.update m.iZone i 0 }

def truncate (inode : ι) : Call ι Unit := do
  let m := (← get).inode inode
  if !(S_ISREG m.iMode || S_ISDIR m.iMode) then return
  forM (List.range 7) (freeDirect inode)
  let m := (← get).inode inode
  freeInd m.iDev (m.iZone 7)
  freeDind m.iDev (m.iZone 8)
  modify fun s => s.setInode inode fun m =>
    { m with
      iZone := Function.update (Function.update m.iZone 8 0) 7 0
      iSize := 0
      iDirt := true
      iMtime := s.CURRENT_TIME
      iCtime := s.CURRENT_TIME }

end Code

section Freeing

variable {ι : Type}

def Taken (s : Fs ι) (dev zone : Nat) : Prop :=
  ∃ sb, getSuper s dev = some sb ∧ sb.sFirstdatazone ≤ zone ∧ zone < sb.sNzones
    ∧ mapBit sb.sZmap (zone + 1 - sb.sFirstdatazone) = true

-- A zone that `free_block` takes back: nobody uses its buffer.
def Freeable (s : Fs ι) (dev zone : Nat) : Prop :=
  Taken s dev zone ∧ s.count dev zone = 0

structure Releases (s s' : Fs ι) (dev : Nat) (zones : List Nat) : Prop where
  disk : s'.disk = s.disk
  time : s'.CURRENT_TIME = s.CURRENT_TIME
  count : s'.count = s.count
  cache : ∀ d z, ¬ (d = dev ∧ z ∈ zones) → s'.cache d z = s.cache d z
  cleared : s'.cleared = (zones.map fun z => (dev, z)).reverse ++ s.cleared
  marked : ∀ a, (a.fst = dev → a.snd ∉ zones) → (s'.Marked a ↔ s.Marked a)
  unmarked : ∀ z ∈ zones, ¬ s'.Marked (dev, z)
  taken : ∀ z, z ∉ zones → Taken s dev z → Taken s' dev z

theorem mapBit_clear {maps : Nat → Option Bitmap} {n : Nat} {m : Bitmap} (hmap : maps (n / 8192) = some m) (n' : Nat)
    : mapBit (Function.update maps (n / 8192) (some (m.clearBit (n % 8192)))) n'
        = (!decide (n' = n) && mapBit maps n') := by
  have hlt : n % 8192 < 8192 := Nat.mod_lt n (by decide)
  have hbit : ∀ nr, nr ≠ n % 8192 → (m.clearBit (n % 8192)).bit nr = m.bit nr := by
    intro nr hnr
    simp [hnr]
  rw [mapBit_update hmap hlt hbit, show n % 8192 + n / 8192 * 8192 = n by omega]
  split
  . next heq => simp [heq]
  . next hne => simp [hne]

theorem freed_superBlock {s : Fs ι} {dev block n : Nat} {sb : SuperBlock ι} {m : Bitmap}
    (hsuper : s.superBlock dev = some sb)
    : (freed s dev block n m).superBlock dev
        = some { sb with sZmap := Function.update sb.sZmap (n / 8192) (some (m.clearBit (n % 8192))) } := by
  simp [freed, Fs.setZmap, hsuper]

theorem freed_superBlock_of_ne {s : Fs ι} {dev block n d : Nat} {m : Bitmap} (hd : d ≠ dev)
    : (freed s dev block n m).superBlock d = s.superBlock d := by
  simp [freed, Fs.setZmap, hd]

theorem getSuper_eq_some {s : Fs ι} {dev : Nat} {sb : SuperBlock ι}
    : getSuper s dev = some sb ↔ dev ≠ 0 ∧ s.superBlock dev = some sb := by
  simp [getSuper]

theorem freeBlock_releases {s : Fs ι} {dev zone : Nat} (h : Freeable s dev zone)
    : ∃ s', freeBlock dev zone s = .ok ((), s') ∧ Releases s s' dev [zone] ∧ s'.inode = s.inode := by
  obtain ⟨⟨sb, hget, hfirst, hzones, hbit⟩, hcount⟩ := h
  obtain ⟨hdev, hsuper⟩ := getSuper_eq_some.mp hget
  have hmap : ∃ m, sb.sZmap ((zone + 1 - sb.sFirstdatazone) / 8192) = some m
      ∧ m.bit ((zone + 1 - sb.sFirstdatazone) % 8192) = true := by
    unfold mapBit at hbit
    split at hbit
    . next m hm => exact ⟨m, hm, hbit⟩
    . cases hbit
  obtain ⟨m, hmap, hset⟩ := hmap
  have hnew : (freed s dev zone (zone + 1 - sb.sFirstdatazone) m).superBlock dev = _ := freed_superBlock hsuper
  refine ⟨_, freeBlock_eq hget ⟨hfirst, hzones⟩ hcount hmap hset, ?_, inode_discard s dev zone⟩
  refine ⟨disk_discard s dev zone, time_discard s dev zone, count_discard s dev zone, ?_, rfl, ?_, ?_, ?_⟩
  . intro d z hne
    rw [List.mem_singleton] at hne
    exact cache_discard_of_ne s hne
  . intro a ha
    unfold Fs.Marked
    by_cases hd : a.fst = dev
    . have hne := ha hd
      rw [List.mem_singleton] at hne
      simp only [hd, hnew, hsuper, Option.some.injEq, exists_eq_left', mapBit_clear hmap]
      constructor
      . rintro ⟨hle, hset'⟩
        exact ⟨hle, (Bool.and_eq_true_iff.mp hset').right⟩
      . rintro ⟨hle, hset'⟩
        have hn : a.snd + 1 - sb.sFirstdatazone ≠ zone + 1 - sb.sFirstdatazone := by omega
        exact ⟨hle, by simp [hn, hset']⟩
    . rw [freed_superBlock_of_ne hd]
  . intro z hz
    rw [List.mem_singleton] at hz
    subst hz
    unfold Fs.Marked
    simp [hnew, mapBit_clear hmap]
  . rintro z hz ⟨sb', hget', hfirst', hzones', hbit'⟩
    cases hget.symm.trans hget'
    rw [List.mem_singleton] at hz
    have hn : z + 1 - sb.sFirstdatazone ≠ zone + 1 - sb.sFirstdatazone := by omega
    refine ⟨_, getSuper_eq_some.mpr ⟨hdev, hnew⟩, hfirst', hzones', ?_⟩
    simp [mapBit_clear hmap, hn, hbit']

namespace Releases

variable {s s₁ s' : Fs ι} {dev : Nat} {zones zones' : List Nat}

theorem refl (s : Fs ι) (dev : Nat) : Releases s s dev [] where
  disk := rfl
  time := rfl
  count := rfl
  cache := fun _ _ _ => rfl
  cleared := rfl
  marked := fun _ _ => Iff.rfl
  unmarked := fun z hz => by cases hz
  taken := fun _ _ h => h

theorem trans (h : Releases s s₁ dev zones) (h₁ : Releases s₁ s' dev zones') : Releases s s' dev (zones ++ zones') where
  disk := h₁.disk.trans h.disk
  time := h₁.time.trans h.time
  count := h₁.count.trans h.count
  cache := by
    intro d z hne
    rw [List.mem_append] at hne
    rw [h₁.cache d z fun heq => hne ⟨heq.left, .inr heq.right⟩, h.cache d z fun heq => hne ⟨heq.left, .inl heq.right⟩]
  cleared := by simp [h₁.cleared, h.cleared]
  marked := by
    intro a ha
    rw [h₁.marked a fun hd hmem => ha hd (List.mem_append_right zones hmem),
      h.marked a fun hd hmem => ha hd (List.mem_append_left zones' hmem)]
  unmarked := by
    intro z hz
    by_cases hz' : z ∈ zones'
    . exact h₁.unmarked z hz'
    . rw [h₁.marked (dev, z) fun _ => hz']
      exact h.unmarked z ((List.mem_append.mp hz).resolve_right hz')
  taken := by
    intro z hz htaken
    rw [List.mem_append, not_or] at hz
    exact h₁.taken z hz.right (h.taken z hz.left htaken)

theorem content (h : Releases s s' dev zones) {d z : Nat} (hne : ¬ (d = dev ∧ z ∈ zones))
    : s'.content d z = s.content d z := by
  rw [Fs.content, Fs.content, h.cache d z hne, h.disk]

theorem freeable (h : Releases s s' dev zones) {z : Nat} (hz : z ∉ zones) (hfree : Freeable s dev z)
    : Freeable s' dev z :=
  ⟨h.taken z hz hfree.left, by rw [h.count, hfree.right]⟩

theorem around {bh bh' : BufferHead} {block : Nat} (h : Releases (s.put dev block bh) s₁ dev zones)
    (hcount : bh'.bCount = s.count dev block)
    (h₁ : Releases (s₁.put dev block bh') s' dev [block])
    : Releases s s' dev (zones ++ [block]) where
  disk := h₁.disk.trans h.disk
  time := h₁.time.trans h.time
  count := by
    rw [h₁.count]
    funext d z
    rw [count_put, h.count, count_put]
    split
    . next heq => rw [hcount, heq.left, heq.right]
    . rfl
  cache := by
    intro d z hne
    rw [List.mem_append, List.mem_singleton] at hne
    have hother : ¬ (d = dev ∧ z = block) := fun heq => hne ⟨heq.left, .inr heq.right⟩
    rw [h₁.cache d z (by rwa [List.mem_singleton]), cache_put, if_neg hother,
      h.cache d z fun heq => hne ⟨heq.left, .inl heq.right⟩, cache_put, if_neg hother]
  cleared := by
    rw [h₁.cleared, show (s₁.put dev block bh').cleared = s₁.cleared from rfl, h.cleared]
    simp [Fs.put]
  marked := by
    intro a ha
    rw [h₁.marked a fun hd hmem => ha hd (List.mem_append_right zones hmem)]
    exact h.marked a fun hd hmem => ha hd (List.mem_append_left _ hmem)
  unmarked := by
    intro z hz
    by_cases hz' : z ∈ [block]
    . exact h₁.unmarked z hz'
    . rw [h₁.marked (dev, z) fun _ => hz']
      exact h.unmarked z ((List.mem_append.mp hz).resolve_right hz')
  taken := by
    intro z hz htaken
    rw [List.mem_append, not_or] at hz
    exact h₁.taken z hz.right (h.taken z hz.left htaken)

end Releases

theorem forM_releases {s : Fs ι} {dev : Nat} {body : Nat → Call ι Unit} {zones : Nat → List Nat} {is : List Nat}
    (hbody : ∀ pre i post, is = pre ++ i :: post → ∀ s₁, Releases s s₁ dev (pre.flatMap zones) →
      ∃ s₂, body i s₁ = .ok ((), s₂) ∧ Releases s₁ s₂ dev (zones i) ∧ s₂.inode = s₁.inode)
    : ∃ s', forM is body s = .ok ((), s') ∧ Releases s s' dev (is.flatMap zones) ∧ s'.inode = s.inode := by
  suffices hpre : ∀ pre post, is = pre ++ post →
      ∃ s', forM pre body s = .ok ((), s') ∧ Releases s s' dev (pre.flatMap zones) ∧ s'.inode = s.inode from
    hpre is [] (List.append_nil is).symm
  intro pre
  induction pre using List.reverseRecOn with
  | nil =>
    intro post _
    exact ⟨s, rfl, .refl s dev, rfl⟩
  | append_singleton pre i ih =>
    intro post his
    rw [List.append_assoc, List.singleton_append] at his
    obtain ⟨s₁, hrun, hreleases, hinode⟩ := ih (i :: post) his
    obtain ⟨s₂, hrun₂, hreleases₂, hinode₂⟩ := hbody pre i post his s₁ hreleases
    refine ⟨s₂, ?_, ?_, hinode₂.trans hinode⟩
    . rw [List.forM_append, Machine.bind_of_eq_ok hrun, List.forM_cons, Machine.bind_of_eq_ok hrun₂]
      rfl
    . rw [List.flatMap_append, List.flatMap_singleton]
      exact hreleases.trans hreleases₂

def entryZones (data : Block) (zonesOf : Nat → List Nat) (i : Nat) : List Nat :=
  if data i = 0 then [] else zonesOf (data i)

def levelZones (s : Fs ι) (dev : Nat) (zonesOf : Nat → List Nat) (block : Nat) : List Nat :=
  if block = 0 then
    []
  else
    (List.range 512).flatMap (entryZones ((s.content dev block).getD fun _ => 0) zonesOf) ++ [block]

def indZones (s : Fs ι) (dev : Nat) : Nat → List Nat :=
  levelZones s dev fun zone => [zone]

def dindZones (s : Fs ι) (dev : Nat) : Nat → List Nat :=
  levelZones s dev (indZones s dev)

/--
A function that gives back the zones `zonesOf zone`, in any state where these are still as in `s`.
-/
def FreesEntry (s : Fs ι) (dev : Nat) (free_entry : Nat → Nat → Call ι Unit) (zonesOf : Nat → List Nat) : Prop :=
  ∀ zone s₁, zone ≠ 0 → (zonesOf zone).Nodup → s₁.disk = s.disk →
    (∀ z ∈ zonesOf zone, s₁.content dev z = s.content dev z ∧ Freeable s₁ dev z) →
    ∃ s₂, free_entry dev zone s₁ = .ok ((), s₂) ∧ Releases s₁ s₂ dev (zonesOf zone) ∧ s₂.inode = s₁.inode

theorem freeBlock_freesEntry (s : Fs ι) (dev : Nat) : FreesEntry s dev freeBlock fun zone => [zone] := by
  intro zone s₁ _ _ _ hzones
  exact freeBlock_releases (hzones zone (List.mem_singleton_self zone)).right

theorem content_of_disk {s : Fs ι} {dev block : Nat} (h : s.disk dev block ≠ none)
    : ∃ data, s.content dev block = some data := by
  unfold Fs.content
  split
  . split
    . exact ⟨_, rfl⟩
    . exact Option.ne_none_iff_exists'.mp h
  . exact Option.ne_none_iff_exists'.mp h

theorem free_entries_releases {s : Fs ι} {dev block : Nat} {free_entry : Nat → Nat → Call ι Unit}
    {zonesOf : Nat → List Nat} {bh : BufferHead} (hcache : s.cache dev block = some bh)
    (hentry : FreesEntry s dev free_entry zonesOf)
    (hnodup : ((List.range 512).flatMap (entryZones bh.bData zonesOf)).Nodup)
    (hblock : block ∉ (List.range 512).flatMap (entryZones bh.bData zonesOf))
    (hzones : ∀ z ∈ (List.range 512).flatMap (entryZones bh.bData zonesOf), Freeable s dev z)
    : ∃ s', (forM (List.range 512) fun i => do
          let zone := (← bData dev block) i
          if zone ≠ 0 then free_entry dev zone) s = .ok ((), s')
        ∧ Releases s s' dev ((List.range 512).flatMap (entryZones bh.bData zonesOf)) ∧ s'.inode = s.inode := by
  apply forM_releases
  intro pre i post his s₁ hreleases
  rw [his, List.flatMap_append, List.flatMap_cons] at hnodup hblock hzones
  have hcache₁ : s₁.cache dev block = some bh := by
    rw [hreleases.cache, hcache]
    exact fun heq => hblock (List.mem_append_left _ heq.right)
  rw [Machine.bind_of_eq_ok (bData_eq hcache₁)]
  unfold entryZones at hnodup hzones hreleases ⊢
  by_cases hzero : bh.bData i = 0
  . refine ⟨s₁, ?_, ?_, rfl⟩
    . rw [if_neg (by simp [hzero])]
      rfl
    . rw [if_pos hzero]
      exact .refl s₁ dev
  . rw [if_pos hzero, if_neg hzero]
    rw [if_neg hzero] at hnodup hzones
    obtain ⟨_, hrest, hdisjoint⟩ := List.nodup_append.mp hnodup
    refine hentry _ s₁ hzero (List.nodup_append.mp hrest).left hreleases.disk ?_
    intro z hz
    have hnew : z ∉ pre.flatMap fun i => if bh.bData i = 0 then [] else zonesOf (bh.bData i) := by
      intro hpre
      exact hdisjoint z hpre z (List.mem_append_left _ hz) rfl
    refine ⟨hreleases.content fun heq => hnew heq.right, hreleases.freeable hnew ?_⟩
    exact hzones z (List.mem_append_right _ (List.mem_append_left _ hz))

theorem freeIndex_releases {s : Fs ι} {dev block : Nat} {free_entry : Nat → Nat → Call ι Unit}
    {zonesOf : Nat → List Nat} (hdisk : ∀ d z, s.disk d z ≠ none) (hentry : FreesEntry s dev free_entry zonesOf)
    (hnodup : (levelZones s dev zonesOf block).Nodup)
    (hzones : ∀ z ∈ levelZones s dev zonesOf block, Freeable s dev z)
    : ∃ s', freeIndex free_entry dev block s = .ok ((), s')
        ∧ Releases s s' dev (levelZones s dev zonesOf block) ∧ s'.inode = s.inode := by
  unfold freeIndex
  unfold levelZones at hnodup hzones ⊢
  by_cases hblock : block = 0
  . refine ⟨s, ?_, ?_, rfl⟩
    . rw [if_pos hblock]
      rfl
    . rw [if_pos hblock]
      exact .refl s dev
  . obtain ⟨data, hcontent⟩ := content_of_disk (hdisk dev block)
    rw [if_neg hblock, hcontent, Option.getD_some] at hnodup hzones
    rw [if_neg hblock, if_neg hblock, hcontent, Option.getD_some]
    obtain ⟨bh, hread, hcount, huptodate, rfl⟩ := bread_eq_some hcontent
    rw [Machine.bind_of_eq_ok hread, if_pos rfl]
    obtain ⟨hchildren, _, hdisjoint⟩ := List.nodup_append.mp hnodup
    have hnot : block ∉ (List.range 512).flatMap (entryZones bh.bData zonesOf) := by
      intro hmem
      exact hdisjoint block hmem block (List.mem_singleton_self block) rfl
    have hself : Freeable s dev block := hzones block (List.mem_append_right _ (List.mem_singleton_self block))
    have hcontents : (s.put dev block bh).content = s.content := content_put_of_eq hcontent huptodate rfl
    have hentry₁ : FreesEntry (s.put dev block bh) dev free_entry zonesOf := by
      unfold FreesEntry
      rw [hcontents]
      exact hentry
    have hzones₁ : ∀ z ∈ (List.range 512).flatMap (entryZones bh.bData zonesOf),
        Freeable (s.put dev block bh) dev z := by
      intro z hz
      obtain ⟨htaken, hidle⟩ := hzones z (List.mem_append_left _ hz)
      refine ⟨htaken, ?_⟩
      rw [count_put, if_neg, hidle]
      rintro ⟨_, rfl⟩
      exact hnot hz
    obtain ⟨s₂, hloop, hreleases, hinode⟩ :=
      free_entries_releases (cache_put_self s dev block bh) hentry₁ hchildren hnot hzones₁
    have hcache₂ : s₂.cache dev block = some bh := by
      rw [hreleases.cache _ _ fun heq => hnot heq.right, cache_put_self]
    have hpos : 0 < bh.bCount := by omega
    have hfree : Freeable (s₂.put dev block { bh with bCount := bh.bCount - 1 }) dev block := by
      refine ⟨hreleases.taken block hnot hself.left, ?_⟩
      rw [count_put, if_pos ⟨rfl, rfl⟩, hcount, hself.right]
    obtain ⟨s₄, hlast, hreleases₄, hinode₄⟩ := freeBlock_releases hfree
    refine ⟨s₄, ?_, hreleases.around ?_ hreleases₄, hinode₄.trans hinode⟩
    . rw [Machine.bind_of_eq_ok hloop, Machine.bind_of_eq_ok (brelse_eq hcache₂ hpos)]
      exact hlast
    . rw [hcount]
      rfl

theorem freeInd_freesEntry {s : Fs ι} (hdisk : ∀ d z, s.disk d z ≠ none) (dev : Nat)
    : FreesEntry s dev freeInd (indZones s dev) := by
  intro zone s₁ hzone hnodup hdisk₁ hzones
  have hself : zone ∈ indZones s dev zone := by
    unfold indZones levelZones
    rw [if_neg hzone]
    exact List.mem_append_right _ (List.mem_singleton_self zone)
  have hlevel : indZones s₁ dev zone = indZones s dev zone := by
    unfold indZones levelZones
    rw [(hzones zone hself).left]
  rw [← hlevel] at hnodup hzones ⊢
  refine freeIndex_releases ?_ (freeBlock_freesEntry s₁ dev) hnodup fun z hz => (hzones z hz).right
  intro d z
  rw [hdisk₁]
  exact hdisk d z

def directZones (m : MInode) (n : Nat) : List Nat :=
  (List.range n).flatMap (entryZones m.iZone fun zone => [zone])

theorem directZones_succ (m : MInode) (n : Nat)
    : directZones m (n + 1) = directZones m n ++ entryZones m.iZone (fun zone => [zone]) n := by
  rw [directZones, List.range_succ, List.flatMap_append, List.flatMap_singleton]
  rfl

-- The inode after `n` rounds of the loop over the direct zones.
def clearedInode (m : MInode) (n : Nat) : MInode :=
  { m with iZone := fun k => if k < n then 0 else m.iZone k }

theorem clearedInode_zero (m : MInode) : clearedInode m 0 = m := by
  simp [clearedInode]

theorem iZone_clearedInode (m : MInode) (n : Nat) : (clearedInode m n).iZone n = m.iZone n := by
  simp [clearedInode]

theorem clearedInode_succ (m : MInode) (n : Nat)
    : clearedInode m (n + 1)
        = { clearedInode m n with iZone := Function.update (clearedInode m n).iZone n 0 } := by
  unfold clearedInode
  congr 1
  funext k
  by_cases hk : k = n
  . subst hk
    simp
  . rw [Function.update_of_ne hk]
    have hiff : k < n + 1 ↔ k < n := by omega
    simp only [hiff]

theorem freeDirect_releases [DecidableEq ι] {s : Fs ι} {inode : ι} {n : Nat}
    (hnodup : (directZones (s.inode inode) n).Nodup)
    (hzones : ∀ z ∈ directZones (s.inode inode) n, Freeable s (s.inode inode).iDev z)
    : ∃ s', forM (List.range n) (freeDirect inode) s = .ok ((), s')
        ∧ Releases s s' (s.inode inode).iDev (directZones (s.inode inode) n)
        ∧ s'.inode = Function.update s.inode inode (clearedInode (s.inode inode) n) := by
  induction n with
  | zero =>
    refine ⟨s, rfl, .refl s _, ?_⟩
    rw [clearedInode_zero]
    exact (Function.update_eq_self inode s.inode).symm
  | succ n ih =>
    rw [directZones_succ] at hnodup hzones ⊢
    obtain ⟨hfirst, _, hdisjoint⟩ := List.nodup_append.mp hnodup
    obtain ⟨s₁, hrun, hreleases, hinode⟩ := ih hfirst fun z hz => hzones z (List.mem_append_left _ hz)
    have hm : s₁.inode inode = clearedInode (s.inode inode) n := by rw [hinode, Function.update_self]
    have hzone : (s₁.inode inode).iZone n = (s.inode inode).iZone n := by rw [hm, iZone_clearedInode]
    have hdev : (s₁.inode inode).iDev = (s.inode inode).iDev := by rw [hm]; rfl
    rw [List.range_succ, List.forM_append, Machine.bind_of_eq_ok hrun, List.forM_cons]
    unfold entryZones at hzones hdisjoint ⊢
    by_cases hzero : (s.inode inode).iZone n = 0
    . have hround : freeDirect inode n s₁ = .ok ((), s₁) := by
        unfold freeDirect
        rw [Machine.bind_of_eq_ok Machine.get_eq, hzone, if_neg (by simp [hzero])]
        rfl
      refine ⟨s₁, ?_, ?_, ?_⟩
      . rw [Machine.bind_of_eq_ok hround]
        rfl
      . rw [if_pos hzero, List.append_nil]
        exact hreleases
      . have hold := iZone_clearedInode (s.inode inode) n
        rw [hzero] at hold
        rw [clearedInode_succ, ← hold, Function.update_eq_self]
        exact hinode
    . rw [if_neg hzero] at hzones hdisjoint ⊢
      have hmem : (s.inode inode).iZone n ∈ [(s.inode inode).iZone n] := List.mem_singleton_self _
      have hfree := hreleases.freeable (fun hmem' => hdisjoint _ hmem' _ hmem rfl)
        (hzones _ (List.mem_append_right _ hmem))
      obtain ⟨s₂, hfreed, hreleases₂, hinode₂⟩ := freeBlock_releases hfree
      let f : MInode → MInode := fun m => { m with iZone := Function.update m.iZone n 0 }
      have hround : freeDirect inode n s₁ = .ok ((), s₂.setInode inode f) := by
        unfold freeDirect
        rw [Machine.bind_of_eq_ok Machine.get_eq, hzone, hdev, if_pos hzero, Machine.bind_of_eq_ok hfreed]
        rfl
      refine ⟨s₂.setInode inode f, ?_, ?_, ?_⟩
      . rw [Machine.bind_of_eq_ok hround]
        rfl
      . have hall := hreleases.trans hreleases₂
        exact ⟨hall.disk, hall.time, hall.count, hall.cache, hall.cleared, hall.marked, hall.unmarked, hall.taken⟩
      . rw [Fs.setInode, hinode₂, hinode, clearedInode_succ, Function.update_self]
        simp [f]

theorem mem_levelZones_self {s : Fs ι} {dev block : Nat} {zonesOf : Nat → List Nat} (h : block ≠ 0)
    : block ∈ levelZones s dev zonesOf block := by
  rw [levelZones, if_neg h]
  exact List.mem_append_right _ (List.mem_singleton_self block)

theorem dindZones_congr {s s₁ : Fs ι} {dev zone : Nat} (hzone : zone ≠ 0)
    (hcontent : ∀ z ∈ dindZones s dev zone, s₁.content dev z = s.content dev z)
    : dindZones s₁ dev zone = dindZones s dev zone := by
  have hself := hcontent zone (mem_levelZones_self hzone)
  unfold dindZones at hcontent ⊢
  rw [levelZones, if_neg hzone] at hcontent
  rw [levelZones, levelZones, hself, if_neg hzone, if_neg hzone]
  refine congrArg (· ++ [zone]) (List.flatMap_congr ?_)
  intro i hi
  unfold entryZones at hcontent ⊢
  split
  . rfl
  . next hne =>
    unfold indZones
    rw [levelZones, levelZones, hcontent]
    refine List.mem_append_left _ (List.mem_flatMap.mpr ⟨i, hi, ?_⟩)
    rw [if_neg hne]
    exact mem_levelZones_self hne

theorem freeDind_freesEntry {s : Fs ι} (hdisk : ∀ d z, s.disk d z ≠ none) (dev : Nat)
    : FreesEntry s dev freeDind (dindZones s dev) := by
  intro zone s₁ hzone hnodup hdisk₁ hzones
  have hlevel : dindZones s₁ dev zone = dindZones s dev zone :=
    dindZones_congr hzone fun z hz => (hzones z hz).left
  have hdisk' : ∀ d z, s₁.disk d z ≠ none := by
    intro d z
    rw [hdisk₁]
    exact hdisk d z
  rw [← hlevel] at hnodup hzones ⊢
  exact freeIndex_releases hdisk' (freeInd_freesEntry hdisk' dev) hnodup fun z hz => (hzones z hz).right

theorem FreesEntry.behind {s s₁ : Fs ι} {dev zone : Nat} {free_entry : Nat → Nat → Call ι Unit}
    {zonesOf : Nat → List Nat} {done : List Nat} (h : FreesEntry s dev free_entry zonesOf)
    (hzero : ∀ t, free_entry dev 0 t = .ok ((), t)) (hnone : zonesOf 0 = [])
    (hreleases : Releases s s₁ dev done) (hnodup : (done ++ zonesOf zone).Nodup)
    (hzones : ∀ z ∈ zonesOf zone, Freeable s dev z)
    : ∃ s₂, free_entry dev zone s₁ = .ok ((), s₂) ∧ Releases s₁ s₂ dev (zonesOf zone) ∧ s₂.inode = s₁.inode := by
  by_cases hzone : zone = 0
  . subst hzone
    rw [hnone]
    exact ⟨s₁, hzero s₁, .refl s₁ dev, rfl⟩
  . obtain ⟨_, hself, hdisjoint⟩ := List.nodup_append.mp hnodup
    refine h zone s₁ hzone hself hreleases.disk ?_
    intro z hz
    have hnot : z ∉ done := fun hdone => hdisjoint z hdone z hz rfl
    exact ⟨hreleases.content fun heq => hnot heq.right, hreleases.freeable hnot (hzones z hz)⟩

theorem freeIndex_zero {free_entry : Nat → Nat → Call ι Unit} (dev : Nat) (t : Fs ι)
    : freeIndex free_entry dev 0 t = .ok ((), t) :=
  rfl

theorem levelZones_zero (s : Fs ι) (dev : Nat) (zonesOf : Nat → List Nat) : levelZones s dev zonesOf 0 = [] :=
  rfl

def zonesOfInode (s : Fs ι) (m : MInode) : List Nat :=
  directZones m 7 ++ indZones s m.iDev (m.iZone 7) ++ dindZones s m.iDev (m.iZone 8)

def truncated (m : MInode) (time : Nat) : MInode :=
  { clearedInode m 9 with iSize := 0, iDirt := true, iMtime := time, iCtime := time }

theorem truncated_eq (m : MInode) (time : Nat)
    : truncated m time
        = { clearedInode m 7 with
            iZone := Function.update (Function.update (clearedInode m 7).iZone 8 0) 7 0
            iSize := 0
            iDirt := true
            iMtime := time
            iCtime := time } := by
  have hzone : (fun k => if k < 9 then 0 else m.iZone k)
      = Function.update (Function.update (fun k => if k < 7 then 0 else m.iZone k) 8 0) 7 0 := by
    funext k
    by_cases h7 : k = 7
    . simp [h7]
    . by_cases h8 : k = 8
      . simp [h8]
      . have hiff : k < 9 ↔ k < 7 := by omega
        simp [h7, h8, hiff]
  unfold truncated clearedInode
  rw [hzone]

theorem truncate_releases [DecidableEq ι] {s : Fs ι} {inode : ι} (hdisk : ∀ d z, s.disk d z ≠ none)
    (hmode : S_ISREG (s.inode inode).iMode ∨ S_ISDIR (s.inode inode).iMode)
    (hnodup : (zonesOfInode s (s.inode inode)).Nodup)
    (hzones : ∀ z ∈ zonesOfInode s (s.inode inode), Freeable s (s.inode inode).iDev z)
    : ∃ s', truncate inode s = .ok ((), s')
        ∧ Releases s s' (s.inode inode).iDev (zonesOfInode s (s.inode inode))
        ∧ s'.inode = Function.update s.inode inode (truncated (s.inode inode) s.CURRENT_TIME) := by
  unfold zonesOfInode at hnodup hzones ⊢
  have hfirst := (List.nodup_append.mp hnodup).left
  obtain ⟨s₁, hrun₁, hreleases₁, hinode₁⟩ := freeDirect_releases (List.nodup_append.mp hfirst).left
    fun z hz => hzones z (List.mem_append_left _ (List.mem_append_left _ hz))
  have hm : s₁.inode inode = clearedInode (s.inode inode) 7 := by rw [hinode₁, Function.update_self]
  obtain ⟨s₂, hrun₂, hreleases₂, hinode₂⟩ := (freeInd_freesEntry hdisk _).behind (freeIndex_zero _)
    (levelZones_zero _ _ _) hreleases₁ hfirst fun z hz => hzones z (List.mem_append_left _ (List.mem_append_right _ hz))
  obtain ⟨s₃, hrun₃, hreleases₃, hinode₃⟩ := (freeDind_freesEntry hdisk _).behind (freeIndex_zero _)
    (levelZones_zero _ _ _) (hreleases₁.trans hreleases₂) hnodup fun z hz => hzones z (List.mem_append_right _ hz)
  have hall := (hreleases₁.trans hreleases₂).trans hreleases₃
  let f : MInode → MInode := fun m =>
    { m with
      iZone := Function.update (Function.update m.iZone 8 0) 7 0
      iSize := 0
      iDirt := true
      iMtime := s₃.CURRENT_TIME
      iCtime := s₃.CURRENT_TIME }
  refine ⟨s₃.setInode inode f, ?_,
    ⟨hall.disk, hall.time, hall.count, hall.cache, hall.cleared, hall.marked, hall.unmarked, hall.taken⟩, ?_⟩
  . unfold truncate
    have hor : (S_ISREG (s.inode inode).iMode || S_ISDIR (s.inode inode).iMode) = true := by simpa using hmode
    have hdev : (clearedInode (s.inode inode) 7).iDev = (s.inode inode).iDev := rfl
    have hdouble : (clearedInode (s.inode inode) 7).iZone 8 = (s.inode inode).iZone 8 := rfl
    rw [Machine.bind_of_eq_ok Machine.get_eq, hor, if_neg (by simp), Machine.bind_of_eq_ok hrun₁,
      Machine.bind_of_eq_ok Machine.get_eq, hm, hdev, iZone_clearedInode, hdouble]
    rw [Machine.bind_of_eq_ok hrun₂, Machine.bind_of_eq_ok hrun₃]
    rfl
  . rw [Fs.setInode, hinode₃, hinode₂, hinode₁, truncated_eq]
    simp [f, hall.time]

end Freeing

section Order

variable {ι : Type}

def indPaths (q : List Nat) : List (List Nat) :=
  (List.range 512).map (fun i => i :: q) ++ [q]

def dindPaths (q : List Nat) : List (List Nat) :=
  (List.range 512).flatMap (fun k => indPaths (k :: q)) ++ [q]

-- The paths of an inode in the order in which `truncate` comes to their zones.
def paths : List (List Nat) :=
  (List.range 7).map (fun k => [k]) ++ indPaths [7] ++ dindPaths [8]

theorem mem_indPaths {q p : List Nat} : p ∈ indPaths q ↔ (∃ i < 512, p = i :: q) ∨ p = q := by
  simp [indPaths, eq_comm]

theorem mem_dindPaths {q p : List Nat}
    : p ∈ dindPaths q ↔ (∃ k < 512, (∃ i < 512, p = i :: k :: q) ∨ p = k :: q) ∨ p = q := by
  simp [dindPaths, mem_indPaths]

theorem mem_paths {p : List Nat} : p ∈ paths ↔ IsPath p := by
  simp only [paths, List.mem_append, List.mem_map, List.mem_range, mem_indPaths, mem_dindPaths]
  constructor
  . rintro ((⟨k, hk, rfl⟩ | ⟨i, hi, rfl⟩ | rfl) | ⟨k, hk, ⟨i, hi, rfl⟩ | rfl⟩ | rfl)
    . exact .zone (by omega)
    . exact .index hi (.inl rfl)
    . exact .zone (by omega)
    . exact .double hi hk
    . exact .index hk (.inr rfl)
    . exact .zone (by omega)
  . intro h
    cases h with
    | @zone k hk =>
      by_cases h7 : k < 7
      . exact .inl (.inl ⟨k, h7, rfl⟩)
      . obtain rfl | rfl : k = 7 ∨ k = 8 := by omega
        . exact .inl (.inr (.inr rfl))
        . exact .inr (.inr rfl)
    | @index k r hk hr =>
      obtain rfl | rfl := hr
      . exact .inl (.inr (.inl ⟨k, hk, rfl⟩))
      . exact .inr (.inl ⟨k, hk, .inr rfl⟩)
    | @double l k hl hk => exact .inr (.inl ⟨k, hk, .inl ⟨l, hl, rfl⟩⟩)

theorem nodup_indPaths (q : List Nat) : (indPaths q).Nodup := by
  rw [indPaths, List.nodup_append]
  refine ⟨List.nodup_range.map fun i j h => (List.cons.inj h).left, by simp, ?_⟩
  rintro p hp _ hq rfl
  rw [List.mem_map] at hp
  obtain ⟨i, _, rfl⟩ := hp
  rw [List.mem_singleton] at hq
  exact absurd (congrArg List.length hq) (by simp)

theorem nodup_dindPaths (q : List Nat) : (dindPaths q).Nodup := by
  rw [dindPaths, List.nodup_append]
  refine ⟨?_, by simp, ?_⟩
  . rw [List.nodup_flatMap]
    refine ⟨fun k _ => nodup_indPaths (k :: q), List.nodup_range.imp ?_⟩
    intro k l hne p hp hp'
    rw [mem_indPaths] at hp hp'
    obtain ⟨i, _, rfl⟩ | rfl := hp
    . obtain ⟨j, _, heq⟩ | heq := hp'
      . exact hne (List.cons.inj (List.cons.inj heq).right).left
      . exact absurd (congrArg List.length heq) (by simp)
    . obtain ⟨j, _, heq⟩ | heq := hp'
      . exact absurd (congrArg List.length heq) (by simp)
      . exact hne (List.cons.inj heq).left
  . rintro p hp _ hq rfl
    rw [List.mem_flatMap] at hp
    obtain ⟨k, _, hp⟩ := hp
    rw [List.mem_singleton] at hq
    subst hq
    rw [mem_indPaths] at hp
    obtain ⟨i, _, heq⟩ | heq := hp
    all_goals
      have hlength := congrArg List.length heq
      simp only [List.length_cons] at hlength
      omega

theorem nodup_paths : paths.Nodup := by
  rw [paths, List.nodup_append, List.nodup_append]
  refine ⟨⟨List.nodup_range.map fun i j h => (List.cons.inj h).left, nodup_indPaths [7], ?_⟩,
    nodup_dindPaths [8], ?_⟩
  . rintro p hp _ hq rfl
    rw [List.mem_map] at hp
    obtain ⟨k, hk, rfl⟩ := hp
    rw [List.mem_range] at hk
    rw [mem_indPaths] at hq
    obtain ⟨i, _, heq⟩ | heq := hq
    . cases heq
    . cases heq
      omega
  . rintro p hp _ hq rfl
    rw [List.mem_append, List.mem_map, mem_indPaths] at hp
    rw [mem_dindPaths] at hq
    obtain ⟨k, hk, rfl⟩ | ⟨i, _, rfl⟩ | rfl := hp
    . rw [List.mem_range] at hk
      obtain ⟨j, _, ⟨i, _, heq⟩ | heq⟩ | heq := hq
      . cases heq
      . cases heq
      . cases heq
        omega
    . obtain ⟨j, _, ⟨i, _, heq⟩ | heq⟩ | heq := hq
      all_goals cases heq
    . obtain ⟨j, _, ⟨i, _, heq⟩ | heq⟩ | heq := hq
      all_goals cases heq

def zonesAt (s : Fs ι) (inode : ι) (p : List Nat) : List Nat :=
  ((forest s).ptr inode p).toList.map Prod.snd

theorem mem_zonesAt {s : Fs ι} {inode : ι} {p : List Nat} {z : Nat}
    : z ∈ zonesAt s inode p ↔ (forest s).ptr inode p = some ((s.inode inode).iDev, z) := by
  unfold zonesAt
  cases hptr : (forest s).ptr inode p with
  | none => simp
  | some a =>
    have hdev := (ptr_spec hptr).left
    simp only [Option.toList_some, List.map_cons, List.map_nil, List.mem_singleton, Option.some.injEq]
    constructor
    . rintro rfl
      exact Prod.ext hdev rfl
    . rintro rfl
      rfl

theorem entryZones_root (s : Fs ι) (inode : ι) (k : Nat)
    : entryZones (s.inode inode).iZone (fun zone => [zone]) k = zonesAt s inode [k] := by
  unfold entryZones zonesAt
  by_cases hzero : (s.inode inode).iZone k = 0
  . rw [if_pos hzero, ptr_zone_none hzero]
    rfl
  . rw [if_neg hzero, ptr_zone hzero]
    rfl

theorem ptr_entry {s : Fs ι} {inode : ι} {k l dev block : Nat} {q : List Nat}
    (hup : (forest s).ptr inode (l :: q) = some (dev, block))
    : (forest s).ptr inode (k :: l :: q) = zoneAt dev (((s.content dev block).getD fun _ => 0) k) := by
  rw [Forest.ptr_cons_of_some hup]
  cases hcontent : s.content dev block with
  | none =>
    simp only [forest, hcontent]
    rfl
  | some data => simp only [forest, hcontent, Option.getD_some]

theorem entryZones_index {s : Fs ι} {inode : ι} {k l dev block : Nat} {q : List Nat}
    (hup : (forest s).ptr inode (l :: q) = some (dev, block))
    : entryZones ((s.content dev block).getD fun _ => 0) (fun zone => [zone]) k = zonesAt s inode (k :: l :: q) := by
  rw [entryZones, zonesAt, ptr_entry hup, zoneAt]
  split
  . rfl
  . rfl

theorem zonesAt_below_none {s : Fs ι} {inode : ι} {k l : Nat} {q : List Nat}
    (hup : (forest s).ptr inode (l :: q) = none)
    : zonesAt s inode (k :: l :: q) = [] := by
  rw [zonesAt, Forest.ptr_cons_of_none hup]
  rfl

theorem indZones_eq {s : Fs ι} {inode : ι} {l : Nat} {q : List Nat}
    : indZones s (s.inode inode).iDev (zoneOf ((forest s).ptr inode (l :: q)))
        = (indPaths (l :: q)).flatMap (zonesAt s inode) := by
  rw [indPaths, List.flatMap_append, List.flatMap_map, List.flatMap_singleton]
  unfold indZones levelZones
  cases hup : (forest s).ptr inode (l :: q) with
  | none =>
    simp only [zoneOf, if_true, zonesAt_below_none hup]
    rw [zonesAt, hup]
    simp
  | some a =>
    obtain ⟨hdev, hne⟩ := ptr_spec hup
    have hup' : (forest s).ptr inode (l :: q) = some ((s.inode inode).iDev, a.snd) := by rw [hup, ← hdev]
    have hself : zonesAt s inode (l :: q) = [a.snd] := by
      rw [zonesAt, hup]
      rfl
    rw [show zoneOf (some a) = a.snd from rfl, if_neg hne, hself]
    refine congrArg (· ++ [a.snd]) (List.flatMap_congr ?_)
    intro k _
    exact entryZones_index hup'

theorem dindZones_eq {s : Fs ι} {inode : ι} {l : Nat} {q : List Nat}
    : dindZones s (s.inode inode).iDev (zoneOf ((forest s).ptr inode (l :: q)))
        = (dindPaths (l :: q)).flatMap (zonesAt s inode) := by
  rw [dindPaths, List.flatMap_append, List.flatMap_assoc, List.flatMap_singleton]
  unfold dindZones
  rw [levelZones]
  cases hup : (forest s).ptr inode (l :: q) with
  | none =>
    have hentry : ∀ k, (indPaths (k :: l :: q)).flatMap (zonesAt s inode) = [] := by
      intro k
      rw [← indZones_eq, Forest.ptr_cons_of_none hup]
      rfl
    rw [show zoneOf none = 0 from rfl, if_pos rfl, zonesAt, hup]
    simp [hentry]
  | some a =>
    obtain ⟨hdev, hne⟩ := ptr_spec hup
    have hup' : (forest s).ptr inode (l :: q) = some ((s.inode inode).iDev, a.snd) := by rw [hup, ← hdev]
    have hself : zonesAt s inode (l :: q) = [a.snd] := by
      rw [zonesAt, hup]
      rfl
    rw [show zoneOf (some a) = a.snd from rfl, if_neg hne, hself]
    refine congrArg (· ++ [a.snd]) (List.flatMap_congr ?_)
    intro k _
    rw [← indZones_eq, ptr_entry hup', entryZones, zoneAt]
    split
    . rfl
    . rfl

theorem zonesOfInode_eq (s : Fs ι) (inode : ι) : zonesOfInode s (s.inode inode) = paths.flatMap (zonesAt s inode) := by
  have hzone : ∀ k, zoneOf ((forest s).ptr inode [k]) = (s.inode inode).iZone k := by
    intro k
    by_cases hzero : (s.inode inode).iZone k = 0
    . rw [ptr_zone_none hzero, hzero]
      rfl
    . rw [ptr_zone hzero]
      rfl
  have hdirect : directZones (s.inode inode) 7 = ((List.range 7).map fun k => [k]).flatMap (zonesAt s inode) := by
    rw [directZones, List.flatMap_map]
    exact List.flatMap_congr fun k _ => entryZones_root s inode k
  rw [zonesOfInode, paths, List.flatMap_append, List.flatMap_append, ← indZones_eq, ← dindZones_eq, hzone, hzone,
    hdirect]

theorem mem_zonesOfInode {s : Fs ι} {inode : ι} {z : Nat}
    : z ∈ zonesOfInode s (s.inode inode)
        ↔ ∃ p, IsPath p ∧ (forest s).ptr inode p = some ((s.inode inode).iDev, z) := by
  simp only [zonesOfInode_eq, List.mem_flatMap, mem_paths, mem_zonesAt]

theorem nodup_zonesOfInode {s : Fs ι} (h : Forest.Unshared IsPath (forest s)) (inode : ι)
    : (zonesOfInode s (s.inode inode)).Nodup := by
  rw [zonesOfInode_eq, List.nodup_flatMap]
  constructor
  . intro p _
    unfold zonesAt
    cases (forest s).ptr inode p with
    | none => simp
    | some a => simp
  . refine nodup_paths.pairwise_of_forall_ne ?_
    intro p hp q hq hne z hz hz'
    rw [mem_zonesAt] at hz hz'
    rw [mem_paths] at hp hq
    exact hne (h inode inode p q _ hp hq hz hz').right

end Order

section Main

variable {ι : Type} [DecidableEq ι]

structure Intact (s : Fs ι) (inode : ι) : Prop where
  unshared : Forest.Unshared IsPath (forest s)
  freeable : ∀ p a, IsPath p → (forest s).ptr inode p = some a → Freeable s a.fst a.snd
  readable : ∀ d z, s.disk d z ≠ none

/--
`truncate` gives back every zone that a path of the inode leads to, index blocks and all, each once, and
changes no mark of a zone of another inode.
-/
theorem truncate_frees {s : Fs ι} {inode : ι} (h : Intact s inode)
    (hmode : S_ISREG (s.inode inode).iMode ∨ S_ISDIR (s.inode inode).iMode)
    : ∃ (s' : Fs ι) (zones : List Nat), truncate inode s = .ok ((), s')
        ∧ zones.Nodup
        ∧ (∀ z, z ∈ zones ↔ ∃ p, IsPath p ∧ (forest s).ptr inode p = some ((s.inode inode).iDev, z))
        ∧ s'.cleared = (zones.map fun z => ((s.inode inode).iDev, z)).reverse ++ s.cleared
        ∧ (∀ z ∈ zones, ¬ s'.Marked ((s.inode inode).iDev, z))
        ∧ (∀ k < 9, (s'.inode inode).iZone k = 0) ∧ (s'.inode inode).iSize = 0
        ∧ ∀ j, j ≠ inode → s'.inode j = s.inode j
            ∧ ∀ p a, IsPath p → (forest s).ptr j p = some a → (s'.Marked a ↔ s.Marked a) := by
  have hnodup := nodup_zonesOfInode h.unshared inode
  have hzones : ∀ z ∈ zonesOfInode s (s.inode inode), Freeable s (s.inode inode).iDev z := by
    intro z hz
    obtain ⟨p, hp, hptr⟩ := mem_zonesOfInode.mp hz
    exact h.freeable p _ hp hptr
  obtain ⟨s', hrun, hreleases, hinode⟩ := truncate_releases h.readable hmode hnodup hzones
  refine ⟨s', _, hrun, hnodup, fun z => mem_zonesOfInode, hreleases.cleared, hreleases.unmarked, ?_, ?_, ?_⟩
  . intro k hk
    rw [hinode, Function.update_self]
    simp [truncated, clearedInode, hk]
  . rw [hinode, Function.update_self]
    rfl
  . intro j hj
    refine ⟨by rw [hinode, Function.update_of_ne hj], ?_⟩
    intro p a hp ha
    apply hreleases.marked a
    intro hdev hmem
    obtain ⟨q, hq, hptr⟩ := mem_zonesOfInode.mp hmem
    have ha' : (forest s).ptr inode q = some a := by rw [hptr, ← hdev]
    exact hj (h.unshared j inode p q a hp hq ha ha').left

def threeZones : Fs Unit :=
  { emptyFs with
    superBlock := fun dev =>
      (emptyFs.superBlock dev).map fun sb =>
        { sb with sZmap := fun i =>
            if i = 0 then some { bData := fun k => if k = 0 then 15 else 0, bDirt := false } else none }
    disk := fun _ z => some fun k => if z = 6 ∧ k = 0 then 7 else 0
    inode := fun _ =>
      { emptyFs.inode () with
        iMode := S_IFREG
        iSize := 8 * 1024
        iZone := fun k => if k = 0 then 5 else if k = 7 then 6 else 0 } }

theorem threeZones_root {k : Nat} {a : Nat × Nat} (h : (forest threeZones).ptr () [k] = some a)
    : (k = 0 ∧ a = (1, 5)) ∨ (k = 7 ∧ a = (1, 6)) := by
  obtain ⟨rfl, hne⟩ := zoneAt_eq_some h
  simp only [threeZones, emptyFs] at hne ⊢
  split at hne
  . next h0 => simp [h0]
  . split at hne
    . next h7 => simp [h7]
    . exact absurd rfl hne

theorem threeZones_ptr {p : List Nat} {a : Nat × Nat} (hp : IsPath p) (h : (forest threeZones).ptr () p = some a)
    : (p = [0] ∧ a = (1, 5)) ∨ (p = [7] ∧ a = (1, 6)) ∨ (p = [0, 7] ∧ a = (1, 7)) := by
  have hnone : (forest threeZones).ptr () [8] = none := rfl
  cases hp with
  | zone hk =>
    obtain ⟨rfl, ha⟩ | ⟨rfl, ha⟩ := threeZones_root h
    . exact .inl ⟨rfl, ha⟩
    . exact .inr (.inl ⟨rfl, ha⟩)
  | @index k r hk hr =>
    obtain rfl | rfl := hr
    . have hup : (forest threeZones).ptr () [7] = some (1, 6) := rfl
      rw [Forest.ptr_cons_of_some hup] at h
      obtain ⟨rfl, hne⟩ := zoneAt_eq_some h
      by_cases h0 : k = 0
      . subst h0
        exact .inr (.inr ⟨rfl, rfl⟩)
      . simp [h0] at hne
    . rw [Forest.ptr_cons_of_none hnone] at h
      cases h
  | double hl hk =>
    rw [Forest.ptr_cons_of_none (Forest.ptr_cons_of_none hnone)] at h
    cases h

theorem threeZones_intact : Intact threeZones () where
  unshared := by
    intro i j p q a hp hq ha hb
    refine ⟨rfl, ?_⟩
    obtain ⟨rfl, rfl⟩ | ⟨rfl, rfl⟩ | ⟨rfl, rfl⟩ := threeZones_ptr hp ha
    all_goals
      obtain ⟨rfl, heq⟩ | ⟨rfl, heq⟩ | ⟨rfl, heq⟩ := threeZones_ptr hq hb
      all_goals first | rfl | cases heq
  freeable := by
    intro p a hp ha
    obtain ⟨_, rfl⟩ | ⟨_, rfl⟩ | ⟨_, rfl⟩ := threeZones_ptr hp ha
    all_goals exact ⟨⟨_, rfl, by decide, by decide, by decide⟩, rfl⟩
  readable := fun d z h => by cases h

theorem truncate_frees_threeZones
    : ∃ (s' : Fs Unit) (zones : List Nat), truncate () threeZones = .ok ((), s')
        ∧ zones.Nodup
        ∧ (∀ z, z ∈ zones ↔ ∃ p, IsPath p ∧ (forest threeZones).ptr () p = some (1, z))
        ∧ s'.cleared = (zones.map fun z => (1, z)).reverse ++ []
        ∧ (∀ z ∈ zones, ¬ s'.Marked (1, z))
        ∧ (∀ k < 9, (s'.inode ()).iZone k = 0) ∧ (s'.inode ()).iSize = 0
        ∧ ∀ j, j ≠ () → s'.inode j = threeZones.inode j
            ∧ ∀ p a, IsPath p → (forest threeZones).ptr j p = some a → (s'.Marked a ↔ threeZones.Marked a) :=
  truncate_frees threeZones_intact (.inl (by decide))

end Main

end Minix
end OS
