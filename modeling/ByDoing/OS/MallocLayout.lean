import Mathlib.Data.List.Perm.Basic
import ByDoing.OS.Malloc

namespace OS

namespace Memory

theorem load_store_self (m : Memory) (address : Nat) {value : Nat} (h : value < 2 ^ 32)
    : (m.store address value).load address = value := by
  unfold load store setEntry
  dsimp only
  rw [Function.update_self, Function.update_self, BitVec.toNat_ofNat, Nat.mod_eq_of_lt h]

theorem load_store_of_ne (m : Memory) {address address' : Nat} (value : Nat) (ha : address % 4 = 0)
    (ha' : address' % 4 = 0) (hne : address' ≠ address)
    : (m.store address value).load address' = m.load address' := by
  unfold load store setEntry
  dsimp only
  by_cases hpage : address' / 4096 = address / 4096
  . rw [hpage, Function.update_self, Function.update_of_ne]
    intro heq
    have hindex := congrArg Fin.val heq
    unfold wordIndex at hindex
    dsimp only at hindex
    omega
  . rw [Function.update_of_ne hpage]

end Memory

namespace Malloc

open Threaded (IsChain)

structure Shape where
  chain : Nat → List Nat
  free : List Nat
  slots : Nat → List Nat

def descsOf (f : Nat) : List Nat :=
  (List.range 256).map fun i => 4096 * f + 16 * i

def slotsOf (f size : Nat) : List Nat :=
  (List.range (4096 / size)).map fun i => 4096 * f + size * i

def objectsIn (live : List Obj) (f : Nat) : List Nat :=
  (live.filter fun o => o.address / 4096 == f).map Obj.address

namespace Heap

def frame (h : Heap) (d : Nat) : Nat :=
  (h.desc d).page / 4096

def pages (h : Heap) (t : Shape) : List Nat :=
  (bucketDir.flatMap t.chain).map h.frame ++ h.descPages

end Heap

structure Bucket (h : Heap) (live : List Obj) (size d : Nat) (slots : List Nat) : Prop where
  bucketSize_eq : (h.desc d).bucketSize = size
  page_eq : (h.desc d).page = 4096 * h.frame d
  freeList : IsChain h.memory.load (h.desc d).freeptr slots
  parts : (slots ++ objectsIn live (h.frame d)).Perm (slotsOf (h.frame d) size)
  refcnt_eq : (h.desc d).refcnt = (objectsIn live (h.frame d)).length

structure Layout (h : Heap) (live : List Obj) (t : Shape) : Prop where
  chain : ∀ size ∈ bucketDir, IsChain h.next (h.chain size) (t.chain size)
  free : IsChain h.next h.freeBucketDesc t.free
  oneList : (bucketDir.flatMap t.chain ++ t.free).Perm (h.descPages.flatMap descsOf)
  bucket : ∀ size ∈ bucketDir, ∀ d ∈ t.chain size, Bucket h live size d (t.slots d)
  pages : (h.pages t).Nodup
  held : ∀ f ∈ h.pages t, lowFrame ≤ f ∧ f < h.memory.highMemory ∧ h.memory.memMap (f - lowFrame) = 1
  placed : ∀ o ∈ live, ∃ size ∈ bucketDir, o.len ≤ size ∧ ∃ d ∈ t.chain size, h.frame d = o.address / 4096
  spare : ∀ nr, nr < PAGING_PAGES → h.memory.memMap nr = 0 → lowFrame + nr < h.memory.highMemory
  high : h.memory.highMemory ≤ lowFrame + PAGING_PAGES

theorem bucketDir_size {size : Nat} (h : size ∈ bucketDir)
    : 16 ≤ size ∧ size ≤ 4096 ∧ size % 16 = 0 ∧ size * (4096 / size) = 4096 := by
  unfold bucketDir at h
  simp only [List.mem_cons, List.not_mem_nil, or_false] at h
  rcases h with rfl | rfl | rfl | rfl | rfl | rfl | rfl | rfl | rfl <;> decide

theorem mem_slotsOf {f size p : Nat}
    : p ∈ slotsOf f size ↔ ∃ i, i < 4096 / size ∧ p = 4096 * f + size * i := by
  unfold slotsOf
  simp only [List.mem_map, List.mem_range]
  constructor
  . rintro ⟨i, hi, rfl⟩
    exact ⟨i, hi, rfl⟩
  . rintro ⟨i, hi, rfl⟩
    exact ⟨i, hi, rfl⟩

theorem slot_bound {f size p : Nat} (hsize : size ∈ bucketDir) (hp : p ∈ slotsOf f size)
    : 4096 * f ≤ p ∧ p + size ≤ 4096 * f + 4096 ∧ p / 4096 = f ∧ p % 16 = 0 ∧ p % 4096 % size = 0 := by
  obtain ⟨i, hi, rfl⟩ := mem_slotsOf.mp hp
  obtain ⟨hlow, _, hdiv, hmul⟩ := bucketDir_size hsize
  have hle : size * (i + 1) ≤ 4096 := by
    rw [← hmul]
    exact Nat.mul_le_mul_left size hi
  rw [Nat.mul_add, Nat.mul_one] at hle
  have hmod : size * i % 16 = 0 := by
    rw [Nat.mul_mod, hdiv, Nat.zero_mul]
  have hoffset : (4096 * f + size * i) % 4096 = size * i := by omega
  refine ⟨by omega, by omega, by omega, by omega, ?_⟩
  rw [hoffset, Nat.mul_mod_right]

theorem nodup_slotsOf {f size : Nat} (hsize : size ∈ bucketDir) : (slotsOf f size).Nodup := by
  have hpos := (bucketDir_size hsize).left
  apply List.Nodup.map _ List.nodup_range
  intro i j heq
  have hmul : size * i = size * j := Nat.add_left_cancel heq
  exact Nat.eq_of_mul_eq_mul_left (by omega) hmul

theorem slots_apart {f size p q : Nat} (hp : p ∈ slotsOf f size) (hq : q ∈ slotsOf f size) (hne : p ≠ q)
    : p + size ≤ q ∨ q + size ≤ p := by
  obtain ⟨i, _, rfl⟩ := mem_slotsOf.mp hp
  obtain ⟨j, _, rfl⟩ := mem_slotsOf.mp hq
  rcases Nat.lt_trichotomy i j with hlt | heq | hlt
  . have hle := Nat.mul_le_mul_left size hlt
    rw [Nat.mul_succ] at hle
    omega
  . exact absurd (by rw [heq]) hne
  . have hle := Nat.mul_le_mul_left size hlt
    rw [Nat.mul_succ] at hle
    omega

theorem mem_objectsIn {live : List Obj} {f p : Nat}
    : p ∈ objectsIn live f ↔ ∃ o ∈ live, o.address = p ∧ p / 4096 = f := by
  unfold objectsIn
  simp only [List.mem_map, List.mem_filter, beq_iff_eq]
  constructor
  . rintro ⟨o, ⟨ho, hf⟩, rfl⟩
    exact ⟨o, ho, rfl, hf⟩
  . rintro ⟨o, ho, rfl, hf⟩
    exact ⟨o, ⟨ho, hf⟩, rfl⟩

theorem objectsIn_cons_self (live : List Obj) (o : Obj)
    : objectsIn (o :: live) (o.address / 4096) = o.address :: objectsIn live (o.address / 4096) := by
  unfold objectsIn
  rw [List.filter_cons_of_pos (by simp), List.map_cons]

theorem objectsIn_cons_of_ne (live : List Obj) {o : Obj} {f : Nat} (h : o.address / 4096 ≠ f)
    : objectsIn (o :: live) f = objectsIn live f := by
  unfold objectsIn
  rw [List.filter_cons_of_neg (by simpa using h)]

theorem objectsIn_erase_self {live : List Obj} {o : Obj} (h : o ∈ live)
    : (objectsIn live (o.address / 4096)).Perm (o.address :: objectsIn (live.erase o) (o.address / 4096)) := by
  rw [← objectsIn_cons_self]
  exact ((List.perm_cons_erase h).filter _).map _

theorem objectsIn_erase_of_ne {live : List Obj} {o : Obj} {f : Nat} (ho : o ∈ live) (h : o.address / 4096 ≠ f)
    : (objectsIn (live.erase o) f).Perm (objectsIn live f) := by
  rw [← objectsIn_cons_of_ne (live.erase o) h]
  exact (((List.perm_cons_erase ho).filter _).map _).symm

namespace Heap

theorem next_setDesc (h : Heap) (d : Nat) (bdesc : BucketDesc)
    : (h.setDesc d bdesc).next = Function.update h.next d bdesc.next := by
  funext d'
  unfold next setDesc
  dsimp only
  by_cases heq : d' = d
  . rw [heq, Function.update_self, Function.update_self]
  . rw [Function.update_of_ne heq, Function.update_of_ne heq]

theorem frame_setDesc (h : Heap) (d : Nat) (bdesc : BucketDesc)
    : (h.setDesc d bdesc).frame = Function.update h.frame d (bdesc.page / 4096) := by
  funext d'
  unfold frame setDesc
  dsimp only
  by_cases heq : d' = d
  . rw [heq, Function.update_self, Function.update_self]
  . rw [Function.update_of_ne heq, Function.update_of_ne heq]

end Heap

theorem Bucket.congr {h h' : Heap} {live live' : List Obj} {size d : Nat} {slots : List Nat}
    (hb : Bucket h live size d slots) (hdesc : ∃ next, h'.desc d = { h.desc d with next })
    (hload : ∀ p ∈ slots, h'.memory.load p = h.memory.load p)
    (hlive : (objectsIn live' (h.frame d)).Perm (objectsIn live (h.frame d)))
    : Bucket h' live' size d slots := by
  obtain ⟨next, hdesc⟩ := hdesc
  have hframe : h'.frame d = h.frame d := by
    unfold Heap.frame
    rw [hdesc]
  constructor
  . rw [hdesc]
    exact hb.bucketSize_eq
  . rw [hdesc, hframe]
    exact hb.page_eq
  . rw [hdesc]
    exact hb.freeList.congr hload
  . rw [hframe]
    exact (hlive.append_left slots).trans hb.parts
  . rw [hdesc, hframe, hb.refcnt_eq, hlive.length_eq]

theorem Bucket.mem_slotsOf {h : Heap} {live : List Obj} {size d p : Nat} {slots : List Nat}
    (hb : Bucket h live size d slots) (hp : p ∈ slots)
    : p ∈ slotsOf (h.frame d) size :=
  hb.parts.subset (List.mem_append_left _ hp)

theorem Bucket.length_le {h : Heap} {live : List Obj} {size d : Nat} {slots : List Nat}
    (hb : Bucket h live size d slots) (hsize : size ∈ bucketDir)
    : slots.length + (objectsIn live (h.frame d)).length ≤ 256 := by
  have hlow := (bucketDir_size hsize).left
  have hlength := hb.parts.length_eq
  unfold slotsOf at hlength
  rw [List.length_append, List.length_map, List.length_range] at hlength
  have hle : 4096 / size ≤ 4096 / 16 := Nat.div_le_div_left hlow (by decide)
  omega

theorem Bucket.take {h : Heap} {live : List Obj} {size d p : Nat} {rest : List Nat}
    (hb : Bucket h live size d (p :: rest)) (hsize : size ∈ bucketDir) (len : Nat)
    : Bucket (h.take d).snd ({ address := p, len } :: live) size d rest := by
  obtain ⟨hp, _, hrest⟩ := hb.freeList
  have hself : (h.take d).snd.desc d
      = { h.desc d with
          freeptr := h.memory.load (h.desc d).freeptr, refcnt := ((h.desc d).refcnt + 1) % 0x10000 } :=
    Function.update_self _ _ _
  have hframe : (h.take d).snd.frame d = h.frame d := by
    unfold Heap.frame
    rw [hself]
  have hpage := (slot_bound hsize (hb.mem_slotsOf List.mem_cons_self)).right.right.left
  have hobjects := objectsIn_cons_self live { address := p, len }
  rw [hpage] at hobjects
  have hle := hb.length_le hsize
  rw [List.length_cons] at hle
  constructor
  . rw [hself]
    exact hb.bucketSize_eq
  . rw [hself, hframe]
    exact hb.page_eq
  . rw [hself, hp]
    exact hrest
  . rw [hframe, hobjects]
    exact List.perm_middle.trans hb.parts
  . rw [hself, hframe, hobjects, List.length_cons, ← hb.refcnt_eq]
    have hrefcnt := hb.refcnt_eq
    dsimp only
    omega

-- The heap after the first part of `free_s`, which puts an object on the free list of its bucket.
def Heap.put (h : Heap) (obj d : Nat) : Heap :=
  { h with memory := h.memory.store obj (h.desc d).freeptr }.setDesc d
    { h.desc d with freeptr := obj, refcnt := ((h.desc d).refcnt + 0xffff) % 0x10000 }

theorem Bucket.object {h : Heap} {live : List Obj} {size d : Nat} {slots : List Nat} (hb : Bucket h live size d slots)
    {o : Obj} (ho : o ∈ live) (hf : h.frame d = o.address / 4096)
    : o.address ∈ slotsOf (h.frame d) size :=
  hb.parts.subset (List.mem_append_right _ (mem_objectsIn.mpr ⟨o, ho, rfl, hf.symm⟩))

theorem Bucket.freeptr_lt {h : Heap} {live : List Obj} {size d : Nat} {slots : List Nat}
    (hb : Bucket h live size d slots) (hsize : size ∈ bucketDir) (hframe : h.frame d < 2 ^ 20)
    : (h.desc d).freeptr < 2 ^ 32 := by
  by_cases hzero : (h.desc d).freeptr = 0
  . rw [hzero]
    decide
  . obtain ⟨rest, hslots, _⟩ := hb.freeList.of_ne_zero hzero
    have hmem := hb.mem_slotsOf (hslots ▸ List.mem_cons_self)
    have hpage := (slot_bound hsize hmem).right.right.left
    omega

theorem Bucket.put {h : Heap} {live : List Obj} {size d : Nat} {slots : List Nat} (hb : Bucket h live size d slots)
    (hsize : size ∈ bucketDir) (hlow : lowFrame ≤ h.frame d) (hhigh : h.frame d < 2 ^ 20) {o : Obj} (ho : o ∈ live)
    (hf : h.frame d = o.address / 4096)
    : Bucket (h.put o.address d) (live.erase o) size d (o.address :: slots) := by
  have hself : (h.put o.address d).desc d
      = { h.desc d with freeptr := o.address, refcnt := ((h.desc d).refcnt + 0xffff) % 0x10000 } :=
    Function.update_self _ _ _
  have hframe : (h.put o.address d).frame d = h.frame d := by
    unfold Heap.frame
    rw [hself]
  have hobjects := objectsIn_erase_self ho
  rw [← hf] at hobjects
  have hslot := hb.object ho hf
  have haligned := slot_bound hsize hslot
  have hnodup : (slots ++ objectsIn live (h.frame d)).Nodup := hb.parts.nodup_iff.mpr (nodup_slotsOf hsize)
  have hnotMem : o.address ∉ slots := by
    intro hmem
    have hlive := mem_objectsIn.mpr ⟨o, ho, rfl, hf.symm⟩
    exact (List.nodup_append.mp hnodup).right.right o.address hmem o.address hlive rfl
  have hle := hb.length_le hsize
  rw [hobjects.length_eq, List.length_cons] at hle
  constructor
  . rw [hself]
    exact hb.bucketSize_eq
  . rw [hself, hframe]
    exact hb.page_eq
  . rw [hself]
    refine ⟨rfl, ?_, ?_⟩
    . unfold lowFrame at hlow
      omega
    . have hmemory : (h.put o.address d).memory = h.memory.store o.address (h.desc d).freeptr := rfl
      rw [hmemory, Memory.load_store_self _ _ (hb.freeptr_lt hsize hhigh)]
      apply hb.freeList.congr
      intro p hp
      have hbound := slot_bound hsize (hb.mem_slotsOf hp)
      apply Memory.load_store_of_ne
      . omega
      . omega
      . intro heq
        exact hnotMem (heq ▸ hp)
  . rw [hframe]
    refine List.Perm.trans ?_ hb.parts
    rw [List.cons_append]
    exact List.perm_middle.symm.trans (hobjects.symm.append_left slots)
  . rw [hself, hframe]
    have hrefcnt := hb.refcnt_eq
    rw [hobjects.length_eq, List.length_cons] at hrefcnt
    dsimp only
    omega

namespace Layout

variable {h : Heap} {live : List Obj} {t : Shape}

theorem mem_chains {size d : Nat} (hsize : size ∈ bucketDir) (hd : d ∈ t.chain size) : d ∈ bucketDir.flatMap t.chain :=
  List.mem_flatMap.mpr ⟨size, hsize, hd⟩

theorem frame_inj (hl : Layout h live t) {d d' : Nat} (hd : d ∈ bucketDir.flatMap t.chain)
    (hd' : d' ∈ bucketDir.flatMap t.chain) (heq : h.frame d = h.frame d')
    : d = d' :=
  List.inj_on_of_nodup_map (List.nodup_append.mp hl.pages).left hd hd' heq

theorem keep {h' : Heap} {live' : List Obj} {slots : Nat → List Nat} (hl : Layout h live t) (hnext : h'.next = h.next)
    (hframe : h'.frame = h.frame) (hchain : h'.chain = h.chain) (hfree : h'.freeBucketDesc = h.freeBucketDesc)
    (hpages : h'.descPages = h.descPages) (hmap : h'.memory.memMap = h.memory.memMap)
    (hhigh : h'.memory.highMemory = h.memory.highMemory)
    (hbucket : ∀ size ∈ bucketDir, ∀ d ∈ t.chain size, Bucket h' live' size d (slots d))
    (hplaced : ∀ o ∈ live', ∃ size ∈ bucketDir, o.len ≤ size ∧ ∃ d ∈ t.chain size, h.frame d = o.address / 4096)
    : Layout h' live' { t with slots } := by
  have hsame : h'.pages { t with slots } = h.pages t := by
    unfold Heap.pages
    rw [hframe, hpages]
  constructor
  . rw [hnext, hchain]
    exact hl.chain
  . rw [hnext, hfree]
    exact hl.free
  . rw [hpages]
    exact hl.oneList
  . exact hbucket
  . rw [hsame]
    exact hl.pages
  . rw [hsame, hmap, hhigh]
    exact hl.held
  . rw [hframe]
    exact hplaced
  . rw [hmap, hhigh]
    exact hl.spare
  . rw [hhigh]
    exact hl.high

theorem take (hl : Layout h live t) {size d : Nat} (hsize : size ∈ bucketDir) (hd : d ∈ t.chain size)
    (hne : (h.desc d).freeptr ≠ 0) {len : Nat} (hlen : len ≤ size)
    : ∃ slots, Layout (h.take d).snd ({ address := (h.take d).fst, len } :: live) { t with slots }
        ∧ (h.take d).fst / 4096 = h.frame d := by
  have hb := hl.bucket size hsize d hd
  obtain ⟨rest, hslots, hrest⟩ := hb.freeList.of_ne_zero hne
  have hmem : (h.desc d).freeptr ∈ slotsOf (h.frame d) size := by
    apply hb.mem_slotsOf
    rw [hslots]
    exact List.mem_cons_self
  have hpage := (slot_bound hsize hmem).right.right.left
  refine ⟨Function.update t.slots d rest, ?_, hpage⟩
  have hnext : (h.take d).snd.next = h.next := by
    unfold Heap.take
    rw [Heap.next_setDesc, Function.update_eq_self_iff]
    rfl
  have hframe : (h.take d).snd.frame = h.frame := by
    unfold Heap.take
    rw [Heap.frame_setDesc, Function.update_eq_self_iff]
    rfl
  have hdesc : ∀ d', d' ≠ d → (h.take d).snd.desc d' = h.desc d' := by
    intro d' hd'
    exact Function.update_of_ne hd' _ _
  apply hl.keep hnext hframe rfl rfl rfl rfl rfl
  . intro size' hsize' d' hd'
    by_cases heq : d' = d
    . subst heq
      rw [Function.update_self, ← (hl.bucket size' hsize' d' hd').bucketSize_eq, hb.bucketSize_eq]
      rw [hslots] at hb
      exact hb.take hsize len
    . rw [Function.update_of_ne heq]
      apply (hl.bucket size' hsize' d' hd').congr ⟨_, hdesc d' heq⟩
      . intro p _
        rfl
      . rw [objectsIn_cons_of_ne]
        intro hcontra
        rw [show (h.take d).fst = (h.desc d).freeptr from rfl, hpage] at hcontra
        exact heq (hl.frame_inj (mem_chains hsize hd) (mem_chains hsize' hd') hcontra).symm
  . intro o' ho'
    cases ho' with
    | head => exact ⟨size, hsize, hlen, d, hd, hpage.symm⟩
    | tail _ ho' => exact hl.placed o' ho'

theorem frame_bound (hl : Layout h live t) {d : Nat} (hd : d ∈ bucketDir.flatMap t.chain)
    : lowFrame ≤ h.frame d ∧ h.frame d < h.memory.highMemory ∧ h.frame d < 2 ^ 20
        ∧ h.memory.memMap (h.frame d - lowFrame) = 1 := by
  obtain ⟨hlow, hhigh, hmap⟩ := hl.held (h.frame d) (List.mem_append_left _ (List.mem_map_of_mem hd))
  have hbound := hl.high
  refine ⟨hlow, hhigh, ?_, hmap⟩
  unfold lowFrame PAGING_PAGES at hbound
  omega

theorem put (hl : Layout h live t) {size d : Nat} (hsize : size ∈ bucketDir) (hd : d ∈ t.chain size) {o : Obj}
    (ho : o ∈ live) (hf : h.frame d = o.address / 4096)
    : ∃ slots, Layout (h.put o.address d) (live.erase o) { t with slots } := by
  have hb := hl.bucket size hsize d hd
  have hchain := mem_chains hsize hd
  obtain ⟨hlow, _, hlt, _⟩ := hl.frame_bound hchain
  have hslot := slot_bound hsize (hb.object ho hf)
  refine ⟨Function.update t.slots d (o.address :: t.slots d), ?_⟩
  have hnext : (h.put o.address d).next = h.next := by
    unfold Heap.put
    rw [Heap.next_setDesc]
    exact Function.update_eq_self_iff.mpr rfl
  have hframe : (h.put o.address d).frame = h.frame := by
    unfold Heap.put
    rw [Heap.frame_setDesc]
    exact Function.update_eq_self_iff.mpr rfl
  apply hl.keep hnext hframe rfl rfl rfl rfl rfl
  . intro size' hsize' d' hd'
    have hb' := hl.bucket size' hsize' d' hd'
    by_cases heq : d' = d
    . subst heq
      rw [Function.update_self, ← hb'.bucketSize_eq, hb.bucketSize_eq]
      exact hb.put hsize hlow hlt ho hf
    . have hne : h.frame d' ≠ h.frame d := by
        intro hcontra
        exact heq (hl.frame_inj (mem_chains hsize' hd') hchain hcontra)
      rw [Function.update_of_ne heq]
      apply hb'.congr
      . exact ⟨_, Function.update_of_ne heq _ _⟩
      . intro p hp
        have hbound := slot_bound hsize' (hb'.mem_slotsOf hp)
        apply Memory.load_store_of_ne
        . omega
        . omega
        . intro hcontra
          rw [hcontra] at hbound
          omega
      . apply objectsIn_erase_of_ne ho
        rw [← hf]
        exact hne.symm
  . intro o' ho'
    exact hl.placed o' (List.mem_of_mem_erase ho')

end Layout

end Malloc
end OS
