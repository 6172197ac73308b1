import Mathlib.Data.List.Perm.Subperm
import ByDoing.OS.MallocLayout

namespace OS
namespace Malloc

open Threaded (IsChain)

theorem flatMap_update {c : Nat → List Nat} {sizes : List Nat} {size : Nat} (hnodup : sizes.Nodup)
    (hsize : size ∈ sizes) (ds : List Nat)
    : (sizes.flatMap (Function.update c size ds)).Perm (ds ++ (sizes.erase size).flatMap c) := by
  induction sizes with
  | nil => cases hsize
  | cons size' sizes ih =>
    rw [List.nodup_cons] at hnodup
    by_cases heq : size' = size
    . subst heq
      rw [List.flatMap_cons, Function.update_self, List.erase_cons_head]
      apply List.Perm.append_left
      apply List.Perm.of_eq
      apply List.flatMap_congr
      intro other hother
      apply Function.update_of_ne
      intro hcontra
      exact hnodup.left (hcontra ▸ hother)
    . have hmem : size ∈ sizes := by
        cases hsize with
        | head => exact absurd rfl heq
        | tail _ hmem => exact hmem
      rw [List.flatMap_cons, Function.update_of_ne heq, List.erase_cons_tail (by simpa using heq), List.flatMap_cons]
      exact ((ih hnodup.right hmem).append_left _).trans (List.perm_append_comm_assoc _ _ _)

theorem flatMap_perm {c : Nat → List Nat} {sizes : List Nat} {size : Nat} (hnodup : sizes.Nodup) (hsize : size ∈ sizes)
    : (sizes.flatMap c).Perm (c size ++ (sizes.erase size).flatMap c) := by
  have hperm := flatMap_update (c := c) hnodup hsize (c size)
  rw [Function.update_eq_self] at hperm
  exact hperm

theorem bucketDir_nodup : bucketDir.Nodup := by
  decide

theorem linkObjects_spec {size : Nat} (hpos : 0 < size) (haligned : size % 4 = 0) {n cp : Nat} {m : Memory}
    (hcp : cp % 4 = 0) (hne : cp ≠ 0) (hbound : cp + size * n < 2 ^ 32)
    : IsChain (linkObjects m size cp n).load cp (Threaded.row size cp (n + 1))
        ∧ (linkObjects m size cp n).memMap = m.memMap
        ∧ (linkObjects m size cp n).highMemory = m.highMemory
        ∧ ∀ p, p % 4 = 0 → p ∉ Threaded.row size cp (n + 1) → (linkObjects m size cp n).load p = m.load p := by
  induction n generalizing cp m with
  | zero =>
    refine ⟨⟨rfl, hne, m.load_store_self cp (by decide)⟩, rfl, rfl, ?_⟩
    intro p hp hother
    apply m.load_store_of_ne 0 hcp hp
    intro heq
    exact hother (heq ▸ List.mem_cons_self)
  | succ n ih =>
    rw [Nat.mul_succ] at hbound
    obtain ⟨hchain, hmap, hhigh, hload⟩ :=
      @ih (cp + size) (m.store cp (cp + size)) (by omega) (by omega) (by omega)
    have hfirst : (linkObjects m size cp (n + 1)).load cp = cp + size := by
      rw [linkObjects, hload cp hcp]
      . exact m.load_store_self cp (by omega)
      . intro hmem
        have hle := Threaded.le_of_mem_row hmem
        omega
    refine ⟨⟨rfl, hne, ?_⟩, hmap, hhigh, ?_⟩
    . rw [hfirst]
      exact hchain
    . intro p hp hother
      rw [linkObjects, hload p hp]
      . apply m.load_store_of_ne _ hcp hp
        intro heq
        exact hother (heq ▸ List.mem_cons_self)
      . intro hmem
        exact hother (List.mem_cons_of_mem cp hmem)

theorem linkDescs_spec {free : Nat} {ds : List Nat} {n bdesc : Nat} {desc : Nat → BucketDesc} (hne : bdesc ≠ 0)
    (hfree : IsChain (fun d => (desc d).next) free ds) (hds : ∀ d ∈ ds, d ∉ Threaded.row 16 bdesc (n + 1))
    : IsChain (fun d => (linkDescs desc free bdesc n d).next) bdesc (Threaded.row 16 bdesc (n + 1) ++ ds)
        ∧ ∀ d, d ∉ Threaded.row 16 bdesc (n + 1) → linkDescs desc free bdesc n d = desc d := by
  induction n generalizing bdesc desc with
  | zero =>
    have hsame : ∀ d, d ∉ Threaded.row 16 bdesc 1 → linkDescs desc free bdesc 0 d = desc d := by
      intro d hother
      apply Function.update_of_ne
      intro heq
      exact hother (heq ▸ List.mem_cons_self)
    refine ⟨⟨rfl, hne, ?_⟩, hsame⟩
    have hfirst : linkDescs desc free bdesc 0 bdesc
        = { page := 0, next := free, freeptr := 0, refcnt := 0, bucketSize := 0 } :=
      Function.update_self _ _ _
    dsimp only
    rw [hfirst]
    apply hfree.congr
    intro d hd
    rw [hsame d (hds d hd)]
  | succ n ih =>
    generalize hfirst : (BucketDesc.mk 0 (bdesc + 16) 0 0 0) = first
    have hstep : linkDescs desc free bdesc (n + 1)
        = linkDescs (Function.update desc bdesc first) free (bdesc + 16) n := by
      rw [← hfirst]
      rfl
    have hfree' : IsChain (fun d => (Function.update desc bdesc first d).next) free ds := by
      apply hfree.congr
      intro d hd
      rw [Function.update_of_ne]
      intro heq
      exact hds d hd (heq ▸ List.mem_cons_self)
    obtain ⟨hchain, hother⟩ := @ih (bdesc + 16) _ (by omega) hfree' (by
      intro d hd hmem
      exact hds d hd (List.mem_cons_of_mem bdesc hmem))
    have hnotMem : bdesc ∉ Threaded.row 16 (bdesc + 16) (n + 1) := by
      intro hmem
      have hle := Threaded.le_of_mem_row hmem
      omega
    rw [hstep]
    refine ⟨⟨rfl, hne, ?_⟩, ?_⟩
    . dsimp only
      rw [hother bdesc hnotMem, Function.update_self, show first.next = bdesc + 16 by rw [← hfirst]]
      exact hchain
    . intro d hd
      rw [hother d fun hmem => hd (List.mem_cons_of_mem bdesc hmem)]
      apply Function.update_of_ne
      intro heq
      exact hd (heq ▸ List.mem_cons_self)

theorem mem_descsOf {f d : Nat} (h : d ∈ descsOf f) : d / 4096 = f := by
  unfold descsOf at h
  obtain ⟨i, hi, rfl⟩ := List.mem_map.mp h
  rw [List.mem_range] at hi
  omega

theorem descsOf_eq_row (f : Nat) : descsOf f = Threaded.row 16 (4096 * f) (4096 / 16 - 1 + 1) := by
  rw [Threaded.row_eq_map]
  rfl

theorem slotsOf_eq_row {f size : Nat} (hsize : size ∈ bucketDir)
    : slotsOf f size = Threaded.row size (4096 * f) (4096 / size - 1 + 1) := by
  have hpos : 0 < 4096 / size := by
    obtain ⟨hlow, hhigh, _⟩ := bucketDir_size hsize
    exact Nat.div_pos hhigh (by omega)
  rw [Threaded.row_eq_map, Nat.sub_add_cancel hpos]
  rfl

namespace Layout

variable {h : Heap} {live : List Obj} {t : Shape}

-- What `get_free_page` returns to the buckets.
structure Given (h : Heap) (t : Shape) (f : Nat) (m : Memory) : Prop where
  fresh : f ∉ h.pages t
  low : lowFrame ≤ f
  high : f < h.memory.highMemory
  memMap_eq : m.memMap = Function.update h.memory.memMap (f - lowFrame) 1
  highMemory_eq : m.highMemory = h.memory.highMemory
  load_eq : ∀ p, p / 4096 ≠ f → m.load p = h.memory.load p
  freePages_eq : h.memory.freePages = m.freePages + 1

theorem given (hl : Layout h live t) {f : Nat} {m : Memory} (hfree : h.memory.getFreePage = some (f, m))
    : Given h t f m := by
  obtain ⟨nr, hnr, hzero, rfl, rfl⟩ := Memory.getFreePage_eq_some hfree
  have hindex : lowFrame + nr - lowFrame = nr := Nat.add_sub_cancel_left _ _
  constructor
  . intro hmem
    have hone := (hl.held _ hmem).right.right
    rw [hindex, hzero] at hone
    cases hone
  . exact Nat.le_add_right _ _
  . exact hl.spare nr hnr hzero
  . rw [hindex]
    rfl
  . rfl
  . intro p hp
    unfold Memory.load
    show (Function.update h.memory.ram (lowFrame + nr) _ _ _).toNat = _
    rw [Function.update_of_ne hp]
  . exact Memory.freePages_of_update hnr hzero rfl

theorem Given.held {f : Nat} {m : Memory} (hg : Given h t f m) (hl : Layout h live t) {g : Nat}
    (hmem : g = f ∨ g ∈ h.pages t)
    : lowFrame ≤ g ∧ g < m.highMemory ∧ m.memMap (g - lowFrame) = 1 := by
  rw [hg.highMemory_eq, hg.memMap_eq]
  rcases hmem with rfl | hmem
  . exact ⟨hg.low, hg.high, Function.update_self _ _ _⟩
  . obtain ⟨hlow, hhigh, hone⟩ := hl.held g hmem
    refine ⟨hlow, hhigh, ?_⟩
    rw [Function.update_of_ne, hone]
    intro heq
    have hfrom := hg.low
    have hsame : g = f := by omega
    exact hg.fresh (hsame ▸ hmem)

theorem Given.spare {f : Nat} {m : Memory} (hg : Given h t f m) (hl : Layout h live t) {nr : Nat}
    (hnr : nr < PAGING_PAGES) (hzero : m.memMap nr = 0)
    : lowFrame + nr < m.highMemory := by
  rw [hg.highMemory_eq]
  apply hl.spare nr hnr
  rw [hg.memMap_eq] at hzero
  by_cases heq : nr = f - lowFrame
  . rw [heq, Function.update_self] at hzero
    cases hzero
  . rw [Function.update_of_ne heq] at hzero
    exact hzero

theorem desc_page (hl : Layout h live t) {d : Nat} (hd : d ∈ bucketDir.flatMap t.chain ++ t.free)
    : d / 4096 ∈ h.descPages := by
  obtain ⟨f, hf, hmem⟩ := List.mem_flatMap.mp (hl.oneList.subset hd)
  rw [mem_descsOf hmem]
  exact hf

theorem slot_page (hl : Layout h live t) {size d p : Nat} (hsize : size ∈ bucketDir) (hd : d ∈ t.chain size)
    (hp : p ∈ t.slots d)
    : p / 4096 = h.frame d ∧ p % 16 = 0 := by
  have hbound := slot_bound hsize ((hl.bucket size hsize d hd).mem_slotsOf hp)
  exact ⟨hbound.right.right.left, hbound.right.right.right.left⟩

theorem frame_mem (_ : Layout h live t) {d : Nat} (hd : d ∈ bucketDir.flatMap t.chain) : h.frame d ∈ h.pages t :=
  List.mem_append_left _ (List.mem_map_of_mem hd)

theorem fresh_bound (hl : Layout h live t) {f : Nat} {m : Memory} (hg : Given h t f m) : 0 < f ∧ f < 4096 := by
  have hfrom := hg.low
  have hto := hg.high
  have hle := hl.high
  unfold lowFrame at hfrom
  unfold lowFrame PAGING_PAGES at hle
  omega

theorem notMem_descsOf (hl : Layout h live t) {f : Nat} {m : Memory} (hg : Given h t f m) {d : Nat}
    (hd : d ∈ bucketDir.flatMap t.chain ++ t.free)
    : d ∉ descsOf f := by
  intro hmem
  have hpage := hl.desc_page hd
  rw [mem_descsOf hmem] at hpage
  exact hg.fresh (List.mem_append_right _ hpage)

theorem bucket_of_given (hl : Layout h live t) {f : Nat} {m : Memory} (hg : Given h t f m) {h' : Heap}
    (hload : ∀ p, p % 16 = 0 → p / 4096 ≠ f → h'.memory.load p = m.load p) {size d : Nat} (hsize : size ∈ bucketDir)
    (hd : d ∈ t.chain size) (hdesc : h'.desc d = h.desc d)
    : Bucket h' live size d (t.slots d) := by
  apply (hl.bucket size hsize d hd).congr ⟨_, hdesc⟩
  . intro p hp
    obtain ⟨hpage, haligned⟩ := hl.slot_page hsize hd hp
    have hne : p / 4096 ≠ f := by
      intro heq
      rw [heq] at hpage
      exact hg.fresh (hpage ▸ hl.frame_mem (mem_chains hsize hd))
    rw [hload p haligned hne, hg.load_eq p hne]
  . exact List.Perm.refl _

theorem frame_of_desc {h' : Heap} {d : Nat} (hdesc : h'.desc d = h.desc d) : h'.frame d = h.frame d := by
  unfold Heap.frame
  rw [hdesc]

theorem linkDescs_fresh (hl : Layout h live t) {f : Nat} {m : Memory} (hg : Given h t f m)
    : IsChain (fun d => (linkDescs h.desc h.freeBucketDesc (4096 * f) (4096 / 16 - 1) d).next) (4096 * f)
          (descsOf f ++ t.free)
        ∧ ∀ d ∈ bucketDir.flatMap t.chain,
          linkDescs h.desc h.freeBucketDesc (4096 * f) (4096 / 16 - 1) d = h.desc d := by
  have hpos := (hl.fresh_bound hg).left
  have hne : 4096 * f ≠ 0 := by omega
  obtain ⟨hfreeList, hother⟩ := linkDescs_spec (n := 4096 / 16 - 1) hne hl.free (by
    intro d hd
    rw [← descsOf_eq_row]
    exact hl.notMem_descsOf hg (List.mem_append_right _ hd))
  rw [← descsOf_eq_row] at hfreeList hother
  refine ⟨hfreeList, ?_⟩
  intro d hd
  exact hother d (hl.notMem_descsOf hg (List.mem_append_left _ hd))

theorem initBucketDesc (hl : Layout h live t) {f : Nat} {m : Memory} (hg : Given h t f m)
    : Layout
        { h with
          memory := m
          desc := linkDescs h.desc h.freeBucketDesc (4096 * f) (4096 / 16 - 1)
          freeBucketDesc := 4096 * f
          descPages := f :: h.descPages }
        live { t with free := descsOf f ++ t.free } := by
  obtain ⟨hfreeList, hsame⟩ := hl.linkDescs_fresh hg
  generalize linkDescs h.desc h.freeBucketDesc (4096 * f) (4096 / 16 - 1) = desc at hfreeList hsame ⊢
  have hpages : Heap.pages
      { h with memory := m, desc, freeBucketDesc := 4096 * f, descPages := f :: h.descPages }
      { t with free := descsOf f ++ t.free } = (bucketDir.flatMap t.chain).map h.frame ++ f :: h.descPages := by
    exact congrArg (· ++ f :: h.descPages)
      (List.map_congr_left fun d hd => congrArg (fun e => e.page / 4096) (hsame d hd))
  constructor
  . intro size hsize
    apply (hl.chain size hsize).congr
    intro d hd
    exact congrArg BucketDesc.next (hsame d (mem_chains hsize hd))
  . exact hfreeList
  . refine List.Perm.trans ?_ (hl.oneList.append_left (descsOf f))
    exact List.perm_append_comm_assoc _ _ _
  . intro size hsize d hd
    apply hl.bucket_of_given hg _ hsize hd (hsame d (mem_chains hsize hd))
    intro p _ _
    rfl
  . rw [hpages, List.perm_middle.nodup_iff, List.nodup_cons]
    exact ⟨hg.fresh, hl.pages⟩
  . intro g hmem
    rw [hpages] at hmem
    apply hg.held hl
    exact List.mem_cons.mp (List.perm_middle.subset hmem)
  . intro o ho
    obtain ⟨size, hsize, hlen, d, hd, hframe⟩ := hl.placed o ho
    exact ⟨size, hsize, hlen, d, hd, (frame_of_desc (hsame d (mem_chains hsize hd))).trans hframe⟩
  . intro nr
    exact hg.spare hl
  . show m.highMemory ≤ _
    rw [hg.highMemory_eq]
    exact hl.high

theorem nodup_descsOf (f : Nat) : (descsOf f).Nodup := by
  apply List.Nodup.map _ List.nodup_range
  intro i j heq
  have hsame : 4096 * f + 16 * i = 4096 * f + 16 * j := heq
  omega

theorem nodup_lists (hl : Layout h live t) : (bucketDir.flatMap t.chain ++ t.free).Nodup := by
  rw [hl.oneList.nodup_iff, List.nodup_flatMap]
  refine ⟨fun f _ => nodup_descsOf f, ?_⟩
  refine (List.nodup_append.mp hl.pages).right.left.imp ?_
  intro f g hne
  show List.Disjoint (descsOf f) (descsOf g)
  intro d hf hg
  exact hne ((mem_descsOf hf).symm.trans (mem_descsOf hg))

theorem objectsIn_fresh (hl : Layout h live t) {f : Nat} {m : Memory} (hg : Given h t f m) : objectsIn live f = [] := by
  rw [List.eq_nil_iff_forall_not_mem]
  intro p hp
  obtain ⟨o, ho, rfl, hf⟩ := mem_objectsIn.mp hp
  obtain ⟨size, hsize, _, d, hd, hframe⟩ := hl.placed o ho
  rw [hf] at hframe
  exact hg.fresh (hframe ▸ hl.frame_mem (mem_chains hsize hd))

theorem linkObjects_fresh (hl : Layout h live t) {f : Nat} {m : Memory} (hg : Given h t f m) {size : Nat}
    (hsize : size ∈ bucketDir)
    : IsChain (linkObjects m size (4096 * f) (4096 / size - 1)).load (4096 * f) (slotsOf f size)
        ∧ (linkObjects m size (4096 * f) (4096 / size - 1)).memMap = m.memMap
        ∧ (linkObjects m size (4096 * f) (4096 / size - 1)).highMemory = m.highMemory
        ∧ ∀ p, p % 16 = 0 → p / 4096 ≠ f
          → (linkObjects m size (4096 * f) (4096 / size - 1)).load p = m.load p := by
  obtain ⟨hlow, hhigh, hdiv, hmul⟩ := bucketDir_size hsize
  obtain ⟨hpos, hlt⟩ := hl.fresh_bound hg
  have hle : size * (4096 / size - 1) ≤ size * (4096 / size) := Nat.mul_le_mul_left size (Nat.sub_le _ _)
  obtain ⟨hobjects, hmap, hhighMemory, hload⟩ := @linkObjects_spec size (by omega) (by omega) (4096 / size - 1)
    (4096 * f) m (by omega) (by omega) (by omega)
  rw [← slotsOf_eq_row hsize] at hobjects hload
  refine ⟨hobjects, hmap, hhighMemory, ?_⟩
  intro p haligned hpage
  apply hload p (by omega)
  intro hmem
  exact hpage (slot_bound hsize hmem).right.right.left

theorem pages_cons {h' : Heap} {t' : Shape} {d f : Nat} (hdescs : h'.descPages = h.descPages)
    (hchain : (bucketDir.flatMap t'.chain).Perm (d :: bucketDir.flatMap t.chain)) (hself : h'.frame d = f)
    (hsame : ∀ e ∈ bucketDir.flatMap t.chain, h'.frame e = h.frame e)
    : (h'.pages t').Perm (f :: h.pages t) := by
  unfold Heap.pages
  rw [hdescs, ← List.cons_append]
  apply List.Perm.append_right
  refine (hchain.map h'.frame).trans ?_
  rw [List.map_cons, hself, List.map_congr_left hsame]

theorem mem_added {size size' d e : Nat} (he : e ∈ Function.update t.chain size (d :: t.chain size) size')
    : e = d ∧ size' = size ∨ e ∈ t.chain size' := by
  by_cases heq : size' = size
  . subst heq
    rw [Function.update_self, List.mem_cons] at he
    rcases he with rfl | he
    . exact .inl ⟨rfl, rfl⟩
    . exact .inr he
  . rw [Function.update_of_ne heq] at he
    exact .inr he

theorem newBucket (hl : Layout h live t) {size d : Nat} {rest : List Nat} (hsize : size ∈ bucketDir)
    (hfree : t.free = d :: rest) {f : Nat} {m : Memory} (hg : Given h t f m)
    : Layout
        { h.setDesc d { page := 4096 * f, next := h.chain size, freeptr := 4096 * f, refcnt := 0, bucketSize := size } with
          memory := linkObjects m size (4096 * f) (4096 / size - 1)
          freeBucketDesc := h.next d
          chain := Function.update h.chain size d }
        live
        {
          chain := Function.update t.chain size (d :: t.chain size)
          free := rest
          slots := Function.update t.slots d (slotsOf f size)
        } := by
  obtain ⟨hobjects, hmap, hhighMemory, hload⟩ := hl.linkObjects_fresh hg hsize
  generalize linkObjects m size (4096 * f) (4096 / size - 1) = m' at hobjects hmap hhighMemory hload ⊢
  have hnodup := hl.nodup_lists
  rw [hfree, List.nodup_append] at hnodup
  have hnotMem : d ∉ bucketDir.flatMap t.chain := by
    intro hd
    exact hnodup.right.right d hd d List.mem_cons_self rfl
  have hfreeList := hl.free
  rw [hfree] at hfreeList
  obtain ⟨_, hdzero, hrest⟩ := hfreeList
  generalize hentry : BucketDesc.mk (4096 * f) (h.chain size) (4096 * f) 0 size = entry
  have hdesc : ∀ e ∈ bucketDir.flatMap t.chain, (h.setDesc d entry).desc e = h.desc e := by
    intro e he
    apply Function.update_of_ne
    intro heq
    exact hnotMem (heq ▸ he)
  have hself : (h.setDesc d entry).desc d = entry := Function.update_self _ _ _
  have hchains := (flatMap_update (c := t.chain) bucketDir_nodup hsize (d :: t.chain size)).trans
    (((flatMap_perm bucketDir_nodup hsize).symm).cons d)
  have hnext : (h.setDesc d entry).next = Function.update h.next d (h.chain size) := by
    rw [Heap.next_setDesc, ← hentry]
  have hframe : (h.setDesc d entry).frame d = f := by
    unfold Heap.frame
    rw [hself, ← hentry]
    dsimp only
    omega
  have hpages : ((h.setDesc d entry).pages
      { t with chain := Function.update t.chain size (d :: t.chain size) }).Perm (f :: h.pages t) :=
    pages_cons rfl hchains hframe fun e he => frame_of_desc (hdesc e he)
  constructor
  . intro size' hsize'
    show IsChain (h.setDesc d entry).next _ _
    rw [hnext]
    by_cases heq : size' = size
    . subst heq
      dsimp only
      rw [Function.update_self, Function.update_self]
      exact (hl.chain size' hsize).push hdzero fun hd => hnotMem (mem_chains hsize hd)
    . dsimp only
      rw [Function.update_of_ne heq, Function.update_of_ne heq]
      exact (hl.chain size' hsize').update fun hd => hnotMem (mem_chains hsize' hd)
  . show IsChain (h.setDesc d entry).next _ _
    rw [hnext]
    exact hrest.update (List.nodup_cons.mp hnodup.right.left).left
  . refine List.Perm.trans ?_ hl.oneList
    rw [hfree]
    exact (hchains.append_right rest).trans List.perm_middle.symm
  . intro size' hsize' e he
    rcases mem_added he with ⟨rfl, rfl⟩ | he
    . dsimp only
      rw [Function.update_self]
      have hnil := hl.objectsIn_fresh hg
      constructor
      . show ((h.setDesc e entry).desc e).bucketSize = size'
        rw [hself, ← hentry]
      . show ((h.setDesc e entry).desc e).page = 4096 * (h.setDesc e entry).frame e
        rw [hframe, hself, ← hentry]
      . show IsChain m'.load ((h.setDesc e entry).desc e).freeptr _
        rw [hself, ← hentry]
        exact hobjects
      . show (slotsOf f size' ++ objectsIn live ((h.setDesc e entry).frame e)).Perm
          (slotsOf ((h.setDesc e entry).frame e) size')
        rw [hframe, hnil, List.append_nil]
      . show ((h.setDesc e entry).desc e).refcnt = (objectsIn live ((h.setDesc e entry).frame e)).length
        rw [hframe, hnil, hself, ← hentry]
        rfl
    . have hmem := mem_chains hsize' he
      have hne : e ≠ d := fun heq => hnotMem (heq ▸ hmem)
      dsimp only
      rw [Function.update_of_ne hne]
      exact hl.bucket_of_given hg hload hsize' he (hdesc e hmem)
  . exact hpages.nodup_iff.mpr (List.nodup_cons.mpr ⟨hg.fresh, hl.pages⟩)
  . intro g hmem
    show lowFrame ≤ g ∧ g < m'.highMemory ∧ m'.memMap (g - lowFrame) = 1
    rw [hmap, hhighMemory]
    exact hg.held hl (List.mem_cons.mp (hpages.subset hmem))
  . intro o ho
    obtain ⟨size', hsize', hlen, e, he, hpage⟩ := hl.placed o ho
    refine ⟨size', hsize', hlen, e, ?_, (frame_of_desc (hdesc e (mem_chains hsize' he))).trans hpage⟩
    dsimp only
    by_cases heq : size' = size
    . subst heq
      rw [Function.update_self]
      exact List.mem_cons_of_mem d he
    . rw [Function.update_of_ne heq]
      exact he
  . intro nr hnr hzero
    show lowFrame + nr < m'.highMemory
    rw [hhighMemory]
    apply hg.spare hl hnr
    rw [← hmap]
    exact hzero
  . show m'.highMemory ≤ _
    rw [hhighMemory, hg.highMemory_eq]
    exact hl.high

end Layout

end Malloc
end OS
