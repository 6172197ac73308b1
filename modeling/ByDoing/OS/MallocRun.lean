import ByDoing.OS.MallocPages
import ByDoing.OS.UserRanges

namespace OS
namespace Malloc

open Threaded (IsChain)

namespace Layout

variable {h : Heap} {live : List Obj} {t : Shape} {size d : Nat} {before after : List Nat}

theorem chains_cut (hsize : size ∈ bucketDir) (hchain : t.chain size = before ++ d :: after)
    : (bucketDir.flatMap t.chain).Perm (d :: bucketDir.flatMap (Function.update t.chain size (before ++ after))) := by
  refine (flatMap_perm bucketDir_nodup hsize).trans ?_
  rw [hchain]
  refine (List.perm_middle.append_right _).trans ?_
  rw [List.cons_append]
  exact ((flatMap_update bucketDir_nodup hsize _).symm).cons d

theorem mem_cut (hsize : size ∈ bucketDir) (hchain : t.chain size = before ++ d :: after) {size' e : Nat}
    (he : e ∈ t.chain size') (hne : e ≠ d)
    : e ∈ Function.update t.chain size (before ++ after) size' := by
  by_cases heq : size' = size
  . subst heq
    rw [Function.update_self]
    rw [hchain, List.mem_append, List.mem_cons] at he
    rw [List.mem_append]
    rcases he with he | he | he
    . exact .inl he
    . exact absurd he hne
    . exact .inr he
  . rw [Function.update_of_ne heq]
    exact he

theorem of_mem_cut (hchain : t.chain size = before ++ d :: after) {size' e : Nat}
    (he : e ∈ Function.update t.chain size (before ++ after) size')
    : e ∈ t.chain size' := by
  by_cases heq : size' = size
  . subst heq
    rw [Function.update_self, List.mem_append] at he
    rw [hchain, List.mem_append, List.mem_cons]
    rcases he with he | he
    . exact .inl he
    . exact .inr (.inr he)
  . rw [Function.update_of_ne heq] at he
    exact he

theorem nodup_chain (hl : Layout h live t) (hsize : size ∈ bucketDir) : (t.chain size).Nodup := by
  have hnodup := (List.nodup_append.mp hl.nodup_lists).left
  rw [(flatMap_perm bucketDir_nodup hsize).nodup_iff] at hnodup
  exact (List.nodup_append.mp hnodup).left

theorem notMem_other (hl : Layout h live t) (hsize : size ∈ bucketDir) (hd : d ∈ t.chain size) {size' : Nat}
    (hsize' : size' ∈ bucketDir) (hne : size' ≠ size)
    : d ∉ t.chain size' := by
  intro hd'
  have hsame := (hl.bucket size' hsize' d hd').bucketSize_eq
  rw [(hl.bucket size hsize d hd).bucketSize_eq] at hsame
  exact hne hsame.symm

theorem notMem_free (hl : Layout h live t) (hd : d ∈ bucketDir.flatMap t.chain) : d ∉ t.free := by
  intro hfree
  exact (List.nodup_append.mp hl.nodup_lists).right.right d hd d hfree rfl

-- The heap after the descriptor `d` has been taken off the chain of its size.
structure Unlinked (h : Heap) (t : Shape) (size : Nat) (ds : List Nat) (h' : Heap) : Prop where
  desc_eq : ∀ e, ∃ next, h'.desc e = { h.desc e with next }
  chain : ∀ size' ∈ bucketDir, IsChain h'.next (h'.chain size') (Function.update t.chain size ds size')
  free : IsChain h'.next h.freeBucketDesc t.free
  memory_eq : h'.memory = h.memory
  freeBucketDesc_eq : h'.freeBucketDesc = h.freeBucketDesc
  descPages_eq : h'.descPages = h.descPages

theorem unlink_first (hl : Layout h live t) (hsize : size ∈ bucketDir) (hchain : t.chain size = d :: after)
    : Unlinked h t size after { h with chain := Function.update h.chain size (h.next d) } := by
  constructor
  . intro e
    exact ⟨(h.desc e).next, rfl⟩
  . intro size' hsize'
    dsimp only
    by_cases heq : size' = size
    . subst heq
      have hall := hl.chain size' hsize
      rw [hchain] at hall
      rw [Function.update_self, Function.update_self]
      exact hall.right.right
    . rw [Function.update_of_ne heq, Function.update_of_ne heq]
      exact hl.chain size' hsize'
  . exact hl.free
  . rfl
  . rfl
  . rfl

theorem unlink_after {q : Nat} (hl : Layout h live t) (hsize : size ∈ bucketDir)
    (hchain : t.chain size = before ++ q :: d :: after)
    : Unlinked h t size (before ++ q :: after) (h.setDesc q { h.desc q with next := h.next d }) := by
  have hq : q ∈ t.chain size := by
    rw [hchain]
    exact List.mem_append_right _ List.mem_cons_self
  have hnext : (h.setDesc q { h.desc q with next := h.next d }).next = Function.update h.next q (h.next d) :=
    h.next_setDesc q _
  constructor
  . intro e
    by_cases heq : e = q
    . subst heq
      exact ⟨h.next d, Function.update_self _ _ _⟩
    . exact ⟨(h.desc e).next, Function.update_of_ne heq _ _⟩
  . intro size' hsize'
    rw [hnext]
    show IsChain _ (h.chain size') _
    by_cases heq : size' = size
    . subst heq
      have hall := hl.chain size' hsize
      have hnodup := hl.nodup_chain hsize
      rw [hchain] at hall hnodup
      rw [Function.update_self]
      exact hall.remove hnodup
    . rw [Function.update_of_ne heq]
      exact (hl.chain size' hsize').update (hl.notMem_other hsize hq hsize' heq)
  . rw [hnext]
    exact hl.free.update (hl.notMem_free (mem_chains hsize hq))
  . rfl
  . rfl
  . rfl

theorem Unlinked.desc_setDesc {ds : List Nat} {h' : Heap} (hu : Unlinked h t size ds h') (e : Nat)
    : ∃ next, (h'.setDesc d { h'.desc d with next := h.freeBucketDesc }).desc e = { h.desc e with next } := by
  obtain ⟨next, he⟩ := hu.desc_eq e
  by_cases heq : e = d
  . subst heq
    refine ⟨h.freeBucketDesc, (Function.update_self _ _ _).trans ?_⟩
    rw [he]
  . exact ⟨next, (Function.update_of_ne heq _ _).trans he⟩

theorem Unlinked.frame_setDesc {ds : List Nat} {h' : Heap} (hu : Unlinked h t size ds h') (e : Nat)
    : (h'.setDesc d { h'.desc d with next := h.freeBucketDesc }).frame e = h.frame e := by
  obtain ⟨next, he⟩ := hu.desc_setDesc e
  unfold Heap.frame
  rw [he]

theorem notMem_cut (hl : Layout h live t) (hsize : size ∈ bucketDir) (hchain : t.chain size = before ++ d :: after)
    : d ∉ bucketDir.flatMap (Function.update t.chain size (before ++ after)) := by
  have hnodup := (List.nodup_append.mp hl.nodup_lists).left
  rw [(chains_cut hsize hchain).nodup_iff, List.nodup_cons] at hnodup
  exact hnodup.left

theorem recycle (hl : Layout h live t) (hsize : size ∈ bucketDir) (hchain : t.chain size = before ++ d :: after)
    (hempty : objectsIn live (h.frame d) = []) {h' : Heap} (hu : Unlinked h t size (before ++ after) h')
    : Layout
        { h'.setDesc d { h'.desc d with next := h.freeBucketDesc } with
          memory := h.memory.setMap (h.frame d - lowFrame) 0
          freeBucketDesc := d }
        live { t with chain := Function.update t.chain size (before ++ after), free := d :: t.free } := by
  have hd : d ∈ t.chain size := by
    rw [hchain]
    exact List.mem_append_right _ List.mem_cons_self
  have hmem := mem_chains hsize hd
  obtain ⟨hlow, hhigh, _, hone⟩ := hl.frame_bound hmem
  have hcut := chains_cut hsize hchain
  have hnotMem := hl.notMem_cut hsize hchain
  have hnext : (h'.setDesc d { h'.desc d with next := h.freeBucketDesc }).next
      = Function.update h'.next d h.freeBucketDesc :=
    h'.next_setDesc d _
  have hdesc := fun e => hu.desc_setDesc (d := d) e
  have hframe := fun e => hu.frame_setDesc (d := d) e
  generalize hset : h'.setDesc d { h'.desc d with next := h.freeBucketDesc } = h₁ at hnext hdesc hframe
  have hchain₁ : h₁.chain = h'.chain := by
    rw [← hset]
    rfl
  have hdescs : h₁.descPages = h.descPages := by
    rw [← hset]
    exact hu.descPages_eq
  have hpages : (h.pages t).Perm (h.frame d
      :: h₁.pages { t with chain := Function.update t.chain size (before ++ after), free := d :: t.free }) := by
    apply pages_cons hdescs.symm hcut rfl
    intro e _
    exact (hframe e).symm
  have hkept : ∀ f ∈ h₁.pages { t with chain := Function.update t.chain size (before ++ after), free := d :: t.free },
      f ≠ h.frame d ∧ f ∈ h.pages t := by
    intro f hf
    have hnodup := hl.pages
    rw [hpages.nodup_iff, List.nodup_cons] at hnodup
    refine ⟨?_, hpages.symm.subset (List.mem_cons_of_mem _ hf)⟩
    intro heq
    exact hnodup.left (heq ▸ hf)
  constructor
  . intro size' hsize'
    show IsChain h₁.next (h₁.chain size') _
    rw [hnext, hchain₁]
    exact (hu.chain size' hsize').update fun he => hnotMem (List.mem_flatMap.mpr ⟨size', hsize', he⟩)
  . show IsChain h₁.next _ _
    rw [hnext]
    exact hu.free.push ((hl.chain size hsize).ne_zero hd) (hl.notMem_free hmem)
  . show (_ ++ d :: t.free).Perm (h₁.descPages.flatMap descsOf)
    rw [hdescs]
    refine List.Perm.trans ?_ hl.oneList
    exact List.perm_middle.trans (hcut.append_right t.free).symm
  . intro size' hsize' e he
    apply (hl.bucket size' hsize' e (of_mem_cut hchain he)).congr
    . exact hdesc e
    . intro p _
      rfl
    . exact List.Perm.refl _
  . have hnodup := hl.pages
    rw [hpages.nodup_iff, List.nodup_cons] at hnodup
    exact hnodup.right
  . intro f hf
    obtain ⟨hne, hold⟩ := hkept f hf
    obtain ⟨hlow', hhigh', hone'⟩ := hl.held f hold
    refine ⟨hlow', hhigh', ?_⟩
    show Function.update h.memory.memMap _ _ _ = 1
    rw [Function.update_of_ne (by omega), hone']
  . intro o ho
    obtain ⟨size', hsize', hlen, e, he, hpage⟩ := hl.placed o ho
    have hne : e ≠ d := by
      intro heq
      subst heq
      have hobj := mem_objectsIn.mpr ⟨o, ho, rfl, hpage.symm⟩
      rw [hempty] at hobj
      cases hobj
    exact ⟨size', hsize', hlen, e, mem_cut hsize hchain he hne, (hframe e).trans hpage⟩
  . intro nr hnr hzero
    show lowFrame + nr < h.memory.highMemory
    by_cases heq : nr = h.frame d - lowFrame
    . rw [heq]
      omega
    . apply hl.spare nr hnr
      rw [← hzero]
      exact (Function.update_of_ne heq _ _).symm
  . exact hl.high

theorem freePage_eq (hl : Layout h live t) (hd : d ∈ bucketDir.flatMap t.chain)
    : h.memory.freePage (h.frame d) = .ok (h.memory.setMap (h.frame d - lowFrame) 0) := by
  obtain ⟨hlow, hhigh, _, hone⟩ := hl.frame_bound hd
  unfold Memory.freePage
  rw [if_neg (by omega), if_neg (by omega), hone]
  rfl

theorem findPrev_eq {prev : Nat} (h : Heap) (hprev : prev = 0 ∧ h.chain size = d ∨ prev ≠ 0 ∧ h.next prev = d)
    : h.findPrev size prev d = .ok prev := by
  unfold Heap.findPrev
  apply if_neg
  rcases hprev with ⟨hzero, hchain⟩ | ⟨hzero, hnext⟩
  . simp [hzero, hchain]
  . simp [hzero, hnext]

theorem release_eq {prev : Nat} (hl : Layout h live t) (hd : d ∈ bucketDir.flatMap t.chain) {h' : Heap} {ds : List Nat}
    (hu : Unlinked h t size ds h')
    (hprev : prev = 0 ∧ h.chain size = d ∧ h' = { h with chain := Function.update h.chain size (h.next d) }
      ∨ prev ≠ 0 ∧ h.next prev = d ∧ h' = h.setDesc prev { h.desc prev with next := h.next d })
    : h.release size prev d = .ok
        { h'.setDesc d { h'.desc d with next := h.freeBucketDesc } with
          memory := h.memory.setMap (h.frame d - lowFrame) 0
          freeBucketDesc := d } := by
  have hfind : h.findPrev size prev d = .ok prev := by
    apply findPrev_eq
    rcases hprev with ⟨hzero, hchain, _⟩ | ⟨hzero, hnext, _⟩
    . exact .inl ⟨hzero, hchain⟩
    . exact .inr ⟨hzero, hnext⟩
  have hunlink : h.unlink size prev d = .ok h' := by
    unfold Heap.unlink
    rcases hprev with ⟨hzero, hchain, rfl⟩ | ⟨hzero, _, rfl⟩
    . simp [hzero, hchain]
    . simp [hzero]
  have hframe : (h'.desc d).page / 4096 = h.frame d := by
    obtain ⟨next, he⟩ := hu.desc_eq d
    rw [he]
    rfl
  unfold Heap.release
  simp only [hfind, hunlink, bind, Except.bind]
  rw [hframe, hu.memory_eq, hl.freePage_eq hd, hu.freeBucketDesc_eq]
  rfl

theorem release (hl : Layout h live t) (hsize : size ∈ bucketDir) (hchain : t.chain size = before ++ d :: after)
    (hempty : objectsIn live (h.frame d) = [])
    : ∃ h', h.release size ((0 :: before).getLast (List.cons_ne_nil 0 before)) d = .ok h'
        ∧ Layout h' live { t with chain := Function.update t.chain size (before ++ after), free := d :: t.free }
        ∧ h'.memory = h.memory.setMap (h.frame d - lowFrame) 0 ∧ ∀ e, h'.frame e = h.frame e := by
  have hd : d ∈ bucketDir.flatMap t.chain := by
    apply mem_chains hsize
    rw [hchain]
    exact List.mem_append_right _ List.mem_cons_self
  have hall := hl.chain size hsize
  rw [hchain] at hall
  rcases List.eq_nil_or_concat' before with rfl | ⟨before, q, rfl⟩
  . have hu := hl.unlink_first hsize hchain
    have heq := hl.release_eq hd hu (.inl ⟨rfl, hall.left, rfl⟩)
    exact ⟨_, heq, hl.recycle hsize hchain hempty hu, rfl, hu.frame_setDesc⟩
  . rw [List.append_assoc] at hchain hall
    have hu := hl.unlink_after hsize hchain
    have hq : q ≠ 0 := hall.ne_zero (List.mem_append_right _ List.mem_cons_self)
    have hlast : (0 :: (before ++ [q])).getLast (List.cons_ne_nil _ _) = q := by
      simp
    have heq := hl.release_eq hd hu (.inr ⟨hq, hall.next_eq, rfl⟩)
    rw [hlast]
    have hchain' : t.chain size = (before ++ [q]) ++ d :: after := by
      rw [hchain, List.append_assoc]
    rw [show before ++ q :: after = before ++ [q] ++ after by rw [List.append_assoc]; rfl] at hu
    exact ⟨_, heq, hl.recycle hsize hchain' hempty hu, rfl, hu.frame_setDesc⟩

theorem length_chain (hl : Layout h live t) (hsize : size ∈ bucketDir) : (t.chain size).length < MAX_DESC := by
  have hdescs : ∀ fs : List Nat, (fs.flatMap descsOf).length = 256 * fs.length := by
    intro fs
    induction fs with
    | nil => rfl
    | cons f fs ih =>
      rw [List.flatMap_cons, List.length_append, ih, List.length_cons]
      unfold descsOf
      rw [List.length_map, List.length_range]
      omega
  have hnodup : (0 :: h.descPages).Nodup := by
    rw [List.nodup_cons]
    refine ⟨?_, (List.nodup_append.mp hl.pages).right.left⟩
    intro hzero
    have hlow := (hl.held 0 (List.mem_append_right _ hzero)).left
    unfold lowFrame at hlow
    omega
  have hsub : 0 :: h.descPages ⊆ List.range 4096 := by
    intro f hf
    rw [List.mem_range]
    cases hf with
    | head => decide
    | tail _ hf =>
      have hlt := (hl.held f (List.mem_append_right _ hf)).right.left
      have hle := hl.high
      unfold lowFrame PAGING_PAGES at hle
      omega
  have hpages := (hnodup.subperm hsub).length_le
  rw [List.length_range, List.length_cons] at hpages
  have htotal := hl.oneList.length_eq
  rw [hdescs, List.length_append, (flatMap_perm bucketDir_nodup hsize).length_eq, List.length_append] at htotal
  unfold MAX_DESC
  omega

theorem findBucket (hl : Layout h live t) (hsize : size ∈ bucketDir) (hchain : t.chain size = before ++ d :: after)
    {length : Nat} (hlength : length ≤ size) {sizes : List Nat} (hsub : sizes ⊆ bucketDir) (hmem : size ∈ sizes)
    : h.findBucket (4096 * h.frame d) length sizes
        = .ok (size, (0 :: before).getLast (List.cons_ne_nil 0 before), d) := by
  have hd : d ∈ t.chain size := by
    rw [hchain]
    exact List.mem_append_right _ List.mem_cons_self
  have hpage := (hl.bucket size hsize d hd).page_eq
  have hother : ∀ size' ∈ bucketDir, ∀ e ∈ t.chain size', e ≠ d → ((h.desc e).page == 4096 * h.frame d) = false := by
    intro size' hsize' e he hne
    rw [beq_eq_false_iff_ne, (hl.bucket size' hsize' e he).page_eq]
    intro heq
    exact hne (hl.frame_inj (mem_chains hsize' he) (mem_chains hsize hd) (by omega))
  induction sizes with
  | nil => cases hmem
  | cons size' sizes ih =>
    have hsize' := hsub List.mem_cons_self
    unfold Heap.findBucket
    by_cases heq : size' = size
    . subst heq
      have hnodup := hl.nodup_chain hsize
      have hfuel := hl.length_chain hsize
      rw [hchain] at hnodup hfuel
      rw [List.length_append] at hfuel
      have hall := hl.chain size' hsize
      rw [hchain] at hall
      have hbefore : ∀ e ∈ before, ((h.desc e).page == 4096 * h.frame d) = false := by
        intro e he
        apply hother size' hsize e
        . rw [hchain]
          exact List.mem_append_left _ he
        . intro heq
          exact (List.nodup_append.mp hnodup).right.right e he d List.mem_cons_self heq
      have hfound := @Threaded.search_found h.next _ d (fun e => (h.desc e).page == 4096 * h.frame d) before after
        MAX_DESC 0 hall hbefore (by rw [beq_iff_eq]; exact hpage) (by omega)
      rw [if_neg (by omega), hfound]
      exact if_neg (hall.ne_zero (List.mem_append_right _ List.mem_cons_self))
    . have hmem' : size ∈ sizes := by
        cases hmem with
        | head => exact absurd rfl heq
        | tail _ hmem => exact hmem
      have hrest := ih (fun e he => hsub (List.mem_cons_of_mem _ he)) hmem'
      split
      . exact hrest
      . have hnone := @Threaded.search_none h.next _ _ (fun e => (h.desc e).page == 4096 * h.frame d) MAX_DESC 0
          (hl.chain size' hsize') (by
            intro e he
            apply hother size' hsize' e he
            intro hcontra
            exact hl.notMem_other hsize hd hsize' heq (hcontra ▸ he)) (hl.length_chain hsize')
        rw [hnone]
        exact hrest

theorem needDesc_cases (hl : Layout h live t)
    : (∃ h' t', h.needDesc = .ok h' ∧ Layout h' live t' ∧ h'.freeBucketDesc ≠ 0 ∧ t'.chain = t.chain
          ∧ h.memory.freePages ≤ h'.memory.freePages + 1
          ∧ ∀ d ∈ bucketDir.flatMap t.chain, h'.frame d = h.frame d)
        ∨ h.needDesc = .error .outOfMemory ∧ h.memory.freePages = 0 := by
  unfold Heap.needDesc
  by_cases hzero : h.freeBucketDesc = 0
  . rw [if_pos hzero]
    unfold Heap.initBucketDesc
    cases hfree : h.memory.getFreePage with
    | none => exact .inr ⟨rfl, Memory.freePages_of_none hfree⟩
    | some r =>
      obtain ⟨f, m⟩ := r
      have hg := hl.given hfree
      have hpos := (hl.fresh_bound hg).left
      refine .inl ⟨_, _, rfl, hl.initBucketDesc hg, ?_, rfl, Nat.le_of_eq hg.freePages_eq, ?_⟩
      . show 4096 * f ≠ 0
        omega
      . intro d hd
        have hdesc := (hl.linkDescs_fresh hg).right d hd
        show (linkDescs h.desc h.freeBucketDesc (4096 * f) (4096 / 16 - 1) d).page / 4096 = h.frame d
        rw [hdesc]
        rfl
  . rw [if_neg hzero]
    exact .inl ⟨h, t, rfl, hl, hzero, rfl, Nat.le_succ _, fun _ _ => rfl⟩

theorem newBucket_cases (hl : Layout h live t) (hsize : size ∈ bucketDir)
    : (∃ d h' t', h.newBucket size = .ok (d, h') ∧ Layout h' live t' ∧ d ∈ t'.chain size ∧ (h'.desc d).freeptr ≠ 0
          ∧ ∀ size' ∈ bucketDir, ∀ e ∈ t'.chain size', e = d ∨ e ∈ t.chain size' ∧ h'.frame e = h.frame e)
        ∨ h.newBucket size = .error .outOfMemory ∧ h.memory.freePages < 2 := by
  unfold Heap.newBucket
  rcases hl.needDesc_cases with ⟨h₁, t₁, hok, hl₁, hne, hchain, hpages, hframe⟩ | ⟨herror, hpages⟩
  . rw [hok]
    simp only [bind, Except.bind]
    obtain ⟨rest, hfree, _⟩ := hl₁.free.of_ne_zero hne
    cases hget : h₁.memory.getFreePage with
    | none =>
      have hzero := Memory.freePages_of_none hget
      exact .inr ⟨rfl, by omega⟩
    | some r =>
      obtain ⟨f, m⟩ := r
      have hg := hl₁.given hget
      have hpos := (hl₁.fresh_bound hg).left
      refine .inl ⟨_, _, _, rfl, hl₁.newBucket hsize hfree hg, ?_, ?_, ?_⟩
      . dsimp only
        rw [Function.update_self]
        exact List.mem_cons_self
      . show (Function.update h₁.desc h₁.freeBucketDesc _ h₁.freeBucketDesc).freeptr ≠ 0
        rw [Function.update_self]
        dsimp only
        omega
      . intro size' hsize' e he
        by_cases heq : e = h₁.freeBucketDesc
        . exact .inl heq
        . rcases mem_added he with ⟨hcontra, _⟩ | he
          . exact absurd hcontra heq
          . rw [hchain] at he
            have hsame : ∀ entry, Heap.frame (h₁.setDesc h₁.freeBucketDesc entry) e = h₁.frame e := by
              intro entry
              exact frame_of_desc (Function.update_of_ne heq _ _)
            exact .inr ⟨he, (hsame _).trans (hframe e (mem_chains hsize' he))⟩
  . rw [herror]
    exact .inr ⟨rfl, by omega⟩

end Layout

structure Inv (h : Heap) (live : List Obj) (t : Shape) : Prop where
  layout : Layout h live t
  used : ∀ size ∈ bucketDir, ∀ d ∈ t.chain size, objectsIn live (h.frame d) ≠ []

theorem Heap.frame_put (h : Heap) (obj d : Nat) : (h.put obj d).frame = h.frame := by
  unfold Heap.put
  rw [Heap.frame_setDesc]
  exact Function.update_eq_self_iff.mpr rfl

namespace Inv

variable {h : Heap} {live : List Obj} {t : Shape}

theorem used_of_erase (hi : Inv h live t) {o : Obj} (ho : o ∈ live) {size d : Nat} (hsize : size ∈ bucketDir)
    (hd : d ∈ t.chain size) (hne : h.frame d ≠ o.address / 4096)
    : objectsIn (live.erase o) (h.frame d) ≠ [] := by
  intro hnil
  have hperm := objectsIn_erase_of_ne ho hne.symm
  rw [hnil] at hperm
  exact hi.used size hsize d hd hperm.nil_eq.symm

theorem freeS (hi : Inv h live t) {o : Obj} (ho : o ∈ live) {size : Nat} (hsize : size = 0 ∨ size = o.len)
    : ∃ h' t', h.freeS o.address size = .ok h' ∧ Inv h' (live.erase o) t'
        ∧ h'.memory.memMap = if objectsIn (live.erase o) (o.address / 4096) = []
          then Function.update h.memory.memMap (o.address / 4096 - lowFrame) 0
          else h.memory.memMap := by
  obtain ⟨bdir, hbdir, hlen, d, hd, hf⟩ := hi.layout.placed o ho
  obtain ⟨before, after, hchain⟩ := List.append_of_mem hd
  obtain ⟨slots, hput⟩ := hi.layout.put hbdir hd ho hf
  have hfind := @Layout.findBucket h live t bdir d before after hi.layout hbdir hchain size (by omega) bucketDir
    (List.Subset.refl _) hbdir
  have hpage : o.address - o.address % 4096 = 4096 * h.frame d := by omega
  have hframe := h.frame_put o.address d
  have hrefcnt := (hput.bucket bdir hbdir d hd).refcnt_eq
  rw [hframe, hf] at hrefcnt
  have hfree : h.freeS o.address size
      = if ((h.put o.address d).desc d).refcnt = 0
        then (h.put o.address d).release bdir ((0 :: before).getLast (List.cons_ne_nil 0 before)) d
        else .ok (h.put o.address d) := by
    unfold Heap.freeS
    simp only [hpage, hfind, bind, Except.bind]
    rfl
  have hother : ∀ size' ∈ bucketDir, ∀ e ∈ t.chain size', e ≠ d → objectsIn (live.erase o) (h.frame e) ≠ [] := by
    intro size' hsize' e he hne
    apply hi.used_of_erase ho hsize' he
    rw [← hf]
    intro heq
    exact hne (hi.layout.frame_inj (Layout.mem_chains hsize' he) (Layout.mem_chains hbdir hd) heq)
  rw [hfree, hrefcnt]
  by_cases hempty : objectsIn (live.erase o) (o.address / 4096) = []
  . have hnone : objectsIn (live.erase o) ((h.put o.address d).frame d) = [] := by
      rw [hframe, hf]
      exact hempty
    obtain ⟨h', hok, hlayout, hmemory, hframe'⟩ := hput.release hbdir hchain hnone
    rw [if_pos (by rw [hempty]; rfl), if_pos hempty]
    refine ⟨h', _, hok, ⟨hlayout, ?_⟩, ?_⟩
    . intro size' hsize' e he
      rw [hframe', hframe]
      apply hother size' hsize' e (Layout.of_mem_cut hchain he)
      intro heq
      exact hi.layout.notMem_cut hbdir hchain (heq ▸ List.mem_flatMap.mpr ⟨size', hsize', he⟩)
    . rw [hmemory, hframe, hf]
      rfl
  . rw [if_neg (by rw [List.length_eq_zero_iff]; exact hempty), if_neg hempty]
    refine ⟨_, _, rfl, ⟨hput, ?_⟩, rfl⟩
    intro size' hsize' e he
    rw [hframe]
    by_cases heq : e = d
    . rw [heq, hf]
      exact hempty
    . exact hother size' hsize' e he heq

theorem objectsIn_cons_ne_nil {o : Obj} {f : Nat} (hne : objectsIn live f ≠ []) : objectsIn (o :: live) f ≠ [] := by
  obtain ⟨p, hp⟩ := List.exists_mem_of_ne_nil _ hne
  obtain ⟨o', ho', haddress, hf⟩ := mem_objectsIn.mp hp
  exact List.ne_nil_of_mem (mem_objectsIn.mpr ⟨o', List.mem_cons_of_mem o ho', haddress, hf⟩)

theorem take {size d len : Nat} (hl : Layout h live t) (hsize : size ∈ bucketDir) (hd : d ∈ t.chain size)
    (hfree : (h.desc d).freeptr ≠ 0) (hlen : len ≤ size)
    (hused : ∀ size' ∈ bucketDir, ∀ e ∈ t.chain size', e ≠ d → objectsIn live (h.frame e) ≠ [])
    : ∃ t', Inv (h.take d).snd ({ address := (h.take d).fst, len } :: live) t' := by
  obtain ⟨slots, hlayout, hpage⟩ := hl.take hsize hd hfree hlen
  have hframe : (h.take d).snd.frame = h.frame := by
    unfold Heap.take
    rw [Heap.frame_setDesc]
    exact Function.update_eq_self_iff.mpr rfl
  refine ⟨_, hlayout, ?_⟩
  intro size' hsize' e he
  rw [hframe]
  by_cases heq : e = d
  . rw [heq]
    exact List.ne_nil_of_mem (mem_objectsIn.mpr ⟨_, List.mem_cons_self, rfl, hpage⟩)
  . exact objectsIn_cons_ne_nil (hused size' hsize' e he heq)

theorem find_size {len : Nat} (hlen : len ≤ 4096)
    : ∃ size ∈ bucketDir, len ≤ size ∧ bucketDir.find? (fun size => len ≤ size) = some size := by
  cases hfind : bucketDir.find? fun size => len ≤ size with
  | none =>
    rw [List.find?_eq_none] at hfind
    have hlarge := hfind 4096 (by decide)
    rw [decide_eq_true_eq] at hlarge
    exact absurd hlen hlarge
  | some size =>
    have hfits := List.find?_some hfind
    rw [decide_eq_true_eq] at hfits
    exact ⟨size, List.mem_of_find?_eq_some hfind, hfits, rfl⟩

theorem malloc (hi : Inv h live t) {len : Nat} (hlen : len ≤ 4096)
    : (∃ p h' t', h.malloc len = .ok (p, h') ∧ Inv h' ({ address := p, len } :: live) t')
        ∨ h.malloc len = .error .outOfMemory ∧ h.memory.freePages < 2 := by
  obtain ⟨size, hsize, hfits, hfind⟩ := find_size hlen
  unfold Heap.malloc
  rw [hfind]
  dsimp only
  rcases @Threaded.search_cases h.next _ _ (fun d => (h.desc d).freeptr != 0) MAX_DESC
      (hi.layout.chain size hsize) 0 (hi.layout.length_chain hsize) with
    ⟨d, hd, hfree, prev, hsearch⟩ | ⟨_, prev, hsearch⟩
  . rw [hsearch]
    rw [bne_iff_ne] at hfree
    have hne := (hi.layout.chain size hsize).ne_zero hd
    obtain ⟨t', hinv⟩ := take hi.layout hsize hd hfree hfits fun size' hsize' e he _ => hi.used size' hsize' e he
    refine .inl ⟨_, _, t', ?_, hinv⟩
    simp only [Heap.needBucket, if_neg hne, bind, Except.bind]
    rfl
  . rw [hsearch]
    simp only [Heap.needBucket, if_true]
    rcases hi.layout.newBucket_cases hsize with ⟨d, h₁, t₁, hok, hlayout, hd, hfree, hold⟩ | ⟨herror, hpages⟩
    . obtain ⟨t', hinv⟩ := take hlayout hsize hd hfree hfits (by
        intro size' hsize' e he hne
        rcases hold size' hsize' e he with heq | ⟨he, hframe⟩
        . exact absurd heq hne
        . rw [hframe]
          exact hi.used size' hsize' e he)
      refine .inl ⟨_, _, t', ?_, hinv⟩
      rw [hok]
      rfl
    . rw [herror]
      exact .inr ⟨rfl, hpages⟩

theorem object (hi : Inv h live t) {o : Obj} (ho : o ∈ live)
    : ∃ size ∈ bucketDir, o.len ≤ size ∧ ∃ d ∈ t.chain size, h.frame d = o.address / 4096
        ∧ o.address ∈ slotsOf (h.frame d) size := by
  obtain ⟨size, hsize, hlen, d, hd, hf⟩ := hi.layout.placed o ho
  exact ⟨size, hsize, hlen, d, hd, hf, (hi.layout.bucket size hsize d hd).object ho hf⟩

theorem slot_outside (hi : Inv h live t) {size d p : Nat} (hsize : size ∈ bucketDir) (hd : d ∈ t.chain size)
    (hp : p ∈ t.slots d) {o : Obj} (ho : o ∈ live)
    : ¬(o.address ≤ p ∧ p < o.address + o.len) := by
  intro ⟨hle, hlt⟩
  obtain ⟨size', hsize', hlen, d', hd', hf, hslot'⟩ := hi.object ho
  have hb := hi.layout.bucket size hsize d hd
  have hslot := hb.mem_slotsOf hp
  have hbound := slot_bound hsize hslot
  have hbound' := slot_bound hsize' hslot'
  have hsame : d' = d := by
    apply hi.layout.frame_inj (Layout.mem_chains hsize' hd') (Layout.mem_chains hsize hd)
    omega
  subst hsame
  have hsizes : size' = size := by
    rw [← (hi.layout.bucket size' hsize' d' hd').bucketSize_eq, hb.bucketSize_eq]
  subst hsizes
  have hne : p ≠ o.address := by
    intro heq
    have hnodup := hb.parts.nodup_iff.mpr (nodup_slotsOf hsize)
    have hobj := mem_objectsIn.mpr ⟨o, ho, rfl, hf.symm⟩
    exact (List.nodup_append.mp hnodup).right.right p hp o.address hobj heq
  rcases slots_apart hslot hslot' hne with happart | happart
  . omega
  . omega

theorem held (hi : Inv h live t) {size d : Nat} (hsize : size ∈ bucketDir) (hd : d ∈ t.chain size)
    : ∃ o ∈ live, o.address / 4096 = h.frame d := by
  obtain ⟨p, hp⟩ := List.exists_mem_of_ne_nil _ (hi.used size hsize d hd)
  obtain ⟨o, ho, rfl, hf⟩ := mem_objectsIn.mp hp
  exact ⟨o, ho, hf⟩

end Inv

namespace State

variable {s : State} {t : Shape}

theorem held_of_pages (hi : Inv s.heap s.live t) {f : Nat} (hf : f ∈ s.heap.pages t) : s.Held f := by
  rcases List.mem_append.mp hf with hf | hf
  . obtain ⟨d, hd, rfl⟩ := List.mem_map.mp hf
    obtain ⟨size, hsize, hd⟩ := List.mem_flatMap.mp hd
    exact .inr (hi.held hsize hd)
  . exact .inl hf

theorem others_inv (hi : Inv s.heap s.live t) {m : Memory} (hk : s.Keeps m)
    : Inv { s.heap with memory := m } s.live t := by
  refine ⟨?_, hi.used⟩
  constructor
  . exact hi.layout.chain
  . exact hi.layout.free
  . exact hi.layout.oneList
  . intro size hsize d hd
    apply (hi.layout.bucket size hsize d hd).congr
    . exact ⟨_, rfl⟩
    . intro p hp
      obtain ⟨hpage, haligned⟩ := hi.layout.slot_page hsize hd hp
      apply hk.load_eq p (by omega)
      . rw [hpage]
        exact .inr (hi.held hsize hd)
      . intro o ho
        exact hi.slot_outside hsize hd hp ho
    . exact List.Perm.refl _
  . exact hi.layout.pages
  . intro f hf
    obtain ⟨hlow, hhigh, hone⟩ := hi.layout.held f hf
    show lowFrame ≤ f ∧ f < m.highMemory ∧ m.memMap (f - lowFrame) = 1
    rw [hk.highMemory_eq, hk.memMap_eq f (held_of_pages hi hf)]
    exact ⟨hlow, hhigh, hone⟩
  . exact hi.layout.placed
  . exact hk.free
  . show m.highMemory ≤ _
    rw [hk.highMemory_eq]
    exact hi.layout.high

theorem step_cases (hi : Inv s.heap s.live t) {a : Act} (hallowed : s.Allowed a)
    : (∃ s' t', s.step a = .ok s' ∧ Inv s'.heap s'.live t')
        ∨ (∃ len, a = .malloc len) ∧ s.step a = .error .outOfMemory ∧ s.heap.memory.freePages < 2 := by
  cases a with
  | malloc len =>
    rcases hi.malloc hallowed with ⟨p, h', t', hok, hinv⟩ | ⟨herror, hpages⟩
    . refine .inl ⟨{ heap := h', live := { address := p, len } :: s.live }, t', ?_, hinv⟩
      simp only [step, hok, bind, Except.bind]
      rfl
    . refine .inr ⟨⟨len, rfl⟩, ?_, hpages⟩
      simp only [step, herror, bind, Except.bind]
  | free o size =>
    obtain ⟨h', t', hok, hinv, _⟩ := hi.freeS hallowed.left hallowed.right
    refine .inl ⟨{ heap := h', live := s.live.erase o }, t', ?_, hinv⟩
    simp only [step, hok, bind, Except.bind]
    rfl
  | others m => exact .inl ⟨_, t, rfl, others_inv hi hallowed⟩

theorem init_inv (b : Boot) : ∃ t, Inv (init b).heap (init b).live t := by
  have hsane := b.sane
  refine ⟨{ chain := fun _ => [], free := [], slots := fun _ => [] }, ?_, ?_⟩
  . constructor
    . intro size _
      rfl
    . rfl
    . exact List.Perm.refl _
    . intro size _ d hd
      cases hd
    . exact List.nodup_nil
    . intro f hf
      cases hf
    . intro o ho
      cases ho
    . exact hsane.free
    . exact hsane.high
  . intro size _ d hd
    cases hd

theorem inv_of_reaches {b : Boot} (h : Run.Reaches (fun s a => (s.step a).toOption) Allowed (init b) s)
    : ∃ t, Inv s.heap s.live t := by
  apply h.invariant (fun s => ∃ t, Inv s.heap s.live t)
  . exact init_inv b
  . intro s s' a ⟨t, hi⟩ hallowed hstep
    rcases step_cases hi hallowed with ⟨s₁, t', hok, hinv⟩ | ⟨_, herror, _⟩
    . rw [hok] at hstep
      exact ⟨t', Option.some.inj hstep ▸ hinv⟩
    . rw [herror] at hstep
      cases hstep

def Apart (o o' : Obj) : Prop :=
  o.address ≠ o'.address ∧ (o.address + o.len ≤ o'.address ∨ o'.address + o'.len ≤ o.address)

theorem nodup_objectsIn (hi : Inv s.heap s.live t) (f : Nat) : (objectsIn s.live f).Nodup := by
  by_cases hempty : objectsIn s.live f = []
  . rw [hempty]
    exact List.nodup_nil
  . obtain ⟨p, hp⟩ := List.exists_mem_of_ne_nil _ hempty
    obtain ⟨o, ho, rfl, hf⟩ := mem_objectsIn.mp hp
    obtain ⟨size, hsize, _, d, hd, hframe⟩ := hi.layout.placed o ho
    have hb := hi.layout.bucket size hsize d hd
    have hnodup := hb.parts.nodup_iff.mpr (nodup_slotsOf hsize)
    rw [hframe, hf] at hnodup
    exact (List.nodup_append.mp hnodup).right.left

theorem nodup_addresses (hi : Inv s.heap s.live t) : (s.live.map Obj.address).Nodup := by
  rw [List.nodup_iff_count_le_one]
  intro p
  have hcount := List.nodup_iff_count_le_one.mp (nodup_objectsIn hi (p / 4096)) p
  unfold objectsIn at hcount
  rw [List.count_eq_countP, List.countP_map, List.countP_filter] at hcount
  rw [List.count_eq_countP, List.countP_map]
  refine Nat.le_trans (List.countP_mono_left ?_) hcount
  intro o _ ho
  have haddress : o.address = p := by simpa using ho
  simp [haddress]

theorem apart (hi : Inv s.heap s.live t) : s.live.Pairwise Apart := by
  have haddresses := List.pairwise_map.mp (nodup_addresses hi)
  refine haddresses.imp_of_mem ?_
  intro o o' ho ho' hne
  refine ⟨hne, ?_⟩
  obtain ⟨size, hsize, hlen, d, hd, hf, hslot⟩ := hi.object ho
  obtain ⟨size', hsize', hlen', d', hd', hf', hslot'⟩ := hi.object ho'
  have hbound := slot_bound hsize hslot
  have hbound' := slot_bound hsize' hslot'
  by_cases heq : d = d'
  . subst heq
    have hsizes : size' = size := by
      rw [← (hi.layout.bucket size' hsize' d hd').bucketSize_eq, (hi.layout.bucket size hsize d hd).bucketSize_eq]
    subst hsizes
    have happart := slots_apart hslot hslot' hne
    omega
  . have hframes : s.heap.frame d ≠ s.heap.frame d' := by
      intro hsame
      exact heq (hi.layout.frame_inj (Layout.mem_chains hsize hd) (Layout.mem_chains hsize' hd') hsame)
    omega

/--
The buckets in every state of every run: each descriptor is on exactly one list, and each bucket counts its objects in
use and has the rest of its page on its free list. The objects in use are inside their pages and apart from each other,
and a page goes back exactly when the last object in it is freed.
-/
theorem buckets_sound {b : Boot} (h : Run.Reaches (fun s a => (s.step a).toOption) Allowed (init b) s)
    : (∃ t, Layout s.heap s.live t
          ∧ (∀ d ∈ s.heap.descPages.flatMap descsOf, (bucketDir.flatMap t.chain ++ t.free).count d = 1)
          ∧ ∀ size ∈ bucketDir, ∀ d ∈ t.chain size, objectsIn s.live (s.heap.frame d) ≠ [])
        ∧ (∀ o ∈ s.live, o.address % 4096 + o.len ≤ 4096)
        ∧ s.live.Pairwise Apart
        ∧ (∀ a, s.Allowed a → (∃ s', s.step a = .ok s')
          ∨ (∃ len, a = .malloc len) ∧ s.step a = .error .outOfMemory ∧ s.heap.memory.freePages < 2)
        ∧ ∀ o size s', s.Allowed (.free o size) → s.step (.free o size) = .ok s'
          → s'.heap.memory.memMap = if objectsIn s'.live (o.address / 4096) = []
            then Function.update s.heap.memory.memMap (o.address / 4096 - lowFrame) 0
            else s.heap.memory.memMap := by
  obtain ⟨t, hi⟩ := inv_of_reaches h
  refine ⟨⟨t, hi.layout, ?_, hi.used⟩, ?_, apart hi, ?_, ?_⟩
  . intro d hd
    exact List.count_eq_one_of_mem hi.layout.nodup_lists (hi.layout.oneList.symm.subset hd)
  . intro o ho
    obtain ⟨size, hsize, hlen, d, hd, hf, hslot⟩ := hi.object ho
    have hbound := slot_bound hsize hslot
    omega
  . intro a hallowed
    rcases step_cases hi hallowed with ⟨s', _, hok, _⟩ | herror
    . exact .inl ⟨s', hok⟩
    . exact .inr herror
  . intro o size s' hallowed hstep
    obtain ⟨h', t', hok, _, hmap⟩ := hi.freeS hallowed.left hallowed.right
    simp only [step, hok, bind, Except.bind, pure, Except.pure] at hstep
    rw [← Except.ok.inj hstep]
    exact hmap

def reuseRun : List Act :=
  [.malloc 100, .malloc 70, .free { address := 16769024, len := 100 } 0, .malloc 90]

theorem buckets_sound_reuseRun
    : ∃ s, Run.Reaches (fun s a => (s.step a).toOption) Allowed (init Boot.blank) s
        ∧ s.live = [{ address := 16769024, len := 90 }, { address := 16769152, len := 70 }]
        ∧ s.live.Pairwise Apart := by
  have hlive : (Run.exec (fun s a => (s.step a).toOption) (init Boot.blank) reuseRun).map State.live
      = some [{ address := 16769024, len := 90 }, { address := 16769152, len := 70 }] := by
    decide +kernel
  obtain ⟨s, hexec, hlive⟩ := Option.map_eq_some_iff.mp hlive
  have hreaches : Run.Reaches (fun s a => (s.step a).toOption) Allowed (init Boot.blank) s := by
    apply Run.Reaches.of_exec _ hexec
    refine ⟨show 100 ≤ 4096 by decide, ?_⟩
    intro s1 h1
    refine ⟨show 70 ≤ 4096 by decide, ?_⟩
    intro s2 h2
    refine ⟨⟨?_, .inl rfl⟩, fun _ _ => ⟨show 90 ≤ 4096 by decide, fun _ _ => trivial⟩⟩
    -- the first object is live when it is freed
    have hfirst : (Run.exec (fun s a => (s.step a).toOption) (init Boot.blank) [.malloc 100, .malloc 70]).map State.live
        = some [{ address := 16769152, len := 70 }, { address := 16769024, len := 100 }] := by
      decide +kernel
    simp only [Run.exec, h1, h2, Option.map_some, Option.some.injEq] at hfirst
    rw [hfirst]
    exact List.mem_cons_of_mem _ List.mem_cons_self
  exact ⟨s, hreaches, hlive, (buckets_sound hreaches).right.right.left⟩

end State

end Malloc
end OS
