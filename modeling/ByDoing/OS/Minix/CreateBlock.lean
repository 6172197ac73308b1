import ByDoing.OS.Minix.Entries

namespace OS
namespace Minix

section Create

open Machine

theorem newBlock_ensures {s : Fs Slot} {dev : Nat} {Q : Nat → Fs Slot → Prop} {E : Stop → Prop}
    (hQ : ∀ r s', NewBlock s s' dev r → Q r s') (hE : ∀ e : Stop, e ≠ .fault → ¬ e.OfBmap → E e)
    : Ensures (newBlock dev) s Q E := by
  cases hrun : newBlock dev s with
  | ok p => exact .of_eq_ok hrun (hQ _ _ (newBlock_of_eq_ok hrun))
  | error e =>
    have hpanic : Ensures (newBlock dev) s (fun _ _ => True) E := by
      unfold newBlock
      apply Ensures.bind
      apply Ensures.get
      split
      . exact .stop (hE _ (by simp) (by simp [Stop.OfBmap]))
      . split
        . exact .pure trivial
        . next i j hfirst =>
          obtain ⟨_, _, m, hmap, hbit⟩ := firstClear_spec hfirst
          simp only [hmap, hbit, Bool.false_eq_true, if_false]
          apply Ensures.bind
          apply Ensures.modify
          apply Ensures.ite
          . intro _
            exact .pure trivial
          intro _
          apply Ensures.bind
          apply Ensures.of_eq_ok (getblk_eq _ _ _)
          apply Ensures.ite
          . intro _
            apply Ensures.bind
            exact .stop (hE _ (by simp) (by simp [Stop.OfBmap]))
          intro hcount
          apply Ensures.bind
          apply Ensures.modify
          apply Ensures.bind
          rw [put_put]
          apply brelse_ensures
          . intro _ _ _
            exact .pure trivial
          . intro hzero
            rw [count_put, if_pos ⟨rfl, rfl⟩] at hzero
            exact absurd hzero (by simp)
    exact .of_eq_error hrun (hpanic.error hrun)

/--
`_bmap` may have allocated: the users of the buffers are those from before, and of the inodes only one may have got
zones.
-/
structure Grown (s s' : Fs Slot) (inode : Slot) : Prop where
  count : s'.count = s.count
  inode : ∃ zone ctime dirt, s'.inode
    = Function.update s.inode inode { s.inode inode with iZone := zone, iCtime := ctime, iDirt := dirt }

namespace Grown

variable {s s₁ s' : Fs Slot} {inode : Slot}

theorem of_eq (hcount : s'.count = s.count) (hinode : s'.inode = s.inode) : Grown s s' inode where
  count := hcount
  inode := ⟨(s.inode inode).iZone, (s.inode inode).iCtime, (s.inode inode).iDirt, by simp [hinode]⟩

theorem of_calm (h : Calm s s') : Grown s s' inode :=
  of_eq h.count h.inode

theorem trans (h : Grown s s₁ inode) (h₁ : Grown s₁ s' inode) : Grown s s' inode where
  count := h₁.count.trans h.count
  inode := by
    obtain ⟨_, _, _, hinode⟩ := h.inode
    obtain ⟨zone, ctime, dirt, hinode₁⟩ := h₁.inode
    refine ⟨zone, ctime, dirt, ?_⟩
    rw [hinode₁, hinode]
    simp

theorem iDev (h : Grown s s' inode) : (s'.inode inode).iDev = (s.inode inode).iDev := by
  obtain ⟨_, _, _, hinode⟩ := h.inode
  simp [hinode]

end Grown

theorem createZone_ensures {s : Fs Slot} {inode : Slot} {k : Nat} {Q : Unit → Fs Slot → Prop} {E : Stop → Prop}
    (hold : (s.inode inode).iZone k ≠ 0 → Q () s)
    (hnew : (s.inode inode).iZone k = 0 → ∀ s', Grown s s' inode →
      ((s'.inode inode).iZone k ≠ 0 →
        s'.content (s.inode inode).iDev ((s'.inode inode).iZone k) = some fun _ => 0) → Q () s')
    (hE : (s.inode inode).iZone k = 0 → ∀ e : Stop, e ≠ .fault → ¬ e.OfBmap → E e)
    : Ensures (createZone inode k true) s Q E := by
  unfold createZone
  apply Ensures.bind
  apply Ensures.get
  apply Ensures.ite
  . rintro ⟨_, hzero⟩
    apply Ensures.bind
    apply newBlock_ensures _ (hE hzero)
    intro r s₁ hblock
    apply Ensures.ite
    . intro hr
      apply Ensures.modify
      apply hnew hzero
      . exact ⟨hblock.count, ⟨_, _, _, by rw [inode_setInode, hblock.inode]⟩⟩
      . intro _
        simp only [inode_setInode, Function.update_self]
        exact hblock.content_new hr
    . intro hr
      apply Ensures.pure
      apply hnew hzero s₁ (.of_eq hblock.count hblock.inode)
      intro hne
      rw [hblock.inode] at hne
      exact absurd hzero hne
  . intro hnot
    apply Ensures.pure
    apply hold
    intro hzero
    exact hnot ⟨rfl, hzero⟩

theorem indexEntry_ensures {s : Fs Slot} {dev block k : Nat} {Q : Nat → Fs Slot → Prop} {E : Stop → Prop}
    (hnone : s.content dev block = none → ∀ s', Calm s s' → Q 0 s')
    (hold : ∀ data, s.content dev block = some data → data k ≠ 0 → ∀ s', Calm s s' → Q (data k) s')
    (hnew : ∀ data, s.content dev block = some data → data k = 0 → ∀ r s', s'.count = s.count →
      s'.inode = s.inode → (r ≠ 0 → s'.content dev r = some fun _ => 0) → Q r s')
    (hE : ∀ data, s.content dev block = some data → data k = 0 → ∀ e : Stop, e ≠ .fault → ¬ e.OfBmap → E e)
    : Ensures (indexEntry dev block k true) s Q E := by
  unfold indexEntry
  apply Ensures.bind
  apply bread_ensures
  intro b bh hread
  have hcontent := hread.content
  cases b with
  | false =>
    rw [if_neg (by simp)]
    exact .pure (hnone hcontent _ hread.calm_false)
  | true =>
    rw [if_pos rfl]
    apply Ensures.bind
    apply Ensures.of_eq_ok (bData_eq (cache_put_self s dev block bh))
    apply Ensures.ite
    . rintro ⟨_, hzero⟩
      apply Ensures.bind
      apply newBlock_ensures _ (hE _ hcontent hzero)
      intro r s₁ hblock
      have hcache : r ≠ 0 → r ≠ block := by
        rintro hr rfl
        have hcount := congrFun (congrFun hblock.count dev) r
        rw [Fs.count, (hblock.fresh hr).right.right, count_put, if_pos ⟨rfl, rfl⟩, hread.count] at hcount
        simp [zeroed] at hcount
      have hheld : ∃ bh', s₁.cache dev block = some bh' ∧ bh'.bCount = bh.bCount := by
        have hcount := congrFun (congrFun hblock.count dev) block
        rw [count_put, if_pos ⟨rfl, rfl⟩] at hcount
        unfold Fs.count at hcount
        cases hbh : s₁.cache dev block with
        | none =>
          rw [hbh, hread.count] at hcount
          simp at hcount
        | some bh' =>
          rw [hbh] at hcount
          exact ⟨bh', rfl, hcount⟩
      obtain ⟨bh', hbh', hcount'⟩ := hheld
      have hpos : 0 < bh'.bCount := by
        rw [hcount', hread.count]
        exact Nat.succ_pos _
      have hback : ∀ bh'' : BufferHead, bh''.bCount = bh'.bCount - 1 →
          (s₁.put dev block bh'').count = s.count := by
        intro bh'' hbh''
        funext d z
        rw [count_put]
        split
        . next heq =>
          rw [hbh'', hcount', hread.count, heq.left, heq.right]
          rfl
        . next hne =>
          rw [hblock.count, count_put, if_neg hne]
      have hzeros : ∀ bh'' : BufferHead, r ≠ 0 → (s₁.put dev block bh'').content dev r = some fun _ => 0 := by
        intro bh'' hr
        rw [content_put, if_neg (by simp [hcache hr])]
        exact hblock.content_new hr
      apply Ensures.ite
      . intro _
        apply Ensures.bind
        apply store_ensures hbh'
        apply Ensures.bind
        apply Ensures.of_eq_ok (brelse_eq (cache_put_self _ _ _ _) (by exact hpos))
        rw [put_put]
        exact .pure (hnew _ hcontent hzero r _ (hback _ rfl) hblock.inode (hzeros _))
      . intro _
        apply Ensures.bind
        apply Ensures.of_eq_ok (brelse_eq hbh' hpos)
        exact .pure (hnew _ hcontent hzero r _ (hback _ rfl) hblock.inode (hzeros _))
    . intro hnot
      apply Ensures.bind
      apply hread.release_ensures
      intro s' hcalm
      apply Ensures.pure
      apply hold _ hcontent _ s' hcalm
      intro hzero
      exact hnot ⟨rfl, hzero⟩

theorem zoneOf_zoneAt (dev zone : Nat) : zoneOf (zoneAt dev zone) = zone := by
  unfold zoneAt
  split
  . next hzero => rw [hzero]; rfl
  . rfl

theorem zoneOf_entry {s : Fs Slot} {inode : Slot} {k l dev zone : Nat} {p : List Nat}
    (h : (forest s).ptr inode (l :: p) = some (dev, zone))
    : zoneOf ((forest s).ptr inode (k :: l :: p)) = ((s.content dev zone).getD fun _ => 0) k := by
  rw [ptr_entry h, zoneOf_zoneAt]

theorem zoneOf_none {p : Option (Nat × Nat)} (h : p = none) : zoneOf p = 0 := by
  rw [h]
  rfl

theorem last_entry_ensures {s s₁ : Fs Slot} {inode : Slot} {dev zone k : Nat} {path : List Nat}
    {Q : Nat → Fs Slot → Prop} {E : Stop → Prop} (hgrown : Grown s s₁ inode)
    (hentry : s₁.content dev zone = some (fun _ => 0) ∧ zoneOf ((forest s).ptr inode path) = 0
      ∨ Calm s s₁ ∧ zoneOf ((forest s).ptr inode path) = ((s.content dev zone).getD fun _ => 0) k)
    (hold : zoneOf ((forest s).ptr inode path) ≠ 0 → ∀ s', Calm s s' → Q (zoneOf ((forest s).ptr inode path)) s')
    (hnew : zoneOf ((forest s).ptr inode path) = 0 → ∀ r s', Grown s s' inode →
      (r ≠ 0 → s'.content dev r = some fun _ => 0) → Q r s')
    (hE : zoneOf ((forest s).ptr inode path) = 0 → ∀ e : Stop, e ≠ .fault → ¬ e.OfBmap → E e)
    : Ensures (indexEntry dev zone k true) s₁ Q E := by
  have hempty : ∀ data, s₁.content dev zone = some data → data k = 0 → zoneOf ((forest s).ptr inode path) = 0 := by
    intro data hdata hzero
    obtain ⟨_, hzone⟩ | ⟨hcalm₁, hzone⟩ := hentry
    . exact hzone
    . rw [hcalm₁.content] at hdata
      rw [hdata, Option.getD_some] at hzone
      exact hzone.trans hzero
  apply indexEntry_ensures _ _ _ fun data hdata hzero => hE (hempty data hdata hzero)
  . intro hnone s' hcalm
    obtain ⟨hzeros, _⟩ | ⟨hcalm₁, hzone⟩ := hentry
    . rw [hzeros] at hnone
      cases hnone
    . rw [hcalm₁.content] at hnone
      rw [hnone] at hzone
      exact hnew hzone 0 s' (hgrown.trans (.of_calm hcalm)) fun h => absurd rfl h
  . intro data hdata hne s' hcalm
    obtain ⟨hzeros, _⟩ | ⟨hcalm₁, hzone⟩ := hentry
    . rw [hzeros, Option.some.injEq] at hdata
      exact absurd (congrFun hdata.symm k) hne
    . rw [hcalm₁.content] at hdata
      rw [hdata, Option.getD_some] at hzone
      rw [← hzone] at hne ⊢
      exact hold hne s' (hcalm₁.trans hcalm)
  . intro data hdata hzero r s' hcount hinode hnewzone
    exact hnew (hempty data hdata hzero) r s' (hgrown.trans (.of_eq hcount hinode)) hnewzone

theorem double_entry_ensures {s s₁ : Fs Slot} {inode : Slot} {zone q k : Nat} {Q : Nat → Fs Slot → Prop}
    {E : Stop → Prop} (hgrown : Grown s s₁ inode)
    (hentry : s₁.content (s.inode inode).iDev zone = some (fun _ => 0) ∧ (forest s).ptr inode [q, 8] = none
      ∨ Calm s s₁ ∧ (forest s).ptr inode [8] = some ((s.inode inode).iDev, zone))
    (hold : zoneOf ((forest s).ptr inode [k, q, 8]) ≠ 0 →
      ∀ s', Calm s s' → Q (zoneOf ((forest s).ptr inode [k, q, 8])) s')
    (hnew : zoneOf ((forest s).ptr inode [k, q, 8]) = 0 → ∀ r s', Grown s s' inode →
      (r ≠ 0 → s'.content (s.inode inode).iDev r = some fun _ => 0) → Q r s')
    (hE : zoneOf ((forest s).ptr inode [k, q, 8]) = 0 → ∀ e : Stop, e ≠ .fault → ¬ e.OfBmap → E e)
    : Ensures (indexEntry (s.inode inode).iDev zone q true >>= fun i =>
        if i = 0 then pure 0 else indexEntry (s.inode inode).iDev i k true) s₁ Q E := by
  -- Where the upper index block has no entry, the file has no zone.
  have habsent : ∀ i s₂, (forest s).ptr inode [q, 8] = none → Grown s s₂ inode →
      (i ≠ 0 → s₂.content (s.inode inode).iDev i = some fun _ => 0) →
      Ensures (if i = 0 then pure 0 else indexEntry (s.inode inode).iDev i k true) s₂ Q E := by
    intro i s₂ hmid hgrown₂ hzeros
    have hnone := zoneOf_none (@ptr_above_none Slot s inode k q [8] hmid)
    apply Ensures.ite
    . intro _
      exact .pure (hnew hnone 0 s₂ hgrown₂ fun h => absurd rfl h)
    . intro hne
      exact last_entry_ensures hgrown₂ (.inl ⟨hzeros hne, hnone⟩) hold hnew hE
  have hempty : ∀ data, s₁.content (s.inode inode).iDev zone = some data → data q = 0 →
      (forest s).ptr inode [q, 8] = none := by
    intro data hdata hzero
    obtain ⟨_, hmid⟩ | ⟨hcalm₁, hup⟩ := hentry
    . exact hmid
    . rw [hcalm₁.content] at hdata
      rw [@ptr_entry Slot s inode q 8 _ _ [] hup, hdata, Option.getD_some, hzero]
      rfl
  apply Ensures.bind
  apply indexEntry_ensures _ _ _ fun data hdata hzero =>
    hE (zoneOf_none (@ptr_above_none Slot s inode k q [8] (hempty data hdata hzero)))
  . intro hcontent s₂ hcalm
    obtain ⟨hzeros, _⟩ | ⟨hcalm₁, hup⟩ := hentry
    . rw [hzeros] at hcontent
      cases hcontent
    . rw [hcalm₁.content] at hcontent
      have hmid := @ptr_entry Slot s inode q 8 _ _ [] hup
      rw [hcontent] at hmid
      exact habsent 0 s₂ hmid (hgrown.trans (.of_calm hcalm)) fun h => absurd rfl h
  . intro data hdata hne s₂ hcalm
    obtain ⟨hzeros, _⟩ | ⟨hcalm₁, hup⟩ := hentry
    . rw [hzeros, Option.some.injEq] at hdata
      exact absurd (congrFun hdata.symm q) hne
    . rw [hcalm₁.content] at hdata
      have hmid := @ptr_entry Slot s inode q 8 _ _ [] hup
      rw [hdata, Option.getD_some, zoneAt, if_neg hne] at hmid
      have hcalm₂ := hcalm₁.trans hcalm
      rw [if_neg hne]
      exact last_entry_ensures (.of_calm hcalm₂) (.inr ⟨hcalm₂, zoneOf_entry hmid⟩) hold hnew hE
  . intro data hdata hzero i s₂ hcount hinode hzeros₂
    exact habsent i s₂ (hempty data hdata hzero) (hgrown.trans (.of_eq hcount hinode)) hzeros₂

theorem createBlock_ensures {s : Fs Slot} {inode : Slot} {block : Nat} {Q : Nat → Fs Slot → Prop} {E : Stop → Prop}
    (hold : block < maxBlocks → fileZone s inode block ≠ 0 → ∀ s', Calm s s' → Q (fileZone s inode block) s')
    (hnew : block < maxBlocks → fileZone s inode block = 0 → ∀ r s', Grown s s' inode →
      (r ≠ 0 → s'.content (s.inode inode).iDev r = some fun _ => 0) → Q r s')
    (hbig : maxBlocks ≤ block → E (.panic "_bmap: block>big"))
    (hE : fileZone s inode block = 0 → ∀ e : Stop, e ≠ .fault → ¬ e.OfBmap → E e)
    : Ensures (createBlock inode (block : Nat)) s Q E := by
  by_cases hblock : block < maxBlocks
  . replace hold := hold hblock
    replace hnew := hnew hblock
    unfold fileZone at hold hnew hE
    unfold createBlock _bmap
    rw [if_neg (by omega), if_neg (by unfold maxBlocks at hblock; omega)]
    simp only [Int.toNat_natCast]
    apply Ensures.ite
    . intro hdirect
      rw [pathOf_direct hdirect] at hold hnew hE
      apply Ensures.bind
      apply createZone_ensures _ _ fun hzero => hE (zoneOf_none (ptr_zone_none hzero))
      . intro hne
        apply Ensures.bind
        apply Ensures.get
        apply Ensures.pure
        have hzone : zoneOf ((forest s).ptr inode [block]) = (s.inode inode).iZone block := by
          rw [ptr_zone hne]
          rfl
        rw [← hzone] at hne ⊢
        exact hold hne s (.refl s)
      . intro hzero s' hgrown hzeros
        apply Ensures.bind
        apply Ensures.get
        exact .pure (hnew (zoneOf_none (ptr_zone_none hzero)) _ s' hgrown hzeros)
    intro hindirect
    apply Ensures.ite
    . intro hindex
      rw [pathOf_index hindirect hindex] at hold hnew hE
      apply Ensures.bind
      apply createZone_ensures _ _ fun hzero =>
        hE (zoneOf_none (@ptr_above_none Slot s inode (block - 7) 7 [] (ptr_zone_none hzero)))
      . intro hne
        apply Ensures.bind
        apply Ensures.get
        rw [if_neg hne]
        exact last_entry_ensures (.of_calm (.refl s)) (.inr ⟨.refl s, zoneOf_entry (ptr_zone hne)⟩) hold hnew hE
      . intro hzero s₁ hgrown hzeros
        have hnone := zoneOf_none (@ptr_above_none Slot s inode (block - 7) 7 [] (ptr_zone_none hzero))
        apply Ensures.bind
        apply Ensures.get
        apply Ensures.ite
        . intro _
          exact .pure (hnew hnone 0 s₁ hgrown fun h => absurd rfl h)
        . intro hne
          rw [hgrown.iDev]
          exact last_entry_ensures hgrown (.inl ⟨hzeros hne, hnone⟩) hold hnew hE
    intro hdouble
    rw [pathOf_double hindirect hdouble] at hold hnew hE
    apply Ensures.bind
    apply createZone_ensures _ _ fun hzero =>
      hE (zoneOf_none (ptr_above_none (@ptr_above_none Slot s inode ((block - 7 - 512) / 512) 8 []
        (ptr_zone_none hzero))))
    . intro hne
      apply Ensures.bind
      apply Ensures.get
      rw [if_neg hne]
      exact double_entry_ensures (.of_calm (.refl s)) (.inr ⟨.refl s, ptr_zone hne⟩) hold hnew hE
    . intro hzero s₁ hgrown hzeros
      have hmid := @ptr_above_none Slot s inode ((block - 7 - 512) / 512) 8 [] (ptr_zone_none hzero)
      have hnone := zoneOf_none (@ptr_above_none Slot s inode ((block - 7 - 512) % 512) _ _ hmid)
      apply Ensures.bind
      apply Ensures.get
      apply Ensures.ite
      . intro _
        exact .pure (hnew hnone 0 s₁ hgrown fun h => absurd rfl h)
      . intro hne
        rw [hgrown.iDev]
        exact double_entry_ensures hgrown (.inl ⟨hzeros hne, hmid⟩) hold hnew hE
  . have hpanic : createBlock inode (block : Nat) s = .error (.panic "_bmap: block>big") := by
      unfold createBlock _bmap
      rw [if_neg (by omega), if_pos (by unfold maxBlocks at hblock; omega)]
      rfl
    exact .of_eq_error hpanic (hbig (Nat.le_of_not_lt hblock))

end Create

end Minix
end OS
