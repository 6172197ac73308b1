import ByDoing.OS.Minix.CreateBlock

namespace OS
namespace Minix

section Zones

variable {ι : Type}

theorem mapBit_of_firstClear {maps : Nat → Option Bitmap} {n : Nat} (h : firstClear maps = none)
    (hn : n / 8192 < 8) (hmap : (maps (n / 8192)).isSome)
    : mapBit maps n = true := by
  obtain ⟨m, hm⟩ := Option.isSome_iff_exists.mp hmap
  unfold firstClear at h
  rw [List.findSome?_eq_none_iff] at h
  have hfull := h (n / 8192) (List.mem_range.mpr hn)
  simp only [hm, ite_eq_right_iff, reduceCtorEq, imp_false] at hfull
  unfold mapBit
  rw [hm]
  exact m.bit_of_lt_findFirstZero (by omega)

theorem mapBit_before_firstClear {maps : Nat → Option Bitmap} {i j n : Nat} (h : firstClear maps = some (i, j))
    (hn : n < j + i * 8192) (hmap : (maps (n / 8192)).isSome)
    : mapBit maps n = true := by
  obtain ⟨m, hm⟩ := Option.isSome_iff_exists.mp hmap
  obtain ⟨hi, hj, _⟩ := firstClear_spec h
  unfold firstClear at h
  rw [List.findSome?_eq_some_iff] at h
  obtain ⟨before, k, after, hrange, hk, hbefore⟩ := h
  have hki : k = i ∧ ∃ m', maps i = some m' ∧ m'.findFirstZero = j := by
    cases hmapk : maps k with
    | none => simp [hmapk] at hk
    | some m' =>
      simp only [hmapk, Option.ite_none_right_eq_some, Option.some.injEq, Prod.mk.injEq] at hk
      obtain ⟨_, rfl, hfound⟩ := hk
      exact ⟨rfl, m', hmapk, hfound⟩
  obtain ⟨rfl, m', hm', hfound⟩ := hki
  unfold mapBit
  rw [hm]
  by_cases heq : n / 8192 = k
  . rw [heq, hm', Option.some.injEq] at hm
    subst hm
    exact m'.bit_of_lt_findFirstZero (by omega)
  . -- The earlier map blocks have no clear bit.
    have hlt : n / 8192 < k := by omega
    have hmem : n / 8192 ∈ before := by
      have hsorted : (before ++ k :: after).Pairwise (· < ·) := hrange ▸ List.pairwise_lt_range
      have hin : n / 8192 ∈ before ++ k :: after := hrange ▸ List.mem_range.mpr (by omega)
      rw [List.mem_append, List.mem_cons] at hin
      obtain hin | heq' | hin := hin
      . exact hin
      . exact absurd heq' heq
      . have hafter := (List.pairwise_append.mp hsorted).right.left
        have := List.rel_of_pairwise_cons hafter hin
        omega
    have hfull := hbefore _ hmem
    simp only [hm, ite_eq_right_iff, reduceCtorEq, imp_false] at hfull
    exact m.bit_of_lt_findFirstZero (by omega)

structure Formatted (s : Fs ι) (dev : Nat) (sb : SuperBlock ι) : Prop where
  super : getSuper s dev = some sb
  first : 1 < sb.sFirstdatazone
  mapped : ∀ zone < sb.sNzones, (zone + 1 - sb.sFirstdatazone) / 8192 < 8
    ∧ (sb.sZmap ((zone + 1 - sb.sFirstdatazone) / 8192)).isSome
  free : ∀ zone < sb.sNzones, sb.sFirstdatazone ≤ zone + 1 →
    mapBit sb.sZmap (zone + 1 - sb.sFirstdatazone) = false → s.count dev zone = 0

def IsFormatted (s : Fs ι) (dev : Nat) : Prop :=
  ∃ sb, Formatted s dev sb

def Full (s : Fs ι) (dev : Nat) : Prop :=
  ∀ sb, getSuper s dev = some sb → ∀ zone < sb.sNzones, sb.sFirstdatazone ≤ zone →
    mapBit sb.sZmap (zone + 1 - sb.sFirstdatazone) = true

theorem getSuper_congr {s s' : Fs ι} (h : s'.superBlock = s.superBlock) (dev : Nat)
    : getSuper s' dev = getSuper s dev := by
  unfold getSuper
  rw [h]

theorem IsFormatted.congr {s s' : Fs ι} {dev : Nat} (h : IsFormatted s dev) (hsuper : s'.superBlock = s.superBlock)
    (hcount : s'.count = s.count)
    : IsFormatted s' dev := by
  obtain ⟨sb, hsb⟩ := h
  exact ⟨sb, (getSuper_congr hsuper dev).trans hsb.super, hsb.first, hsb.mapped, hcount ▸ hsb.free⟩

theorem Full.congr {s s' : Fs ι} {dev : Nat} (h : Full s dev) (hsuper : s'.superBlock = s.superBlock)
    : Full s' dev := by
  intro sb hsb
  exact h sb ((getSuper_congr hsuper dev).symm.trans hsb)

section Setting

variable {s : Fs ι} {dev i j : Nat} {sb : SuperBlock ι} {m : Bitmap}

theorem getSuper_setZmap (hsuper : getSuper s dev = some sb) (d : Nat)
    : getSuper (s.setZmap dev i m) d
        = if d = dev then some { sb with sZmap := Function.update sb.sZmap i (some m) } else getSuper s d := by
  have hsb := getSuper_eq hsuper
  unfold getSuper at hsuper ⊢
  by_cases hd : d = dev
  . subst hd
    by_cases hzero : d = 0
    . simp [hzero] at hsuper
    . simp [hzero, Fs.setZmap, hsb]
  . simp [hd, Fs.setZmap]

theorem mapBit_setZmap_mono (hmap : sb.sZmap i = some m) (hj : j < 8192) {n : Nat} (h : mapBit sb.sZmap n = true)
    : mapBit (Function.update sb.sZmap i (some (m.setBit j))) n = true := by
  rw [mapBit_update hmap hj (fun nr hnr => by simp [hnr])]
  split
  . simp
  . exact h

theorem IsFormatted.setZmap (hsuper : getSuper s dev = some sb) (hmap : sb.sZmap i = some m) (hj : j < 8192)
    {d : Nat} (h : IsFormatted s d)
    : IsFormatted (s.setZmap dev i (m.setBit j)) d := by
  obtain ⟨sb', hsb'⟩ := h
  by_cases hd : d = dev
  . subst hd
    cases hsuper.symm.trans hsb'.super
    refine ⟨{ sb with sZmap := Function.update sb.sZmap i (some (m.setBit j)) },
      by rw [getSuper_setZmap hsuper, if_pos rfl], hsb'.first, ?_, ?_⟩
    . intro zone hzone
      obtain ⟨hlt, hsome⟩ := hsb'.mapped zone hzone
      refine ⟨hlt, ?_⟩
      dsimp only
      by_cases hi : (zone + 1 - sb.sFirstdatazone) / 8192 = i
      . rw [hi, Function.update_self]
        rfl
      . rw [Function.update_of_ne hi]
        exact hsome
    . intro zone hzone hfirst hclear
      apply hsb'.free zone hzone hfirst
      by_contra hset
      rw [Bool.not_eq_false] at hset
      exact Bool.noConfusion ((mapBit_setZmap_mono hmap hj hset).symm.trans hclear)
  . exact ⟨sb', by rw [getSuper_setZmap hsuper, if_neg hd, hsb'.super], hsb'.first, hsb'.mapped, hsb'.free⟩

end Setting

theorem newBlock_total {s : Fs ι} {dev : Nat} (h : IsFormatted s dev)
    : ∃ r s', newBlock dev s = .ok (r, s') ∧ (∀ d, IsFormatted s d → IsFormatted s' d)
        ∧ (r = 0 → Full s' dev ∧ s'.cache = s.cache) := by
  obtain ⟨sb, hsb⟩ := h
  cases hfirst : firstClear sb.sZmap with
  | none =>
    refine ⟨0, s, ?_, fun _ hd => hd, fun _ => ?_⟩
    . unfold newBlock
      rw [Machine.bind_of_eq_ok Machine.get_eq, hsb.super]
      simp only [hfirst]
      rfl
    . refine ⟨?_, rfl⟩
      intro sb' hsb' zone hzone _
      cases hsb.super.symm.trans hsb'
      obtain ⟨hlt, hsome⟩ := hsb.mapped zone hzone
      exact mapBit_of_firstClear hfirst hlt hsome
  | some p =>
    obtain ⟨i, j⟩ := p
    obtain ⟨_, hj, m, hmap, hbit⟩ := firstClear_spec hfirst
    have hformatted : ∀ d, IsFormatted s d → IsFormatted (s.setZmap dev i (m.setBit j)) d :=
      fun _ hd => hd.setZmap hsb.super hmap hj
    have hone := hsb.first
    by_cases hbeyond : sb.sNzones ≤ j + i * 8192 + sb.sFirstdatazone - 1
    . refine ⟨0, _, newBlock_beyond hsb.super hfirst hmap hbeyond, hformatted, fun _ => ⟨?_, rfl⟩⟩
      intro sb' hsb' zone hzone hge
      rw [getSuper_setZmap hsb.super, if_pos rfl, Option.some.injEq] at hsb'
      subst hsb'
      obtain ⟨_, hsome⟩ := hsb.mapped zone hzone
      exact mapBit_setZmap_mono hmap hj
        (mapBit_before_firstClear hfirst (show zone + 1 - sb.sFirstdatazone < j + i * 8192 by
          simp only at hzone hge
          omega) hsome)
    . have hzone : j + i * 8192 + sb.sFirstdatazone - 1 < sb.sNzones := by omega
      have hindex : j + i * 8192 + sb.sFirstdatazone - 1 + 1 - sb.sFirstdatazone = j + i * 8192 := by omega
      have hcount : s.count dev (j + i * 8192 + sb.sFirstdatazone - 1) = 0 := by
        apply hsb.free _ hzone (by omega)
        rw [hindex]
        exact mapBit_firstClear hfirst
      refine ⟨_, _, newBlock_eq hsb.super hfirst hmap rfl hzone hcount, ?_, fun hzero => by omega⟩
      intro d hd
      refine IsFormatted.congr (s := s.setZmap dev i (m.setBit j)) (hformatted d hd) rfl ?_
      funext d' z
      rw [count_put, count_setZmap]
      split
      . next heq => rw [heq.left, heq.right, hcount, zeroed]
      . rfl

end Zones

section Growing

open Machine

theorem isPath_above {k : Nat} {p : List Nat} (h : IsPath (k :: p)) : p = [] ∨ p = [7] ∨ p = [8] ∨ ∃ l, p = [l, 8] := by
  cases h with
  | zone _ => exact .inl rfl
  | index _ hr =>
    obtain rfl | rfl := hr
    . exact .inr (.inl rfl)
    . exact .inr (.inr (.inl rfl))
  | double _ _ => exact .inr (.inr (.inr ⟨_, rfl⟩))

theorem not_isPath_above {k : Nat} (block : Nat) : ¬ IsPath (k :: pathOf block) := by
  intro h
  obtain ⟨hseven, height, hdouble⟩ := pathOf_ne_index block
  obtain hnil | h7 | h8 | ⟨l, hl⟩ := isPath_above h
  . unfold pathOf at hnil
    split at hnil
    . cases hnil
    . split at hnil
      . cases hnil
      . cases hnil
  . exact hseven h7
  . exact height h8
  . exact hdouble l hl

structure Grows (s s' : Fs Slot) : Prop where
  count : s'.count = s.count
  inode : ∀ j, ∃ zone ctime dirt,
    s'.inode j = { s.inode j with iZone := zone, iCtime := ctime, iDirt := dirt }
  readable : (∀ d z, s.content d z ≠ none) → ∀ d z, s'.content d z ≠ none
  formatted : ∀ d, IsFormatted s d → IsFormatted s' d
  old : ∀ j c a, c < maxBlocks → (forest s).ptr j (pathOf c) = some a →
    (forest s').ptr j (pathOf c) = some a ∧ s'.content a.fst a.snd = s.content a.fst a.snd
  new : ∀ j c a, c < maxBlocks → (forest s).ptr j (pathOf c) = none → (forest s').ptr j (pathOf c) = some a →
    s'.content a.fst a.snd = some fun _ => 0

namespace Grows

variable {s s₁ s' : Fs Slot}

theorem of_calm (h : Calm s s') : Grows s s' where
  count := h.count
  inode := fun j => ⟨(s.inode j).iZone, (s.inode j).iCtime, (s.inode j).iDirt, by rw [h.inode]⟩
  readable := fun hread => by rwa [h.content]
  formatted := fun _ hd => hd.congr h.superBlock h.count
  old := fun j c a _ ha => ⟨by rwa [h.forest], by rw [h.content]⟩
  new := by
    intro j c a _ hnone ha
    rw [h.forest, hnone] at ha
    cases ha

theorem trans (h : Grows s s₁) (h₁ : Grows s₁ s') : Grows s s' where
  count := h₁.count.trans h.count
  inode := by
    intro j
    obtain ⟨_, _, _, hj⟩ := h.inode j
    obtain ⟨zone, ctime, dirt, hj₁⟩ := h₁.inode j
    exact ⟨zone, ctime, dirt, by rw [hj₁, hj]⟩
  readable := fun hread => h₁.readable (h.readable hread)
  formatted := fun d hd => h₁.formatted d (h.formatted d hd)
  old := by
    intro j c a hc ha
    obtain ⟨hptr, hcontent⟩ := h.old j c a hc ha
    obtain ⟨hptr₁, hcontent₁⟩ := h₁.old j c a hc hptr
    exact ⟨hptr₁, hcontent₁.trans hcontent⟩
  new := by
    intro j c a hc hnone ha
    cases hmid : (forest s₁).ptr j (pathOf c) with
    | none => exact h₁.new j c a hc hmid ha
    | some b =>
      obtain ⟨hptr, hcontent⟩ := h₁.old j c b hc hmid
      cases hptr.symm.trans ha
      rw [hcontent]
      exact h.new j c _ hc hnone hmid

theorem iDev (h : Grows s s') (j : Slot) : (s'.inode j).iDev = (s.inode j).iDev := by
  obtain ⟨_, _, _, hj⟩ := h.inode j
  rw [hj]

end Grows

variable {s s₁ s' : Fs Slot} {inode : Slot} {dev k l r block : Nat} {p : List Nat}

theorem grows_of_extends (hvacant : (forest s).ptr inode p = none) (hext : Extends s s' inode p r)
    (hcount : s'.count = s.count)
    (hinode : ∀ j, ∃ zone ctime dirt,
      s'.inode j = { s.inode j with iZone := zone, iCtime := ctime, iDirt := dirt })
    (hreadable : (∀ d z, s.content d z ≠ none) → ∀ d z, s'.content d z ≠ none)
    (hformatted : ∀ d, IsFormatted s d → IsFormatted s' d)
    (hkept : ∀ j c a, c < maxBlocks → (forest s).ptr j (pathOf c) = some a →
      s'.content a.fst a.snd = s.content a.fst a.snd)
    (hzeros : s'.content (s.inode inode).iDev r = some fun _ => 0)
    : Grows s s' where
  count := hcount
  inode := hinode
  readable := hreadable
  formatted := hformatted
  old := by
    intro j c a hc ha
    refine ⟨?_, hkept j c a hc ha⟩
    rw [hext.ptr j _ (isPath_pathOf hc), ha]
    rintro ⟨rfl, heq⟩
    rw [heq, hvacant] at ha
    cases ha
  new := by
    intro j c a hc hnone ha
    by_cases heq : j = inode ∧ pathOf c = p
    . obtain ⟨rfl, rfl⟩ := heq
      rw [hext.here] at ha
      obtain ⟨rfl, _⟩ := zoneAt_eq_some ha
      exact hzeros
    . rw [hext.ptr j _ (isPath_pathOf hc) heq, hnone] at ha
      cases ha

omit p l k in
theorem grows_of_zero (hblock : NewBlock s s' dev 0) (hformatted : ∀ d, IsFormatted s d → IsFormatted s' d)
    (hcache : s'.cache = s.cache)
    : Grows s s' := by
  have hcontent : s'.content = s.content := by
    funext d z
    rw [Fs.content, Fs.content, hcache, hblock.disk]
  have hforest : forest s' = forest s := by
    unfold forest
    rw [hblock.inode, hcontent]
  refine ⟨hblock.count, ?_, fun hread => by rwa [hcontent], hformatted, ?_, ?_⟩
  . intro j
    exact ⟨(s.inode j).iZone, (s.inode j).iCtime, (s.inode j).iDirt, by rw [hblock.inode]⟩
  . intro j c a _ ha
    exact ⟨by rwa [hforest], by rw [hcontent]⟩
  . intro j c a _ hnone ha
    rw [hforest, hnone] at ha
    cases ha

theorem NewBlock.readable (hblock : NewBlock s s' dev r) (hr : r ≠ 0) (h : ∀ d z, s.content d z ≠ none) (d z : Nat)
    : s'.content d z ≠ none := by
  by_cases heq : d = dev ∧ z = r
  . rw [heq.left, heq.right, hblock.content_new hr]
    simp
  . rw [hblock.content heq]
    exact h d z

theorem ptr_ne_fresh (hsound : Sound s) (hblock : NewBlock s s' dev r) (hr : r ≠ 0) {j : Slot} {q : List Nat}
    {a : Nat × Nat} (hq : IsPath q) (ha : (forest s).ptr j q = some a)
    : ¬ (a.fst = dev ∧ a.snd = r) := by
  intro heq
  exact hsound.fresh (hblock.fresh hr).left j q hq (ha.trans (congrArg some (Prod.ext heq.left heq.right)))

theorem createZone_grows (hsound : Sound s) (hk : k < 9) (hformatted : IsFormatted s (s.inode inode).iDev)
    : Ensures (createZone inode k true) s
        (fun _ s' => Grows s s' ∧ ((s'.inode inode).iZone k = 0 → Full s' (s.inode inode).iDev))
        fun _ => False := by
  by_cases hzero : (s.inode inode).iZone k = 0
  . obtain ⟨r, s₁, hnew, hformatted₁, hfull⟩ := newBlock_total hformatted
    have hblock := newBlock_of_eq_ok hnew
    by_cases hr : r = 0
    . subst hr
      obtain ⟨hfull, hcache⟩ := hfull rfl
      have hrun : createZone inode k true s = .ok ((), s₁) := by
        unfold createZone
        rw [Machine.bind_of_eq_ok Machine.get_eq, if_pos ⟨rfl, hzero⟩, Machine.bind_of_eq_ok hnew]
        rfl
      exact .of_eq_ok hrun ⟨grows_of_zero hblock hformatted₁ hcache, fun _ => hfull⟩
    . have hrun : createZone inode k true s = .ok ((), s₁.setInode inode fun m =>
          { m with iZone := Function.update m.iZone k r, iCtime := s₁.CURRENT_TIME, iDirt := true }) := by
        unfold createZone
        rw [Machine.bind_of_eq_ok Machine.get_eq, if_pos ⟨rfl, hzero⟩, Machine.bind_of_eq_ok hnew, if_pos hr]
        rfl
      have hzone : ((s₁.setInode inode fun m =>
          { m with iZone := Function.update m.iZone k r, iCtime := s₁.CURRENT_TIME, iDirt := true }).inode
            inode).iZone k = r := by
        simp
      have hext := createZone_extends hsound hk hrun
      rw [hzone] at hext
      apply Ensures.of_eq_ok hrun
      refine ⟨?_, fun hnone => absurd (hzone.symm.trans hnone) hr⟩
      apply grows_of_extends (ptr_zone_none hzero) hext hblock.count
      . intro j
        by_cases hj : j = inode
        . subst hj
          exact ⟨_, _, _, by rw [inode_setInode, Function.update_self, hblock.inode]⟩
        . exact ⟨_, _, _, by rw [inode_setInode, Function.update_of_ne hj, hblock.inode]⟩
      . exact hblock.readable hr
      . intro d hd
        exact (hformatted₁ d hd).congr rfl rfl
      . intro j c a hc ha
        exact hblock.content (ptr_ne_fresh hsound hblock hr (isPath_pathOf hc) ha)
      . exact hblock.content_new hr
  . have hrun : createZone inode k true s = .ok ((), s) := by
      unfold createZone
      rw [Machine.bind_of_eq_ok Machine.get_eq, if_neg (fun h => hzero h.right)]
      rfl
    exact .of_eq_ok hrun ⟨.of_calm (.refl s), fun h => absurd h hzero⟩

theorem IsFormatted.put_marked {d : Nat} (h : IsFormatted s d) (hmarked : s.Marked (dev, block)) (bh : BufferHead)
    : IsFormatted (s.put dev block bh) d := by
  obtain ⟨sb, hsb⟩ := h
  refine ⟨sb, hsb.super, hsb.first, hsb.mapped, ?_⟩
  intro zone hzone hfirst hclear
  rw [count_put]
  split
  . next heq =>
    obtain ⟨rfl, rfl⟩ := heq
    obtain ⟨sb', hsb', _, hset⟩ := hmarked
    cases (getSuper_eq hsb.super).symm.trans hsb'
    exact Bool.noConfusion (hset.symm.trans hclear)
  . exact hsb.free zone hzone hfirst hclear

theorem count_put_back {bh bh' : BufferHead} (hblock : NewBlock (s.put dev block bh) s₁ dev r)
    (hcount : bh'.bCount = s.count dev block)
    : (s₁.put dev block bh').count = s.count := by
  funext d z
  rw [count_put, hblock.count, count_put]
  split
  . next heq => rw [hcount, heq.left, heq.right]
  . rfl

theorem inode_put_back {bh bh' : BufferHead} (hblock : NewBlock (s.put dev block bh) s₁ dev r) (j : Slot)
    : ∃ zone ctime dirt,
      (s₁.put dev block bh').inode j = { s.inode j with iZone := zone, iCtime := ctime, iDirt := dirt } :=
  ⟨(s.inode j).iZone, (s.inode j).iCtime, (s.inode j).iDirt, by rw [inode_put, hblock.inode, inode_put]⟩

theorem indexEntry_grows (hsound : Sound s) (hpath : IsPath (k :: l :: p))
    (hup : (forest s).ptr inode (l :: p) = some (dev, block)) (hformatted : IsFormatted s dev)
    (hreadable : ∀ d z, s.content d z ≠ none)
    : Ensures (indexEntry dev block k true) s (fun r s' => Grows s s' ∧ (r = 0 → Full s' dev)) fun _ => False := by
  obtain ⟨data, hcontent⟩ := Option.ne_none_iff_exists'.mp (hreadable dev block)
  have hvalid := isPath_closed k l p hpath
  have hmarked := hsound.marked _ _ _ hvalid hup
  by_cases hzero : data k = 0
  . obtain ⟨bh, hread, hcount, huptodate, rfl⟩ := bread_eq_some hcontent
    have hpos : 0 < bh.bCount := by omega
    have hback : bh.bCount - 1 = s.count dev block := by omega
    have hquiet : Quiet s (s.put dev block bh) := quiet_put hcontent huptodate rfl
    have hsame : (s.put dev block bh).content = s.content := content_put_of_eq hcontent huptodate rfl
    obtain ⟨r, s₂, hnew, hformatted₂, hfull⟩ := newBlock_total (hformatted.put_marked hmarked bh)
    have hblock := newBlock_of_eq_ok hnew
    have hmarked₂ := hblock.marked _ (hquiet.marked _ hmarked)
    have hformatted' : ∀ bh' d, IsFormatted s d → IsFormatted (s₂.put dev block bh') d :=
      fun bh' d hd => (hformatted₂ d (hd.put_marked hmarked bh)).put_marked hmarked₂ bh'
    have hstart : indexEntry dev block k true s = (do
        if r ≠ 0 then store dev block k r
        brelse dev block
        return r) s₂ := by
      unfold indexEntry
      rw [Machine.bind_of_eq_ok hread, if_pos rfl, Machine.bind_of_eq_ok (bData_eq (cache_put_self _ _ _ _)),
        if_pos ⟨rfl, hzero⟩, Machine.bind_of_eq_ok hnew]
    by_cases hr : r = 0
    . subst hr
      obtain ⟨hfull, hsame₂⟩ := hfull rfl
      have hcache : s₂.cache dev block = some bh := by rw [hsame₂, cache_put_self]
      have hrun : indexEntry dev block k true s
          = .ok (0, s₂.put dev block { bh with bCount := bh.bCount - 1 }) := by
        rw [hstart]
        simp only [ne_eq, not_true_eq_false, if_false]
        rw [Machine.bind_of_eq_ok (brelse_eq hcache hpos)]
        rfl
      have hcontent' : (s₂.put dev block { bh with bCount := bh.bCount - 1 }).content = s.content := by
        have hcontent₂ : s₂.content = s.content := by
          rw [← hsame]
          funext d z
          rw [Fs.content, Fs.content, hsame₂, hblock.disk]
        have hput : ∀ bh' : BufferHead, bh'.bUptodate = true → bh'.bData = bh.bData →
            (s₂.put dev block bh').content = s.content := by
          intro bh' huptodate' hdata'
          rw [content_put_of_eq (by rw [hcontent₂, hcontent]) huptodate' hdata', hcontent₂]
        exact hput _ huptodate rfl
      have hforest : forest (s₂.put dev block { bh with bCount := bh.bCount - 1 }) = forest s := by
        unfold forest
        rw [hcontent', inode_put, hblock.inode, inode_put]
      apply Ensures.of_eq_ok hrun
      refine ⟨⟨count_put_back hblock hback, inode_put_back hblock, fun h => by rwa [hcontent'], hformatted' _, ?_, ?_⟩,
        fun _ => hfull.congr rfl⟩
      . intro j c a _ ha
        exact ⟨by rwa [hforest], by rw [hcontent']⟩
      . intro j c a _ hnone ha
        rw [hforest, hnone] at ha
        cases ha
    . have hcache : s₂.cache dev block = some bh := by
        rw [hblock.cache dev block, cache_put_self]
        rintro ⟨_, rfl⟩
        exact (hblock.fresh hr).left (hquiet.marked _ hmarked)
      have hrun : indexEntry dev block k true s = .ok (r, s₂.put dev block
          { bh with bData := Function.update bh.bData k r, bDirt := true, bCount := bh.bCount - 1 }) := by
        rw [hstart, if_pos hr, Machine.bind_of_eq_ok (store_eq hcache k r)]
        dsimp only
        rw [Machine.bind_of_eq_ok (brelse_eq (cache_put_self _ _ _ _) (by exact hpos)), put_put]
        rfl
      have hext := indexEntry_extends hsound hpath hup hrun
      have hdev : dev = (s.inode inode).iDev := (ptr_spec hup).left
      have hne : block ≠ r := by
        rintro rfl
        exact (hblock.fresh hr).left (hquiet.marked _ hmarked)
      have hvacant : (forest s).ptr inode (k :: l :: p) = none := by
        rw [Forest.ptr_cons_of_some hup]
        simp only [forest, hcontent, hzero]
        rfl
      have hother : ∀ d z, ¬ (d = dev ∧ z = block) → ¬ (d = dev ∧ z = r) → (s₂.put dev block
          { bh with bData := Function.update bh.bData k r, bDirt := true, bCount := bh.bCount - 1 }).content d z
            = s.content d z := by
        intro d z hb hz
        rw [content_put, if_neg hb, hblock.content hz, hsame]
      apply Ensures.of_eq_ok hrun
      refine ⟨?_, fun h => absurd h hr⟩
      apply grows_of_extends hvacant hext (count_put_back hblock hback) (inode_put_back hblock)
      . intro _ d z
        rw [content_put]
        split
        . simp
        . exact hblock.readable hr (by rwa [hsame]) d z
      . exact hformatted' _
      . intro j c a hc ha
        refine hother a.fst a.snd ?_ (ptr_ne_fresh (hquiet.sound hsound) hblock hr (isPath_pathOf hc)
          ((hquiet.ptr j (isPath_pathOf hc)).trans ha))
        -- No block of a file is an index block.
        intro heq
        have hleaf := hsound.unshared j inode (pathOf c) (l :: p) a (isPath_pathOf hc) hvalid ha
          (hup.trans (congrArg some (Prod.ext heq.left heq.right).symm))
        rw [← hleaf.right] at hpath
        exact not_isPath_above c hpath
      . rw [← hdev, content_put, if_neg fun heq => hne heq.right.symm]
        exact hblock.content_new hr
  . apply indexEntry_ensures
    . intro hnone
      rw [hcontent] at hnone
      cases hnone
    . intro data' hdata' hne s' hcalm
      exact ⟨.of_calm hcalm, fun h => absurd h hne⟩
    . intro data' hdata' hempty
      cases hcontent.symm.trans hdata'
      exact absurd hempty hzero
    . intro data' hdata' hempty
      cases hcontent.symm.trans hdata'
      exact absurd hempty hzero

theorem createZone_step (hsound : Sound s) (hk : k < 9) (hformatted : IsFormatted s (s.inode inode).iDev)
    : Ensures (createZone inode k true) s
        (fun _ s' => Sound s' ∧ Grows s s' ∧ ((s'.inode inode).iZone k = 0 → Full s' (s.inode inode).iDev))
        fun _ => False := by
  have hgrows := createZone_grows hsound hk hformatted
  cases hrun : createZone inode k true s with
  | error e => exact (hgrows.error hrun).elim
  | ok q =>
    exact .of_eq_ok hrun ⟨(createZone_extends hsound hk hrun).sound, hgrows.ok hrun⟩

theorem indexEntry_step (hsound : Sound s) (hpath : IsPath (k :: l :: p))
    (hup : (forest s).ptr inode (l :: p) = some (dev, block)) (hformatted : IsFormatted s dev)
    (hreadable : ∀ d z, s.content d z ≠ none)
    : Ensures (indexEntry dev block k true) s
        (fun r s' => Sound s' ∧ (forest s').ptr inode (k :: l :: p) = zoneAt dev r ∧ Grows s s' ∧ (r = 0 → Full s' dev))
        fun _ => False := by
  have hgrows := indexEntry_grows hsound hpath hup hformatted hreadable
  cases hrun : indexEntry dev block k true s with
  | error e => exact (hgrows.error hrun).elim
  | ok q =>
    have hext := indexEntry_extends hsound hpath hup hrun
    have hdev : dev = (s.inode inode).iDev := (ptr_spec hup).left
    exact .of_eq_ok hrun ⟨hext.sound, hdev ▸ hext.here, hgrows.ok hrun⟩

theorem createBlock_grows (hsound : Sound s) (hblock : block < maxBlocks)
    (hformatted : IsFormatted s (s.inode inode).iDev) (hreadable : ∀ d z, s.content d z ≠ none)
    : Ensures (createBlock inode (block : Nat)) s
        (fun r s' => Grows s s' ∧ (r = 0 → Full s' (s.inode inode).iDev)) fun _ => False := by
  have hpath := isPath_pathOf hblock
  unfold createBlock _bmap
  rw [if_neg (by omega), if_neg (by unfold maxBlocks at hblock; omega)]
  simp only [Int.toNat_natCast]
  apply Ensures.ite
  . intro hdirect
    apply Ensures.bind
    apply (createZone_grows hsound (show block < 9 by omega) hformatted).imp
    intro _ s₁ h₁
    apply Ensures.bind
    apply Ensures.get
    exact .pure h₁
  intro hindirect
  apply Ensures.ite
  . intro hindex
    rw [pathOf_index hindirect hindex] at hpath
    apply Ensures.bind
    apply (createZone_step hsound (show 7 < 9 by omega) hformatted).imp
    rintro _ s₁ ⟨hsound₁, hgrows₁, hfull₁⟩
    rw [← hgrows₁.iDev inode] at hformatted hfull₁ ⊢
    apply Ensures.bind
    apply Ensures.get
    apply Ensures.ite
    . intro hzero
      exact .pure ⟨hgrows₁, fun _ => hfull₁ hzero⟩
    intro hne
    apply (indexEntry_grows hsound₁ hpath (ptr_zone hne) (hgrows₁.formatted _ hformatted)
      (hgrows₁.readable hreadable)).imp
    rintro r s' ⟨hgrows, hfull⟩
    exact ⟨hgrows₁.trans hgrows, hfull⟩
  intro hdouble
  rw [pathOf_double hindirect hdouble] at hpath
  apply Ensures.bind
  apply (createZone_step hsound (show 8 < 9 by omega) hformatted).imp
  rintro _ s₁ ⟨hsound₁, hgrows₁, hfull₁⟩
  rw [← hgrows₁.iDev inode] at hformatted hfull₁ ⊢
  apply Ensures.bind
  apply Ensures.get
  apply Ensures.ite
  . intro hzero
    exact .pure ⟨hgrows₁, fun _ => hfull₁ hzero⟩
  intro hne
  apply Ensures.bind
  apply (indexEntry_step hsound₁ (isPath_closed _ _ _ hpath) (ptr_zone hne) (hgrows₁.formatted _ hformatted)
    (hgrows₁.readable hreadable)).imp
  rintro i s₂ ⟨hsound₂, hup, hgrows₂, hfull₂⟩
  have hgrows := hgrows₁.trans hgrows₂
  apply Ensures.ite
  . intro hzero
    exact .pure ⟨hgrows, fun _ => hfull₂ hzero⟩
  intro hi
  rw [zoneAt, if_neg hi] at hup
  apply (indexEntry_grows hsound₂ hpath hup (hgrows.formatted _ hformatted) (hgrows.readable hreadable)).imp
  rintro r s' ⟨hgrows₃, hfull₃⟩
  exact ⟨hgrows.trans hgrows₃, hfull₃⟩

theorem createBlock_step (hsound : Sound s) (hblock : block < maxBlocks)
    (hformatted : IsFormatted s (s.inode inode).iDev) (hreadable : ∀ d z, s.content d z ≠ none)
    : Ensures (createBlock inode (block : Nat)) s
        (fun r s' => Sound s' ∧ (forest s').ptr inode (pathOf block) = zoneAt (s.inode inode).iDev r ∧ Grows s s'
          ∧ (r = 0 → Full s' (s.inode inode).iDev)) fun _ => False := by
  have hgrows := @createBlock_grows s inode block hsound hblock hformatted hreadable
  cases hrun : createBlock inode (block : Nat) s with
  | error e => exact (hgrows.error hrun).elim
  | ok q =>
    have hcreates := bmap_creates hsound hblock hrun
    exact .of_eq_ok hrun ⟨hcreates.sound, hcreates.here, hgrows.ok hrun⟩

theorem createBlock_big (h : maxBlocks ≤ block)
    : createBlock inode (block : Nat) s = .error (.panic "_bmap: block>big") := by
  unfold createBlock _bmap
  rw [if_neg (by omega), if_pos (by unfold maxBlocks at h; omega)]
  rfl

end Growing

end Minix
end OS
