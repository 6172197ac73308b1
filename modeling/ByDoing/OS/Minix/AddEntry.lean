import ByDoing.OS.Minix.CreateBlock

namespace OS
namespace Minix

section Add

open Machine

theorem addNext_ensures {s t : Fs Slot} {dir : Slot} {block i k : Nat} {Q : AddNext → Fs Slot → Prop}
    {E : Stop → Prop} (hholds : Holds s t dir block) (hat : At block i k)
    (hentry : ∀ t', Holds s t' dir (i / DIR_ENTRIES_PER_BLOCK) → Q (.entry (entryPtr s dir i)) t')
    (hnew : i = DIR_ENTRIES_PER_BLOCK * (block + 1) → fileZone s dir (block + 1) = 0 → ∀ s₁ r bh,
      Grown s s₁ dir → Read s₁ (s.inode dir).iDev r true bh → bh.bData = (fun _ => 0) →
      Q (.entry ⟨(s.inode dir).iDev, r, 0⟩) (s₁.put (s.inode dir).iDev r bh))
    (hfull : i = DIR_ENTRIES_PER_BLOCK * (block + 1) → fileZone s dir (block + 1) = 0 → ∀ t', Grown s t' dir →
      Q .full t')
    (hunread : i = DIR_ENTRIES_PER_BLOCK * (block + 1) → block + 1 < maxBlocks → fileZone s dir (block + 1) ≠ 0 →
      blockData s dir (block + 1) = none → ∀ t', Calm s t' → Q .unread t')
    (hbig : i = DIR_ENTRIES_PER_BLOCK * (block + 1) → maxBlocks ≤ block + 1 → E (.panic "_bmap: block>big"))
    (hE : i = DIR_ENTRIES_PER_BLOCK * (block + 1) → fileZone s dir (block + 1) = 0 →
      ∀ e : Stop, e ≠ .fault → ¬ e.OfBmap → E e)
    : Ensures (addNext dir i (.held (s.inode dir).iDev (fileZone s dir block)) k) t Q E := by
  unfold addNext
  apply Ensures.bind
  apply Ensures.pure
  dsimp only
  obtain ⟨hk, hi⟩ | ⟨hk, hi⟩ := hat
  . rw [if_pos hk]
    apply Ensures.pure
    have hdiv : i / DIR_ENTRIES_PER_BLOCK = block := by
      unfold DIR_ENTRIES_PER_BLOCK at *
      omega
    have hptr : entryPtr s dir i = ⟨(s.inode dir).iDev, fileZone s dir block, k⟩ := by
      have hmod : i % DIR_ENTRIES_PER_BLOCK = k := by
        unfold DIR_ENTRIES_PER_BLOCK at *
        omega
      rw [entryPtr, hdiv, hmod]
    rw [← hptr]
    exact hentry t (hdiv ▸ hholds)
  . have hdiv : i / DIR_ENTRIES_PER_BLOCK = block + 1 := by
      unfold DIR_ENTRIES_PER_BLOCK at *
      omega
    have hptr : entryPtr s dir i = ⟨(s.inode dir).iDev, fileZone s dir (block + 1), 0⟩ := by
      have hmod : i % DIR_ENTRIES_PER_BLOCK = 0 := by
        unfold DIR_ENTRIES_PER_BLOCK at *
        omega
      rw [entryPtr, hdiv, hmod]
    rw [if_neg (by omega)]
    apply Ensures.bind
    apply hholds.release_ensures
    intro s₁ hcalm
    apply Ensures.bind
    rw [hdiv]
    have hzone₁ : fileZone s₁ dir (block + 1) = fileZone s dir (block + 1) := by
      rw [fileZone, hcalm.forest, ← fileZone]
    by_cases hzone : fileZone s dir (block + 1) = 0
    . apply createBlock_ensures
      . intro _ hne
        rw [hzone₁] at hne
        exact absurd hzone hne
      . intro _ _ r s₂ hgrown hzeros
        rw [hcalm.inode] at hzeros
        replace hgrown := (Grown.of_calm hcalm).trans hgrown
        apply Ensures.ite
        . intro _
          exact .pure (hfull hi hzone s₂ hgrown)
        intro hr
        apply Ensures.bind
        apply Ensures.get
        rw [hgrown.iDev]
        apply Ensures.bind
        apply bread_ensures
        intro b bh hread
        have hcontent := hread.content
        rw [hzeros hr] at hcontent
        cases b with
        | false => cases hcontent
        | true =>
          rw [if_pos rfl]
          exact .pure (hnew hi hzone s₂ r bh hgrown hread (Option.some.inj hcontent).symm)
      . exact hbig hi
      . exact fun _ => hE hi hzone
    . apply createBlock_ensures
      . intro hlt _ s₂ hcalm₂
        have hcalm' := hcalm.trans hcalm₂
        rw [hzone₁, if_neg hzone]
        apply Ensures.bind
        apply Ensures.get
        rw [hcalm'.inode]
        apply Ensures.bind
        apply bread_block_ensures hcalm' hlt hzone
        . intro t' hholds'
          rw [if_pos rfl, ← hptr]
          exact .pure (hentry t' (hdiv ▸ hholds'))
        . intro t' hcalm'' hdata
          exact .pure (hunread hi hlt hzone hdata t' hcalm'')
      . intro _ hzero
        rw [hzone₁] at hzero
        exact absurd hzero hzone
      . exact hbig hi
      . intro hzero
        rw [hzone₁] at hzero
        exact absurd hzero hzone

-- An entry that `add_entry` passes by.
def Occupied (s : Fs Slot) (dir : Slot) (i : Nat) : Prop :=
  i * 16 < (s.inode dir).iSize ∧ ∃ de, entryAt s dir i = some de ∧ de.inode ≠ 0

def Blocked (s : Fs Slot) (dir : Slot) (block : Nat) : Prop :=
  1 ≤ block ∧ block < maxBlocks ∧ fileZone s dir block ≠ 0 ∧ blockData s dir block = none
    ∧ (∀ b < block, blockData s dir b ≠ none) ∧ ∀ i < DIR_ENTRIES_PER_BLOCK * block, Occupied s dir i

def AddStop (s : Fs Slot) (dir : Slot) (e : Stop) : Prop :=
  (e = .fault ∧ ∃ block, Blocked s dir block) ∨ (e ≠ .fault ∧ ∀ block, ¬ Blocked s dir block)

theorem not_blocked_of_present {s : Fs Slot} {dir : Slot} {i : Nat}
    (hpresent : ∀ b ≤ i / DIR_ENTRIES_PER_BLOCK, blockData s dir b ≠ none) (hfree : ¬ Occupied s dir i) (block : Nat)
    : ¬ Blocked s dir block := by
  rintro ⟨_, _, _, hnone, _, hfull⟩
  by_cases hle : block ≤ i / DIR_ENTRIES_PER_BLOCK
  . exact hpresent block hle hnone
  . apply hfree
    apply hfull
    unfold DIR_ENTRIES_PER_BLOCK at *
    omega

theorem not_blocked_of_missing {s : Fs Slot} {dir : Slot} {b : Nat} (hpresent : ∀ b' < b, blockData s dir b' ≠ none)
    (hnone : blockData s dir b = none) (hzone : b = 0 ∨ fileZone s dir b = 0 ∨ maxBlocks ≤ b) (block : Nat)
    : ¬ Blocked s dir block := by
  rintro ⟨hone, hlt, hzone', hnone', hpresent', _⟩
  obtain hcmp | rfl | hcmp := Nat.lt_trichotomy block b
  . exact hpresent block hcmp hnone'
  . obtain hzero | hzero | hbig := hzone
    . omega
    . exact hzone' hzero
    . omega
  . exact hpresent' b hcmp hnone

section Fill

variable {s : Fs Slot} {p : EntryPtr} {bh : BufferHead} {Q : Option EntryPtr → Fs Slot → Prop} {E : Stop → Prop}

theorem fill_ensures {dir : Slot} {name : List UInt8} {namelen : Nat} (hcache : s.cache p.dev p.block = some bh)
    (hQ : ∀ s', Q (some p) s')
    : Ensures ((modify fun s => s.setInode dir fun m => { m with iMtime := s.CURRENT_TIME }) >>= fun _ =>
        (forM (List.range 7) fun t => store p.dev p.block (8 * p.k + 1 + t) (nameShort name namelen t)) >>= fun _ =>
        (pure (some p) : Call Slot (Option EntryPtr))) s Q E := by
  apply Ensures.bind
  apply Ensures.modify
  apply Ensures.bind
  have hself : (s.setInode dir fun m => { m with iMtime := s.CURRENT_TIME })
      = (s.setInode dir fun m => { m with iMtime := s.CURRENT_TIME }).put p.dev p.block bh := by
    unfold Fs.put
    rw [cache_setInode, ← hcache, Function.update_eq_self, Function.update_eq_self]
    rfl
  rw [hself]
  apply forM_store_ensures
  intro bh' _ _
  exact .pure (hQ _)

end Fill

theorem add_round_ensures {s : Fs Slot} {dir : Slot} {name : List UInt8} {namelen i : Nat} {p : EntryPtr}
    {bh : BufferHead} {rest : Call Slot (Option EntryPtr)} {Q : Option EntryPtr → Fs Slot → Prop} {E : Stop → Prop}
    (hcache : s.cache p.dev p.block = some bh)
    (hQ : (s.inode dir).iSize ≤ i * 16 ∨ (dirEntry bh.bData p.k).inode = 0 → ∀ s', Q (some p) s')
    (hrest : i * 16 < (s.inode dir).iSize → (dirEntry bh.bData p.k).inode ≠ 0 → Ensures rest s Q E)
    : Ensures (do
        if i * 16 ≥ ((← get).inode dir).iSize then
          store p.dev p.block (8 * p.k) 0
          modify fun s => s.setInode dir fun m =>
            { m with iSize := (i + 1) * 16, iDirt := true, iCtime := s.CURRENT_TIME }
        if (← p.read).inode = 0 then
          modify fun s => s.setInode dir fun m => { m with iMtime := s.CURRENT_TIME }
          forM (List.range 7) fun t => store p.dev p.block (8 * p.k + 1 + t) (nameShort name namelen t)
          return some p
        rest) s Q E := by
  apply Ensures.bind
  apply Ensures.get
  apply Ensures.ite
  . intro hge
    apply Ensures.bind
    apply store_ensures hcache
    apply Ensures.bind
    apply Ensures.modify
    rw [setInode_put]
    apply Ensures.bind
    apply Ensures.bind
    apply Ensures.of_eq_ok (bData_eq (cache_put_self _ _ _ _))
    apply Ensures.pure
    apply Ensures.ite
    . intro _
      apply fill_ensures (cache_put_self _ _ _ _)
      exact hQ (.inl hge)
    . intro hne
      simp [dirEntry] at hne
  . intro hlt
    apply Ensures.bind
    apply Ensures.bind
    apply Ensures.of_eq_ok (bData_eq hcache)
    apply Ensures.pure
    apply Ensures.ite
    . intro hzero
      exact fill_ensures hcache (hQ (.inr hzero))
    . intro hne
      exact hrest (by omega) hne

theorem addLoop_null {t : Fs Slot} {dir : Slot} {name : List UInt8} {namelen n i k : Nat}
    {Q : Option EntryPtr → Fs Slot → Prop} {E : Stop → Prop} (hE : E .fault)
    : Ensures (addLoop dir name namelen n i .null k) t Q E := by
  cases n with
  | zero => exact .stop hE
  | succ n =>
    unfold addLoop
    apply Ensures.bind
    apply Ensures.bind
    exact .stop hE

theorem addLoop_ensures {s t : Fs Slot} {dir : Slot} {name : List UInt8} {namelen n block i k : Nat}
    (hholds : Holds s t dir block) (hat : At block i k) (hn : (s.inode dir).iSize / 16 + 2 ≤ i + n)
    (hfull : ∀ j < i, Occupied s dir j) (hpresent : ∀ b ≤ block, blockData s dir b ≠ none)
    : Ensures (addLoop dir name namelen n i (.held (s.inode dir).iDev (fileZone s dir block)) k) t
        (fun _ _ => ∀ block, ¬ Blocked s dir block) (AddStop s dir) := by
  have hbefore : ∀ b' < block + 1, blockData s dir b' ≠ none := fun b' hb' => hpresent b' (by omega)
  induction n generalizing t block i k with
  | zero =>
    have hlast := (hfull (i - 1) (by omega)).left
    omega
  | succ n ih =>
    unfold addLoop
    apply Ensures.bind
    apply addNext_ensures hholds hat
    . intro t' hholds'
      have hpresent' : ∀ b ≤ i / DIR_ENTRIES_PER_BLOCK, blockData s dir b ≠ none := by
        intro b hb
        by_cases hle : b ≤ block
        . exact hpresent b hle
        . have heq : b = i / DIR_ENTRIES_PER_BLOCK := by
            have hblock := hat.block_le
            omega
          rw [heq]
          exact hholds'.present
      obtain ⟨s₁, bh, hcalm, _, hdata, heq⟩ := hholds'.exists_read
      have hcache : t'.cache (entryPtr s dir i).dev (entryPtr s dir i).block = some bh := by
        rw [heq]
        exact cache_put_self _ _ _ _
      have hde : entryAt s dir i = some (dirEntry bh.bData (entryPtr s dir i).k) := by
        rw [entryAt, hdata]
        rfl
      apply add_round_ensures hcache
      . intro hfree _
        apply not_blocked_of_present hpresent'
        rintro ⟨hsize, de, hentry, hne⟩
        rw [hde, Option.some.injEq] at hentry
        rw [hholds'.inode] at hfree
        obtain hge | hzero := hfree
        . omega
        . rw [hentry] at hzero
          exact hne hzero
      . intro hsize hne
        rw [hholds'.inode] at hsize
        have hfull' : ∀ j < i + 1, Occupied s dir j := by
          intro j hj
          by_cases hji : j = i
          . subst hji
            exact ⟨hsize, _, hde, hne⟩
          . exact hfull j (by omega)
        exact ih hholds' (at_next i) (by omega) hfull' hpresent' fun b' hb' => hpresent' b' (by omega)
    . intro _ hzone s₁ r bh hgrown hread hzeros
      apply add_round_ensures (cache_put_self _ _ _ _)
      . intro _ _
        exact not_blocked_of_missing hbefore (blockData_eq_none_of_zone hzone) (.inr (.inl hzone))
      . intro _ hne
        rw [hzeros] at hne
        exact absurd rfl hne
    . intro _ hzone t' _
      apply Ensures.pure
      exact not_blocked_of_missing hbefore (blockData_eq_none_of_zone hzone) (.inr (.inl hzone))
    . intro hi hlt hzone hnone t' _
      apply addLoop_null
      exact .inl ⟨rfl, block + 1, by omega, hlt, hzone, hnone, hbefore, hi ▸ hfull⟩
    . intro _ hbig
      have hnone : blockData s dir (block + 1) = none := by
        rw [blockData, if_neg (by omega)]
      exact .inr ⟨by simp, not_blocked_of_missing hbefore hnone (.inr (.inr hbig))⟩
    . intro _ hzone e hne _
      exact .inr ⟨hne, not_blocked_of_missing hbefore (blockData_eq_none_of_zone hzone) (.inr (.inl hzone))⟩

theorem addEntry_ensures (s : Fs Slot) (dir : Slot) {name : List UInt8} (hname : name ≠ [])
    : Ensures (addEntry dir name) s (fun _ _ => ∀ block, ¬ Blocked s dir block) (AddStop s dir) := by
  have hpos : ¬ min name.length NAME_LEN = 0 := by
    have hlength := List.length_pos_of_ne_nil hname
    unfold NAME_LEN
    omega
  have hnothing : ∀ b < 0, blockData s dir b ≠ none := fun b hb => absurd hb (Nat.not_lt_zero b)
  unfold addEntry
  dsimp only
  rw [if_neg hpos]
  apply Ensures.bind
  apply Ensures.get
  rw [← fileZone_zero]
  apply Ensures.ite
  . intro hzone
    apply Ensures.pure
    exact not_blocked_of_missing hnothing (blockData_eq_none_of_zone hzone) (.inl rfl)
  intro hzone
  apply Ensures.bind
  apply bread_block_ensures (.refl s) zero_lt_maxBlocks hzone
  . intro t hholds
    rw [if_pos rfl]
    have hat : At 0 0 0 := .inl ⟨by decide, rfl⟩
    apply addLoop_ensures hholds hat (by omega)
    . intro j hj
      omega
    . intro b hb
      rw [Nat.le_zero.mp hb]
      exact hholds.present
  . intro t _ hnone
    apply Ensures.pure
    exact not_blocked_of_missing hnothing hnone (.inl rfl)

theorem addEntry_iff (s : Fs Slot) (dir : Slot) {name : List UInt8} (hname : name ≠ [])
    : addEntry dir name s ≠ .error .fault ↔ ∀ block, ¬ Blocked s dir block := by
  have hadd := addEntry_ensures s dir hname
  cases hrun : addEntry dir name s with
  | ok p => simp [hadd.ok hrun]
  | error e =>
    obtain ⟨rfl, block, hblocked⟩ | ⟨hne, hnot⟩ := hadd.error hrun
    . simp only [ne_eq, not_true_eq_false, false_iff, not_forall, not_not]
      exact ⟨block, hblocked⟩
    . simp [hne, hnot]

end Add

end Minix
end OS
