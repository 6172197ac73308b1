import ByDoing.OS.Minix.Entries

namespace OS
namespace Minix

section Find

open Machine

theorem findNext_eq (dir : Slot) (i : Nat) (bh : Handle) (k : Nat)
    : findNext dir i bh k = emptyNext dir i bh k >>= fun r =>
        pure (match r with
          | .entry p => some p
          | .hole => none
          | .unread => none) := by
  unfold findNext emptyNext
  rw [bind_assoc]
  congr 1
  funext p
  split
  . rfl
  . simp only [bind_assoc]
    congr 1
    funext _
    congr 1
    funext block
    split
    . rfl
    . simp only [bind_assoc]
      congr 1
      funext _
      congr 1
      funext b
      split
      . rfl
      . rfl

theorem findNext_ensures {s t : Fs Slot} {dir : Slot} {block i k : Nat} {Q : Option EntryPtr → Fs Slot → Prop}
    {E : Stop → Prop} (hholds : Holds s t dir block) (hat : At block i k)
    (hsome : ∀ t', Holds s t' dir (i / DIR_ENTRIES_PER_BLOCK) → Q (some (entryPtr s dir i)) t')
    (hnone : i = DIR_ENTRIES_PER_BLOCK * (block + 1) → block + 1 < maxBlocks →
      blockData s dir (block + 1) = none → ∀ t', Calm s t' → Q none t')
    (hbig : i = DIR_ENTRIES_PER_BLOCK * (block + 1) → maxBlocks ≤ block + 1 → E (.panic "_bmap: block>big"))
    : Ensures (findNext dir i (.held (s.inode dir).iDev (fileZone s dir block)) k) t Q E := by
  rw [findNext_eq]
  apply Ensures.bind
  apply emptyNext_ensures hholds hat
  . intro t' hholds'
    exact .pure (hsome t' hholds')
  . intro hi hlt hzone t' hcalm
    exact .pure (hnone hi hlt (blockData_eq_none_of_zone hzone) t' hcalm)
  . intro hi hlt _ hdata t' hcalm
    exact .pure (hnone hi hlt hdata t' hcalm)
  . exact hbig

theorem findLoop_null {t : Fs Slot} {dir : Slot} {name : List UInt8} {namelen entries n i k : Nat}
    {Q : Option EntryPtr → Fs Slot → Prop} {E : Stop → Prop} (hn : n = 0 → entries ≤ i)
    (hQ : entries ≤ i → Q none t) (hE : i < entries → E .fault)
    : Ensures (findLoop dir name namelen entries n i .null k) t Q E := by
  cases n with
  | zero =>
    apply Ensures.bind
    apply Ensures.pure
    exact .pure (hQ (hn rfl))
  | succ n =>
    unfold findLoop
    apply Ensures.ite
    . intro hi
      apply Ensures.bind
      apply Ensures.bind
      exact .stop (hE hi)
    . intro hi
      apply Ensures.bind
      apply Ensures.pure
      exact .pure (hQ (Nat.le_of_not_lt hi))

def Hit (s : Fs Slot) (dir : Slot) (name : List UInt8) (namelen i : Nat) : Prop :=
  ∃ de, entryAt s dir i = some de ∧ DirEntry.matchName namelen name de = true

theorem Hit.present {s : Fs Slot} {dir : Slot} {name : List UInt8} {namelen i : Nat} (h : Hit s dir name namelen i)
    : blockData s dir (i / DIR_ENTRIES_PER_BLOCK) ≠ none := by
  obtain ⟨de, hde, _⟩ := h
  intro hnone
  simp [entryAt, hnone] at hde

/--
How the search of `find_entry` may end, by the blocks of the directory: with an entry, without one, in the panic of
`_bmap`, or in the fault behind a block that it cannot read.
-/
def Found (s : Fs Slot) (dir : Slot) (name : List UInt8) (namelen entries : Nat) (r : Option EntryPtr) : Prop :=
  match r with
  | some p => ∃ i < entries, Hit s dir name namelen i ∧ p = entryPtr s dir i
      ∧ ∀ block ≤ i / DIR_ENTRIES_PER_BLOCK, blockData s dir block ≠ none
  | none => blockData s dir 0 = none
      ∨ ((∀ i < entries, ¬ Hit s dir name namelen i)
        ∧ ∀ block < maxBlocks, blockData s dir block = none → entries ≤ DIR_ENTRIES_PER_BLOCK * (block + 1))

def FoundStop (s : Fs Slot) (dir : Slot) (name : List UInt8) (namelen entries : Nat) (e : Stop) : Prop :=
  (e = .panic "_bmap: block>big" ∧ (∀ i, ¬ Hit s dir name namelen i)
      ∧ ∀ block < maxBlocks, blockData s dir block ≠ none)
    ∨ (e = .fault ∧ ∃ block, 1 ≤ block ∧ block < maxBlocks ∧ blockData s dir block = none
      ∧ DIR_ENTRIES_PER_BLOCK * (block + 1) < entries
      ∧ (∀ i < DIR_ENTRIES_PER_BLOCK * block, ¬ Hit s dir name namelen i)
      ∧ ∀ b < block, blockData s dir b ≠ none)

theorem entryAt_big {s : Fs Slot} {dir : Slot} {i : Nat} (h : DIR_ENTRIES_PER_BLOCK * maxBlocks ≤ i)
    : entryAt s dir i = none := by
  have hblock : ¬ i / DIR_ENTRIES_PER_BLOCK < maxBlocks := by
    rw [Nat.div_lt_iff_lt_mul (by decide), Nat.mul_comm]
    omega
  simp [entryAt, blockData, hblock]

theorem findLoop_ensures {s t : Fs Slot} {dir : Slot} {name : List UInt8} {namelen entries n block i k : Nat}
    (hholds : Holds s t dir block) (hat : At block i k) (hn : entries ≤ i + n)
    (hclear : ∀ j < i, ¬ Hit s dir name namelen j) (hpresent : ∀ b ≤ block, blockData s dir b ≠ none)
    : Ensures (findLoop dir name namelen entries n i (.held (s.inode dir).iDev (fileZone s dir block)) k) t
        (fun r _ => Found s dir name namelen entries r) (FoundStop s dir name namelen entries) := by
  -- The search has come to the end of the directory in a block that it holds.
  have hend : entries ≤ i → Found s dir name namelen entries none := by
    intro hi
    refine .inr ⟨fun j hj => hclear j (by omega), ?_⟩
    intro b _ hnone
    have hlt : block < b := by
      by_contra hle
      exact hpresent b (by omega) hnone
    unfold At DIR_ENTRIES_PER_BLOCK at *
    omega
  induction n generalizing t block i k with
  | zero =>
    apply Ensures.bind
    apply hholds.release_ensures
    intro s' _
    exact .pure (hend (by omega))
  | succ n ih =>
    unfold findLoop
    apply Ensures.ite
    . intro hi
      apply Ensures.bind
      apply findNext_ensures hholds hat
      . intro t' hholds'
        dsimp only
        apply Ensures.bind
        apply hholds'.read_ensures
        intro de hde
        have hpresent' : ∀ b ≤ i / DIR_ENTRIES_PER_BLOCK, blockData s dir b ≠ none := by
          intro b hb
          by_cases hle : b ≤ block
          . exact hpresent b hle
          . have heq : b = i / DIR_ENTRIES_PER_BLOCK := by
              have hblock := hat.block_le
              omega
            rw [heq]
            exact hholds'.present
        apply Ensures.ite
        . intro hmatch
          exact .pure ⟨i, hi, ⟨de, hde, hmatch⟩, rfl, hpresent'⟩
        intro hmatch
        have hclear' : ∀ j < i + 1, ¬ Hit s dir name namelen j := by
          intro j hj
          by_cases hji : j = i
          . subst hji
            rintro ⟨de', hde', hmatch'⟩
            cases hde.symm.trans hde'
            exact hmatch hmatch'
          . exact hclear j (by omega)
        apply ih hholds' (at_next i) (by omega) hclear' hpresent'
        intro hi'
        refine .inr ⟨fun j hj => hclear' j (by omega), ?_⟩
        intro b _ hnone
        have hlt : i / DIR_ENTRIES_PER_BLOCK < b := by
          by_contra hle
          exact hpresent' b (by omega) hnone
        unfold DIR_ENTRIES_PER_BLOCK at *
        omega
      . intro hi' hlt hnone t' _
        dsimp only
        apply findLoop_null
        . intro hlast
          unfold DIR_ENTRIES_PER_BLOCK
          omega
        . intro hlast
          refine .inr ⟨?_, ?_⟩
          . intro j hj hhit
            by_cases hji : j < i
            . exact hclear j hji hhit
            . have hblock : j / DIR_ENTRIES_PER_BLOCK = block + 1 := by
                unfold DIR_ENTRIES_PER_BLOCK at *
                omega
              exact hhit.present (hblock ▸ hnone)
          . intro b _ hb
            have hge : block + 1 ≤ b := by
              by_contra hle
              exact hpresent b (by omega) hb
            unfold DIR_ENTRIES_PER_BLOCK at *
            omega
        . intro hmore
          refine .inr ⟨rfl, block + 1, by omega, hlt, hnone, ?_, ?_, ?_⟩
          . unfold DIR_ENTRIES_PER_BLOCK at *
            omega
          . rw [← hi']
            exact hclear
          . intro b hb
            exact hpresent b (by omega)
      . intro hi' hbig
        refine .inl ⟨rfl, ?_, ?_⟩
        . intro j hhit
          by_cases hji : j < i
          . exact hclear j hji hhit
          . obtain ⟨de, hde, _⟩ := hhit
            have hle : DIR_ENTRIES_PER_BLOCK * maxBlocks ≤ j := by
              have hmul := Nat.mul_le_mul_left DIR_ENTRIES_PER_BLOCK hbig
              omega
            rw [entryAt_big hle] at hde
            cases hde
        . intro b hb
          exact hpresent b (by omega)
    . intro hi
      apply Ensures.bind
      apply hholds.release_ensures
      intro s' _
      exact .pure (hend (by omega))

theorem findScan_ensures (s : Fs Slot) (dir : Slot) (name : List UInt8) (namelen entries : Nat)
    : Ensures (findScan dir name namelen entries) s (fun r _ => Found s dir name namelen entries r)
        (FoundStop s dir name namelen entries) := by
  unfold findScan
  apply Ensures.bind
  apply Ensures.get
  dsimp only
  rw [← fileZone_zero]
  apply Ensures.ite
  . intro hzone
    exact .pure (.inl (blockData_eq_none_of_zone hzone))
  intro hzone
  apply Ensures.bind
  apply bread_block_ensures (.refl s) zero_lt_maxBlocks hzone
  . intro t hholds
    rw [if_pos rfl]
    have hat : At 0 0 0 := .inl ⟨by decide, rfl⟩
    apply findLoop_ensures hholds hat (by omega)
    . intro j hj
      omega
    . intro b hb
      rw [Nat.le_zero.mp hb]
      exact hholds.present
  . intro t _ hnone
    exact .pure (.inl hnone)

def Live (s : Fs Slot) (dir : Slot) (key : List UInt8) (i : Nat) : Prop :=
  ∃ de, entryAt s dir i = some de ∧ de.inode ≠ 0 ∧ de.text = key

theorem matchName_iff {name : FileName} {namelen : Nat} (hpos : 0 < namelen)
    (hle : namelen ≤ min name.bytes.length NAME_LEN) (de : DirEntry)
    : DirEntry.matchName namelen name.bytes de = true ↔ de.inode ≠ 0 ∧ de.text = name.bytes.take namelen := by
  have hbytes : name.bytes.take namelen ≠ [] := by
    intro hnil
    rw [List.take_eq_nil_iff] at hnil
    obtain hzero | hempty := hnil
    . omega
    . exact name.not_empty hempty
  let short : FileName := ⟨name.bytes.take namelen, hbytes, fun h => name.no_zero (List.mem_of_mem_take h)⟩
  have hlength : min short.bytes.length NAME_LEN = namelen := by
    rw [show short.bytes = name.bytes.take namelen from rfl, List.length_take]
    omega
  have hkey : short.key = name.bytes.take namelen := by
    rw [FileName.key, show short.bytes = name.bytes.take namelen from rfl, List.take_take]
    congr 1
    omega
  have hmatch : DirEntry.matchName namelen name.bytes de = de.isNamed short := by
    rw [DirEntry.isNamed, hlength]
    unfold DirEntry.matchName
    rw [show short.bytes = name.bytes.take namelen from rfl, List.take_take, Nat.min_self]
  rw [hmatch, DirEntry.isNamed_iff, hkey]

theorem dotdot_namelen {current : Task} {dir : Slot} {name : List UInt8} {namelen : Nat} (hpos : 0 < namelen)
    (s : Fs Slot)
    : Ensures (dotdot current dir name namelen) s (fun r _ => 0 < r.snd ∧ r.snd ≤ namelen) fun _ => True := by
  have hsame : 0 < namelen ∧ namelen ≤ namelen := ⟨hpos, Nat.le_refl namelen⟩
  unfold dotdot
  apply Ensures.ite
  . intro _
    apply Ensures.ite
    . intro _
      exact .pure ⟨Nat.zero_lt_one, hpos⟩
    intro _
    apply Ensures.bind
    apply Ensures.get
    apply Ensures.ite
    . intro _
      apply Ensures.bind
      apply Ensures.get
      split
      . exact .stop trivial
      . split
        . exact .pure hsame
        . apply Ensures.bind
          cases hput : iput (some dir) s with
          | error e => exact .of_eq_error hput trivial
          | ok p =>
            apply Ensures.of_eq_ok hput
            apply Ensures.bind
            apply Ensures.modify
            exact .pure hsame
    . intro _
      exact .pure hsame
  . intro _
    exact .pure hsame

/--
What `find_entry` promises: it follows no null pointer and none to a buffer that it has released, and it returns an
entry of the directory with the name if a block that can be read has one.
-/
def FindsEntry (s : Fs Slot) (current : Task) (dir : Slot) (name : FileName) : Prop :=
  ∀ dir' namelen s₁, dotdot current dir name.bytes (min name.bytes.length NAME_LEN) s = .ok ((dir', namelen), s₁) →
    findEntry current dir name.bytes s ≠ .error .fault
      ∧ ((∃ i < (s₁.inode dir').iSize / 16, Live s₁ dir' (name.bytes.take namelen) i) →
        ∃ i s', Live s₁ dir' (name.bytes.take namelen) i
          ∧ findEntry current dir name.bytes s = .ok ((dir', some (entryPtr s₁ dir' i)), s'))

def Findable (s : Fs Slot) (current : Task) (dir : Slot) (name : FileName) : Prop :=
  let entries := (s.inode dir).iSize / 16
  ∀ dir' namelen s₁, dotdot current dir name.bytes (min name.bytes.length NAME_LEN) s = .ok ((dir', namelen), s₁) →
    (blockData s₁ dir' 0 ≠ none → ∀ block, 1 ≤ block → block < maxBlocks → blockData s₁ dir' block = none →
        DIR_ENTRIES_PER_BLOCK * (block + 1) < entries →
        ∃ i < DIR_ENTRIES_PER_BLOCK * block, Live s₁ dir' (name.bytes.take namelen) i)
      ∧ ((∃ i < (s₁.inode dir').iSize / 16, Live s₁ dir' (name.bytes.take namelen) i) →
        ∃ i < entries, Live s₁ dir' (name.bytes.take namelen) i
          ∧ ∀ block ≤ i / DIR_ENTRIES_PER_BLOCK, blockData s₁ dir' block ≠ none)

theorem findEntry_eq {s s₁ : Fs Slot} {current : Task} {dir dir' : Slot} {name : List UInt8} {namelen : Nat}
    (hname : name ≠ []) (h : dotdot current dir name (min name.length NAME_LEN) s = .ok ((dir', namelen), s₁))
    : findEntry current dir name s
        = (findScan dir' name namelen ((s.inode dir).iSize / 16) >>= fun r => pure (dir', r)) s₁ := by
  have hpos : ¬ min name.length NAME_LEN = 0 := by
    have hlength := List.length_pos_of_ne_nil hname
    unfold NAME_LEN
    omega
  unfold findEntry
  rw [bind_of_eq_ok get_eq]
  dsimp only
  rw [if_neg hpos, bind_of_eq_ok h]

theorem finds_entry_iff (s : Fs Slot) (current : Task) (dir : Slot) (name : FileName)
    : FindsEntry s current dir name ↔ Findable s current dir name := by
  unfold FindsEntry Findable
  apply forall_congr'
  intro dir'
  apply forall_congr'
  intro namelen
  apply forall_congr'
  intro s₁
  apply imp_congr_right
  intro hdotdot
  rw [findEntry_eq name.not_empty hdotdot]
  have hpos : 0 < min name.bytes.length NAME_LEN := by
    have hlength := List.length_pos_of_ne_nil name.not_empty
    unfold NAME_LEN
    omega
  obtain ⟨hlen, hle⟩ := (dotdot_namelen hpos s).ok hdotdot
  have hlive : ∀ i, Live s₁ dir' (name.bytes.take namelen) i ↔ Hit s₁ dir' name.bytes namelen i := by
    intro i
    simp only [Live, Hit, matchName_iff hlen hle]
  simp only [hlive]
  have hscan := findScan_ensures s₁ dir' name.bytes namelen ((s.inode dir).iSize / 16)
  cases hrun : findScan dir' name.bytes namelen ((s.inode dir).iSize / 16) s₁ with
  | error e =>
    rw [bind_of_eq_error hrun]
    obtain ⟨rfl, hnohit, hall⟩ | ⟨rfl, block, hone, hlt, hnone, hmore, hclear, hpresent⟩ := hscan.error hrun
    . constructor
      . rintro ⟨_, hfinds⟩
        refine ⟨fun _ b _ hb hbnone => absurd hbnone (hall b hb), ?_⟩
        rintro ⟨i, _, hhit⟩
        exact absurd hhit (hnohit i)
      . rintro _
        refine ⟨by simp, ?_⟩
        rintro ⟨i, _, hhit⟩
        exact absurd hhit (hnohit i)
    . constructor
      . rintro ⟨hsafe, _⟩
        exact absurd rfl hsafe
      . rintro ⟨hpass, _⟩
        obtain ⟨i, hi, hhit⟩ := hpass (hpresent 0 (by omega)) block hone hlt hnone hmore
        exact absurd hhit (hclear i hi)
  | ok p =>
    rw [bind_of_eq_ok hrun]
    obtain ⟨r, s'⟩ := p
    have hfound := hscan.ok hrun
    cases r with
    | some p =>
      obtain ⟨i, hi, hhit, rfl, hpresent⟩ := hfound
      constructor
      . rintro _
        refine ⟨?_, fun _ => ⟨i, hi, hhit, hpresent⟩⟩
        intro _ b _ _ hbnone _
        refine ⟨i, ?_, hhit⟩
        have hlt : i / DIR_ENTRIES_PER_BLOCK < b := by
          by_contra hle
          exact hpresent b (by omega) hbnone
        unfold DIR_ENTRIES_PER_BLOCK at *
        omega
      . rintro _
        exact ⟨by simp [pure_eq], fun _ => ⟨i, s', hhit, rfl⟩⟩
    | none =>
      constructor
      . rintro ⟨_, hfinds⟩
        refine ⟨?_, ?_⟩
        . intro hfirst b _ hb hbnone hmore
          obtain hmissing | ⟨_, hlast⟩ := hfound
          . exact absurd hmissing hfirst
          . have hle := hlast b hb hbnone
            omega
        . intro hsome
          obtain ⟨_, _, _, hreturns⟩ := hfinds hsome
          simp [pure_eq] at hreturns
      . rintro ⟨_, hreach⟩
        refine ⟨by simp [pure_eq], ?_⟩
        intro hsome
        obtain ⟨i, hi, hhit, hpresent⟩ := hreach hsome
        obtain hmissing | ⟨hclear, _⟩ := hfound
        . exact absurd hmissing (hpresent 0 (Nat.zero_le _))
        . exact absurd hhit (hclear i hi)

end Find

end Minix
end OS
