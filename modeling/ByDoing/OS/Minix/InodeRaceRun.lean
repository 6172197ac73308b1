import ByDoing.OS.Minix.InodeRace

namespace OS
namespace Minix
namespace InodeRace

variable {Place : Type}

def CoreInode.holds (inode : CoreInode) : Option Key :=
  if inode.iDev = 0 then none else some inode.key

theorem CoreInode.holds_eq_some {inode : CoreInode} {key : Key} (h : inode.holds = some key) : inode.key = key := by
  unfold holds at h
  split at h
  . cases h
  . exact Option.some.inj h

theorem CoreInode.holds_of_dev {inode : CoreInode} (h : inode.iDev ≠ 0) : inode.holds = some inode.key :=
  if_neg h

namespace State

variable {d : Disks Place} {s s' s₁ : State Place} {t : Nat} {i : Slot} {key : Key} {caller : Caller Place}
  {empty : Slot} {goal : Goal Place} {allowed : Bool}

structure Sound (s : State Place) : Prop where
  once : ∀ i j key, (s.inodeTable i).holds = some key → (s.inodeTable j).holds = some key → i = j
  marked : ∀ i key, (s.inodeTable i).holds = some key → s.imap key = true

theorem Sound.kept (h : s.Sound) : s.Kept := by
  refine ⟨?_, ?_⟩
  . intro i j _ _ hdev hkey
    have hi := CoreInode.holds_of_dev hdev
    have hdev' : (s.inodeTable j).iDev ≠ 0 := by
      have hsame : (s.inodeTable i).iDev = (s.inodeTable j).iDev := congrArg Prod.fst hkey
      exact hsame ▸ hdev
    exact h.once i j _ hi (hkey ▸ CoreInode.holds_of_dev hdev')
  . intro i _ hdev
    exact h.marked i _ (CoreInode.holds_of_dev hdev)

-- On the way from `s` to `s'` some slots may have become empty, and that is all.
structure Shrinks (s s' : State Place) : Prop where
  imap : s'.imap = s.imap
  holds : ∀ i, (s'.inodeTable i).holds = (s.inodeTable i).holds ∨ (s'.inodeTable i).holds = none

namespace Shrinks

theorem refl (s : State Place) : s.Shrinks s :=
  ⟨rfl, fun _ => .inl rfl⟩

theorem trans (h : s.Shrinks s₁) (h' : s₁.Shrinks s') : s.Shrinks s' := by
  refine ⟨h'.imap.trans h.imap, ?_⟩
  intro i
  rcases h'.holds i with hsame | hnone
  . rw [hsame]
    exact h.holds i
  . exact .inr hnone

theorem setPc (h : s.Shrinks s') (t : Nat) (pc : Pc Place) : s.Shrinks (s'.setPc t pc) :=
  ⟨h.imap, h.holds⟩

theorem setEntry (h : s.Shrinks s') (entry : Place → Nat) : s.Shrinks { s' with entry } :=
  ⟨h.imap, h.holds⟩

theorem setInode {inode : CoreInode} (h : s.Shrinks s')
    (hholds : inode.holds = (s'.inodeTable i).holds ∨ inode.holds = none)
    : s.Shrinks (s'.setInode i inode) := by
  apply h.trans
  refine ⟨rfl, ?_⟩
  intro j
  show (Function.update s'.inodeTable i inode j).holds = _ ∨ (Function.update s'.inodeTable i inode j).holds = _
  by_cases hj : j = i
  . rw [hj, Function.update_self]
    exact hholds
  . rw [Function.update_of_ne hj]
    exact .inl rfl

theorem sound (h : s.Shrinks s') (hs : s.Sound) : s'.Sound := by
  have hbefore : ∀ i key, (s'.inodeTable i).holds = some key → (s.inodeTable i).holds = some key := by
    intro i key hkey
    rcases h.holds i with hsame | hnone
    . exact hsame ▸ hkey
    . rw [hnone] at hkey
      cases hkey
  refine ⟨?_, ?_⟩
  . intro i j key hi hj
    exact hs.once i j key (hbefore i key hi) (hbefore j key hj)
  . intro i key hi
    rw [h.imap]
    exact hs.marked i key (hbefore i key hi)

end Shrinks

-- `t` does not read an inode.
def Elsewhere (s : State Place) (t : Nat) : Prop :=
  ∀ caller i, s.pc t ≠ .reading caller i

theorem elsewhere_setPc {pc : Pc Place} (s : State Place) (t : Nat) (h : ∀ caller i, pc ≠ .reading caller i)
    : (s.setPc t pc).Elsewhere t := by
  intro caller i
  show Function.update s.pc t pc t ≠ _
  rw [Function.update_self]
  exact h caller i

-- `iget` fills an empty slot with a number that it has not found.
def claim (s : State Place) (t : Nat) (key : Key) (caller : Caller Place) (i : Slot) : State Place :=
  (s.setInode i { s.inodeTable i with iDev := key.fst, iNum := key.snd, iLock := true }).setPc t
    (.reading caller i)

-- What a step of the task `t` does to the slots.
inductive Moves (s : State Place) (t : Nat) : State Place → Prop where
  | shrinks {s' : State Place} (h : s.Shrinks s') (helsewhere : s'.Elsewhere t) : Moves s t s'
  | claims {s₁ : State Place} {key : Key} {caller : Caller Place} {i : Slot} (h : s.Shrinks s₁)
    (hnew : ∀ j, (s₁.inodeTable j).key ≠ key)
    : Moves s t (s₁.claim t key caller i)
  | creates {s₁ : State Place} {inode : CoreInode} {i : Slot} (h : s.Shrinks s₁) (hfree : s₁.imap inode.key = false)
    : Moves s t ({ s₁.setInode i inode with imap := Function.update s₁.imap inode.key true }.setPc t (.adding i))
  | frees {i : Slot} (hdev : (s.inodeTable i).iDev ≠ 0)
    : Moves s t ({ s.setInode i .zero with
      imap := Function.update s.imap (s.inodeTable i).key false }.setPc t .idle)

theorem moves_setPc {pc : Pc Place} (hs : s.Shrinks s₁) (hpc : ∀ caller i, pc ≠ .reading caller i)
    : Moves s t (s₁.setPc t pc) :=
  .shrinks (hs.setPc t pc) (elsewhere_setPc s₁ t hpc)

theorem moves_setInode {pc : Pc Place} {inode : CoreInode} (hs : s.Shrinks s₁)
    (hpc : ∀ caller i, pc ≠ .reading caller i) (hholds : inode.holds = (s₁.inodeTable i).holds)
    : Moves s t ((s₁.setInode i inode).setPc t pc) :=
  moves_setPc (hs.setInode (.inl hholds)) hpc

theorem release_moves (hs : s.Shrinks s₁) (h : s₁.release t i = some s') : Moves s t s' := by
  unfold release at h
  dsimp only at h
  split at h
  . rw [← Option.some.inj h]
    exact moves_setInode hs nofun (by rfl)
  split at h
  . rw [← Option.some.inj h]
    exact moves_setPc hs nofun
  split at h
  . rw [← Option.some.inj h]
    exact moves_setInode hs nofun (by rfl)
  . rw [← Option.some.inj h]
    exact moves_setInode hs nofun (by rfl)

theorem iput_moves (hs : s.Shrinks s₁) (h : s₁.iput t i = some s') : Moves s t s' := by
  unfold iput at h
  dsimp only at h
  split at h
  . rw [← Option.some.inj h]
    exact moves_setPc hs nofun
  split at h
  . cases h
  split at h
  . rw [← Option.some.inj h]
    exact moves_setInode hs nofun (by rfl)
  . exact release_moves hs h

theorem writeInode_shrinks (hs : s.Shrinks s₁) (i : Slot) : s.Shrinks (s₁.writeInode i) := by
  have hset : s.Shrinks (s₁.setInode i { s₁.inodeTable i with iDirt := false, iLock := false }) :=
    hs.setInode (.inl rfl)
  exact ⟨hset.imap, hset.holds⟩

theorem returned_moves [DecidableEq Place] (hs : s.Shrinks s₁) (h : s₁.returned t caller i allowed = some s') : Moves s t s' := by
  unfold returned at h
  split at h
  . exact iput_moves hs h
  . rw [← Option.some.inj h]
    exact moves_setPc hs nofun
  . next e =>
    refine iput_moves ?_ h
    exact (hs.setInode (.inl (by rfl))).setEntry _

theorem found_moves [DecidableEq Place] (hs : s.Shrinks s₁) (h : s₁.found t caller empty i allowed = some s') : Moves s t s' := by
  unfold found at h
  dsimp only at h
  refine returned_moves ?_ h
  exact (hs.setInode (.inl (by rfl))).setInode (.inl (by rfl))

theorem search_moves [DecidableEq Place] (hs : s.Shrinks s₁) (h : s₁.search t key caller empty allowed = some s') : Moves s t s' := by
  unfold search at h
  split at h
  . next j _ =>
    split at h
    . rw [← Option.some.inj h]
      exact moves_setPc hs nofun
    . exact found_moves hs h
  . next hnone =>
    rw [← Option.some.inj h]
    apply Moves.claims hs
    intro j
    have hj := List.find?_eq_none.mp hnone j (List.mem_finRange j)
    simpa using hj

theorem newInode_moves (hs : s.Shrinks s₁) (d : Disks Place) (dev : Nat) (i : Slot)
    : Moves s t (s₁.newInode d t dev i) := by
  unfold newInode
  cases hnr : s₁.firstZero d dev with
  | none => exact moves_setInode hs nofun (by rfl)
  | some nr =>
    apply Moves.creates hs
    have hzero := List.find?_some hnr
    simpa [CoreInode.key] using hzero

theorem emptied_moves [DecidableEq Place] (hs : s.Shrinks s₁) (h : s₁.emptied d t goal i allowed = some s') : Moves s t s' := by
  unfold emptied at h
  have hzero : s.Shrinks (s₁.setInode i { CoreInode.zero with iCount := 1 }) := hs.setInode (.inr rfl)
  dsimp only at h
  split at h
  . exact search_moves hzero h
  . rw [← Option.some.inj h]
    exact newInode_moves hzero d _ i

theorem clean_moves [DecidableEq Place] (hs : s.Shrinks s₁) (h : s₁.clean d t goal i allowed = some s') : Moves s t s' := by
  unfold clean at h
  dsimp only at h
  split at h
  . rw [← Option.some.inj h]
    exact moves_setPc hs nofun
  split at h
  . rw [← Option.some.inj h]
    exact moves_setInode hs nofun (by rfl)
  split at h
  . rw [← Option.some.inj h]
    exact moves_setPc hs nofun
  . exact emptied_moves hs h

theorem freeInode_moves (h : s.freeInode d t i = some s') : Moves s t s' := by
  unfold freeInode at h
  dsimp only at h
  split at h
  . rw [← Option.some.inj h]
    exact moves_setPc ((Shrinks.refl s).setInode (.inr (by rfl))) nofun
  . next hdev =>
    split at h
    . cases h
    . rw [← Option.some.inj h]
      exact .frees hdev

theorem step_moves [DecidableEq Place] {ev : Event Place} (h : s.step d (t, ev) = some s') : Moves s t s' := by
  have hs := Shrinks.refl s
  unfold step at h
  dsimp only at h
  split at h
  . split at h
    . cases h
    . rw [← Option.some.inj h]
      exact moves_setPc hs nofun
  . split at h
    . cases h
    . rw [← Option.some.inj h]
      exact moves_setPc hs nofun
  . split at h
    . cases h
    . rw [← Option.some.inj h]
      exact moves_setPc hs nofun
  . split at h
    . exact clean_moves hs h
    . cases h
  . exact clean_moves hs h
  . exact clean_moves (writeInode_shrinks hs _) h
  . split at h
    . cases h
    split at h
    . exact found_moves hs h
    . exact search_moves hs h
  . refine returned_moves ?_ h
    exact hs.setInode (.inl (by rfl))
  . split at h
    . rw [← Option.some.inj h]
      exact moves_setPc (hs.setEntry _) nofun
    . cases h
  . refine iput_moves ?_ h
    exact hs.setInode (.inl (by rfl))
  . exact iput_moves hs h
  . exact iput_moves hs h
  . exact freeInode_moves h
  . exact release_moves (writeInode_shrinks hs _) h
  . cases h

theorem Sound.setInode {inode : CoreInode} {imap : Key → Bool} (h : s.Sound)
    (hnew : ∀ j, j ≠ i → (s.inodeTable j).holds ≠ some inode.key) (hmarked : imap inode.key = true)
    (himap : ∀ key, s.imap key = true → imap key = true)
    : Sound { s.setInode i inode with imap } := by
  have hself : ({ s.setInode i inode with imap } : State Place).inodeTable i = inode := Function.update_self ..
  have hother : ∀ j, j ≠ i → ({ s.setInode i inode with imap } : State Place).inodeTable j = s.inodeTable j :=
    fun j hj => Function.update_of_ne hj ..
  -- A slot with the new inode is the slot `i`.
  have hsole : ∀ j key, inode.holds = some key →
      (({ s.setInode i inode with imap } : State Place).inodeTable j).holds = some key → j = i := by
    intro j key hkey hj
    by_contra hne
    rw [hother j hne, ← CoreInode.holds_eq_some hkey] at hj
    exact hnew j hne hj
  refine ⟨?_, ?_⟩
  . intro j j' key hj hj'
    by_cases hji : j = i
    . rw [hji, hself] at hj
      rw [hji, hsole j' key hj hj']
    . by_cases hji' : j' = i
      . rw [hji', hself] at hj'
        exact absurd (hsole j key hj' hj) hji
      . rw [hother j hji] at hj
        rw [hother j' hji'] at hj'
        exact h.once j j' key hj hj'
  . intro j key hj
    by_cases hji : j = i
    . rw [hji, hself] at hj
      rw [← CoreInode.holds_eq_some hj]
      exact hmarked
    . rw [hother j hji] at hj
      exact himap key (h.marked j key hj)

theorem Sound.setPc (h : s.Sound) (t : Nat) (pc : Pc Place) : (s.setPc t pc).Sound :=
  ⟨h.once, h.marked⟩

theorem moves_sound (hs : s.Sound) (h : Moves s t s')
    (hcurrent : ∀ caller i, s'.pc t = .reading caller i → s.imap (s'.inodeTable i).key = true)
    : s'.Sound := by
  cases h with
  | shrinks hshrinks _ => exact hshrinks.sound hs
  | @claims s₁ key caller i hshrinks hnew =>
    have hinode : (s₁.claim t key caller i).inodeTable i
        = { s₁.inodeTable i with iDev := key.fst, iNum := key.snd, iLock := true } := Function.update_self ..
    have hmarked := hcurrent caller i (Function.update_self ..)
    rw [hinode] at hmarked
    apply Sound.setPc
    apply (hshrinks.sound hs).setInode
    . intro j _ hj
      exact hnew j (CoreInode.holds_eq_some hj)
    . exact hshrinks.imap ▸ hmarked
    . exact fun _ h => h
  | @creates s₁ inode i hshrinks hfree =>
    apply Sound.setPc
    apply (hshrinks.sound hs).setInode
    . intro j _ hj
      rw [(hshrinks.sound hs).marked j _ hj] at hfree
      cases hfree
    . exact Function.update_self ..
    . intro key hkey
      by_cases heq : key = inode.key
      . rw [heq]
        exact Function.update_self ..
      . rw [Function.update_of_ne heq]
        exact hkey
  | @frees i hdev =>
    apply Sound.setPc
    have hheld := CoreInode.holds_of_dev hdev
    have hother : ∀ j key, (Function.update s.inodeTable i .zero j).holds = some key →
        j ≠ i ∧ (s.inodeTable j).holds = some key := by
      intro j key hj
      by_cases hji : j = i
      . rw [hji, Function.update_self] at hj
        cases hj
      . rw [Function.update_of_ne hji] at hj
        exact ⟨hji, hj⟩
    refine ⟨?_, ?_⟩
    . intro j j' key hj hj'
      exact hs.once j j' key (hother j key hj).right (hother j' key hj').right
    . intro j key hj
      obtain ⟨hji, hheld'⟩ := hother j key hj
      show Function.update s.imap (s.inodeTable i).key false key = true
      rw [Function.update_of_ne]
      . exact hs.marked j key hheld'
      . intro heq
        rw [heq] at hheld'
        exact hji (hs.once j i _ hheld' hheld)

theorem step_sound [DecidableEq Place] {a : Nat × Event Place} (hs : s.Sound) (hcurrent : s.Current d a) (h : s.step d a = some s')
    : s'.Sound := by
  obtain ⟨t, ev⟩ := a
  apply moves_sound hs (step_moves h)
  intro caller i hpc
  unfold Current reads at hcurrent
  rw [h] at hcurrent
  dsimp only at hcurrent
  rw [hpc] at hcurrent
  exact hcurrent

theorem init_sound (imap : Key → Bool) (disk : Key → Nat) (entry : Place → Nat) : (init imap disk entry).Sound :=
  ⟨nofun, nofun⟩

/--
In a run in which `iget` reads only inodes that are still in use, no inode is ever in core twice, and every one that is
held is marked as used.
-/
theorem kept_of_reaches [DecidableEq Place] {imap : Key → Bool} {disk : Key → Nat} {entry : Place → Nat}
    (h : Run.Reaches (step d) (Current d) (init imap disk entry) s)
    : s.Kept := by
  apply Sound.kept
  apply h.invariant Sound (init_sound imap disk entry)
  intro s s' a hs hcurrent hstep
  exact step_sound hs hcurrent hstep

def oneDisk : Disks Nat :=
  { iDev := fun _ => 1, sNinodes := fun _ => 3 }

def oneFile : State Nat :=
  init (fun key => decide (key.snd ≤ 2)) (fun _ => 1) fun e => if e = 0 then 2 else 0

def unlinkRun : List (Nat × Event Nat) :=
  [(0, .openNamei 0), (0, .pick 0 true), (0, .go true), (1, .sysUnlink 0), (1, .pick 5 true), (2, .create 1),
    (2, .pick 6 true), (0, .close), (0, .go true), (1, .create 1), (1, .pick 7 true), (1, .add 0)]

theorem kept_unlinkRun
    : ∃ s, Run.exec (step oneDisk) oneFile unlinkRun = some s ∧ (s.inodeTable 6).key = (1, 3)
        ∧ (s.inodeTable 7).key = (1, 2) ∧ s.Kept := by
  have hkeys : (Run.exec (step oneDisk) oneFile unlinkRun).map (fun s => ((s.inodeTable 6).key, (s.inodeTable 7).key))
      = some ((1, 3), (1, 2)) := by
    decide +kernel
  obtain ⟨s, hexec, hkeys⟩ := Option.map_eq_some_iff.mp hkeys
  obtain ⟨hsix, hseven⟩ := Prod.mk.inj hkeys
  have hcurrent : Run.AllOk (step oneDisk) (Current oneDisk) oneFile unlinkRun := by
    decide +kernel
  exact ⟨s, hexec, hsix, hseven, kept_of_reaches (Run.Reaches.of_exec hcurrent hexec)⟩

def raceRun : List (Nat × Event Nat) :=
  [(0, .openNamei 0), (1, .sysUnlink 0), (1, .pick 5 true), (1, .go true), (1, .go true), (0, .pick 7 true),
    (1, .create 1), (1, .pick 6 true)]

theorem not_kept_raceRun : ∃ s, Run.exec (step oneDisk) oneFile raceRun = some s ∧ ¬s.Kept := by
  have htable : (Run.exec (step oneDisk) oneFile raceRun).map (fun s => (s.inodeTable 6, s.inodeTable 7))
      = some (⟨1, 2, 1, 1, true, false⟩, ⟨1, 2, 1, 0, false, true⟩) := by
    decide +kernel
  obtain ⟨s, hexec, htable⟩ := Option.map_eq_some_iff.mp htable
  obtain ⟨hsix, hseven⟩ := Prod.mk.inj htable
  refine ⟨s, hexec, ?_⟩
  intro hkept
  have heq : (6 : Slot) = 7 := by
    apply hkept.once 6 7
    . rw [hsix]
      decide
    . rw [hseven]
      decide
    . rw [hsix]
      decide
    . rw [hsix, hseven]
      rfl
  exact absurd heq (by decide)

end State
end InodeRace
end Minix
end OS
