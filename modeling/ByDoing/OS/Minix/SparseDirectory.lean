import ByDoing.OS.Minix.AddEntry
import ByDoing.OS.Minix.FindEntry

namespace OS
namespace Minix

section Empty

open Machine

def Sparse (s : Fs Slot) (inode : Slot) (block : Nat) : Prop :=
  1 ≤ block ∧ block < maxBlocks ∧ fileZone s inode block = 0
    ∧ DIR_ENTRIES_PER_BLOCK * block < (s.inode inode).iSize / 16
    ∧ (∀ b < block, blockData s inode b ≠ none)
    ∧ (∃ data, blockData s inode 0 = some data ∧ dots inode data s = true)
    ∧ ∀ i, 2 ≤ i → i < DIR_ENTRIES_PER_BLOCK * block → ∃ de, entryAt s inode i = some de ∧ de.inode = 0

def EmptyStop (s : Fs Slot) (inode : Slot) (e : Stop) : Prop :=
  (e = .fault ∧ ∃ block, Sparse s inode block) ∨ (e ≠ .fault ∧ ∀ block, ¬ Sparse s inode block)

theorem emptyLoop_released {t : Fs Slot} {inode : Slot} {len n nr k : Nat} {Q : Bool → Fs Slot → Prop}
    {E : Stop → Prop} (hE : E .fault)
    : Ensures (emptyLoop inode len n nr .released k) t Q E := by
  cases n with
  | zero =>
    apply Ensures.bind
    exact .stop hE
  | succ n =>
    unfold emptyLoop
    apply Ensures.ite
    . intro _
      apply Ensures.bind
      apply Ensures.bind
      exact .stop hE
    . intro _
      apply Ensures.bind
      exact .stop hE

theorem not_sparse_of_lt {s : Fs Slot} {inode : Slot} {block : Nat}
    (hpresent : ∀ b ≤ block, blockData s inode b ≠ none)
    (hlater : ∀ b, block < b → ¬ Sparse s inode b) (b : Nat)
    : ¬ Sparse s inode b := by
  by_cases hle : b ≤ block
  . rintro ⟨_, _, hzone, _⟩
    exact hpresent b hle (blockData_eq_none_of_zone hzone)
  . exact hlater b (by omega)

theorem emptyLoop_ensures {s t : Fs Slot} {inode : Slot} {n block nr k : Nat}
    (hholds : Holds s t inode block) (hat : At block nr k) (hn : (s.inode inode).iSize / 16 ≤ nr + n) (htwo : 2 ≤ nr)
    (hdots : ∃ data, blockData s inode 0 = some data ∧ dots inode data s = true)
    (hfree : ∀ j, 2 ≤ j → j < nr → ∃ de, entryAt s inode j = some de ∧ de.inode = 0)
    (hpresent : ∀ b ≤ block, blockData s inode b ≠ none)
    : Ensures (emptyLoop inode ((s.inode inode).iSize / 16) n nr
          (.held (s.inode inode).iDev (fileZone s inode block)) k) t
        (fun _ _ => ∀ block, ¬ Sparse s inode block) (EmptyStop s inode) := by
  have hend : (s.inode inode).iSize / 16 ≤ nr → ∀ block, ¬ Sparse s inode block := by
    intro hlen
    apply not_sparse_of_lt hpresent
    rintro b hb ⟨_, _, _, hlt, _⟩
    unfold At DIR_ENTRIES_PER_BLOCK at *
    omega
  induction n generalizing t block nr k with
  | zero =>
    apply Ensures.bind
    apply hholds.release_ensures
    intro s' _
    exact .pure (hend (by omega))
  | succ n ih =>
    unfold emptyLoop
    apply Ensures.ite
    . intro hlen
      apply Ensures.bind
      apply emptyNext_ensures hholds hat
      . intro t' hholds'
        dsimp only
        have hpresent' : ∀ b ≤ nr / DIR_ENTRIES_PER_BLOCK, blockData s inode b ≠ none := by
          intro b hb
          by_cases hle : b ≤ block
          . exact hpresent b hle
          . have heq : b = nr / DIR_ENTRIES_PER_BLOCK := by
              have hblock := hat.block_le
              omega
            rw [heq]
            exact hholds'.present
        apply Ensures.bind
        apply hholds'.read_ensures
        intro de hde
        apply Ensures.ite
        . intro hlive
          apply Ensures.bind
          apply hholds'.release_ensures
          intro s' _
          apply Ensures.pure
          apply not_sparse_of_lt hpresent'
          rintro b hb ⟨_, _, _, _, _, _, hall⟩
          have hlt : nr < DIR_ENTRIES_PER_BLOCK * b := by
            unfold DIR_ENTRIES_PER_BLOCK at *
            omega
          obtain ⟨de', hde', hzero⟩ := hall nr htwo hlt
          cases hde.symm.trans hde'
          exact hlive hzero
        intro hdead
        have hfree' : ∀ j, 2 ≤ j → j < nr + 1 → ∃ de, entryAt s inode j = some de ∧ de.inode = 0 := by
          intro j hj hlt
          by_cases hjnr : j = nr
          . exact ⟨de, hjnr ▸ hde, not_not.mp hdead⟩
          . exact hfree j hj (by omega)
        apply ih hholds' (at_next nr) (by omega) (by omega) hfree' hpresent'
        intro hlen'
        apply not_sparse_of_lt hpresent'
        rintro b hb ⟨_, _, _, hlt, _⟩
        unfold DIR_ENTRIES_PER_BLOCK at *
        omega
      . intro hnr hlt hzone t' _
        apply emptyLoop_released
        refine .inl ⟨rfl, block + 1, by omega, hlt, hzone, hnr ▸ hlen, ?_, hdots, hnr ▸ hfree⟩
        intro b hb
        exact hpresent b (by omega)
      . intro _ _ hzone hnone t' _
        apply Ensures.pure
        apply not_sparse_of_lt hpresent
        rintro b hb ⟨_, _, hzero, _, hbefore, _⟩
        obtain rfl | hlater : b = block + 1 ∨ block + 1 < b := by omega
        . exact hzone hzero
        . exact hbefore (block + 1) hlater hnone
      . intro _ hbig
        refine .inr ⟨by simp, not_sparse_of_lt hpresent ?_⟩
        rintro b hb ⟨_, hlt, _⟩
        omega
    . intro hlen
      apply Ensures.bind
      apply hholds.release_ensures
      intro s' _
      exact .pure (hend (by omega))

theorem emptyDir_ensures (s : Fs Slot) (inode : Slot)
    : Ensures (emptyDir inode) s (fun _ _ => ∀ block, ¬ Sparse s inode block) (EmptyStop s inode) := by
  unfold emptyDir
  apply Ensures.bind
  apply Ensures.get
  dsimp only
  rw [← fileZone_zero]
  apply Ensures.ite
  . intro hbad
    apply Ensures.pure
    rintro b ⟨hone, _, _, hlt, hpresent, _⟩
    obtain hlen | hzone := hbad
    . unfold DIR_ENTRIES_PER_BLOCK at hlt
      omega
    . exact hpresent 0 hone (blockData_eq_none_of_zone hzone)
  intro hgood
  rw [not_or] at hgood
  apply Ensures.bind
  apply bread_block_ensures (.refl s) zero_lt_maxBlocks hgood.right
  . intro t hholds
    rw [if_pos rfl]
    apply Ensures.bind
    apply hholds.bData_ensures
    intro data hdata
    apply Ensures.bind
    apply Ensures.get
    have hsame : dots inode data t = dots inode data s := by
      unfold dots
      rw [hholds.inode]
    rw [hsame]
    apply Ensures.ite
    . intro hdots
      have hat : At 0 2 2 := .inl ⟨by decide, rfl⟩
      apply emptyLoop_ensures hholds hat (by omega) (Nat.le_refl 2) ⟨data, hdata, hdots⟩
      . intro j hj hlt
        omega
      . intro b hb
        rw [Nat.le_zero.mp hb]
        exact hholds.present
    . intro hdots
      apply Ensures.pure
      rintro b ⟨_, _, _, _, _, ⟨data', hdata', hdots'⟩, _⟩
      cases hdata.symm.trans hdata'
      exact hdots hdots'
  . intro t _ hnone
    apply Ensures.pure
    rintro b ⟨hone, _, _, _, hpresent, _⟩
    exact hpresent 0 hone hnone

theorem emptyDir_iff (s : Fs Slot) (inode : Slot)
    : emptyDir inode s ≠ .error .fault ↔ ∀ block, ¬ Sparse s inode block := by
  have hempty := emptyDir_ensures s inode
  cases hrun : emptyDir inode s with
  | ok p => simp [hempty.ok hrun]
  | error e =>
    obtain ⟨rfl, block, hsparse⟩ | ⟨hne, hnot⟩ := hempty.error hrun
    . simp only [ne_eq, not_true_eq_false, false_iff, not_forall, not_not]
      exact ⟨block, hsparse⟩
    . simp [hne, hnot]

end Empty

section Scans

inductive DirCall where
  | findEntry (current : Task) (dir : Slot) (name : FileName)
  | addEntry (dir : Slot) (name : FileName)
  | emptyDir (inode : Slot)

/--
The call follows no null pointer and none to a buffer that it has released, and `find_entry` finds what a block that
can be read has.
-/
def ScansSafely (s : Fs Slot) (call : DirCall) : Prop :=
  match call with
  | .findEntry current dir name => FindsEntry s current dir name
  | .addEntry dir name => addEntry dir name.bytes s ≠ .error .fault
  | .emptyDir inode => emptyDir inode s ≠ .error .fault

/--
The blocks of the directory that the call comes to are not missing, for `empty_dir`, can be read if they are not
missing, for `add_entry`, and for `find_entry` are neither, but for the exceptions of `Findable`.
-/
def ScanAllowed (s : Fs Slot) (call : DirCall) : Prop :=
  match call with
  | .findEntry current dir name => Findable s current dir name
  | .addEntry dir _ => ∀ block, ¬ Blocked s dir block
  | .emptyDir inode => ∀ block, ¬ Sparse s inode block

theorem scansSafely_iff (s : Fs Slot) (call : DirCall) : ScansSafely s call ↔ ScanAllowed s call := by
  cases call with
  | findEntry current dir name => exact finds_entry_iff s current dir name
  | addEntry dir name => exact addEntry_iff s dir name.not_empty
  | emptyDir inode => exact emptyDir_iff s inode

def gapFs : Fs Slot where
  superBlock := fun _ => none
  cache := fun _ _ => none
  disk := fun _ _ => some fun _ => 0
  inode := fun i =>
    if i = 0 then
      { MInode.zero with
        iMode := 0o040755
        iNlinks := 2
        iSize := 3072
        iZone := fun k => if k = 0 then 5 else 0
        iDev := 1
        iNum := 2
        iCount := 1 }
    else
      MInode.zero
  CURRENT_TIME := 0
  cleared := []

def gapTask : Task where
  root := none
  pwd := none
  euid := 0
  egid := 0
  umask := 0

theorem not_scansSafely_gapFs : ¬ ScansSafely gapFs (.findEntry gapTask 0 ⟨[97], by simp, by simp⟩) := by
  intro h
  have hrun : (match findEntry gapTask 0 [97] gapFs with
      | .error .fault => true
      | _ => false) = true := by
    decide +kernel
  have hsafe := (h 0 1 gapFs rfl).left
  split at hrun
  . next heq => exact hsafe heq
  . cases hrun

end Scans

end Minix
end OS
