import ByDoing.OS.Execve

namespace OS
namespace Exec

open Ledger Machine

variable {files : Files} {args : Args} {k : Kernel} {retval : Int}

theorem iput_holding (k : Kernel) (i : Nat) : iput i (k.holding i) = .ok ((), k) := by
  have hcount : (k.holding i).iCount i = k.iCount i + 1 := Function.update_self ..
  have hback : Function.update (k.holding i).iCount i ((k.holding i).iCount i - 1) = k.iCount := by
    rw [hcount, Nat.add_sub_cancel]
    unfold Kernel.holding
    dsimp only
    rw [Function.update_idem, Function.update_eq_self]
  unfold iput
  rw [bind_of_eq_ok get_eq, hcount, if_neg (Nat.succ_ne_zero _), modify_eq, hback]
  rfl

theorem brelse_reading (k : Kernel) (b : BitVec 16 × BitVec 16) : brelse b (k.reading b) = .ok ((), k) := by
  have hcount : (k.reading b).bCount b = k.bCount b + 1 := Function.update_self ..
  have hback : Function.update (k.reading b).bCount b ((k.reading b).bCount b - 1) = k.bCount := by
    rw [hcount, Nat.add_sub_cancel]
    unfold Kernel.reading
    dsimp only
    rw [Function.update_idem, Function.update_eq_self]
  unfold brelse
  rw [bind_of_eq_ok get_eq, hcount, if_neg (Nat.succ_ne_zero _), modify_eq, hback]
  rfl

-- The pages in `page[]` have been given back, and nothing else is changed.
def Kernel.failed (k : Kernel) (pages : Pages) : Kernel :=
  { k with pages := pages.release }

theorem execError2_holding (k : Kernel) (i : Nat) (retval : Int)
    : execError2 i retval (k.holding i) = .ok (retval, k.failed k.pages) := by
  unfold execError2
  rw [bind_of_eq_ok (iput_holding k i)]
  rfl

def Fails (k : Kernel) (pages : Pages) (retval : Int) (k' : Kernel) : Prop :=
  retval ≠ 0 → k' = k.failed pages

-- It panics for the executable that the process has had, and has no reference to.
def Stops (k : Kernel) (e : Panic) : Prop :=
  e = .inode ∧ ∃ old, k.task.executable = some old ∧ k.iCount old = 0

theorem start_returns (i : Nat) (ex : Header) (argc : Int) (p : Address) (pages : Pages)
    : Ensures (start files args i ex argc p) (k.holding i) (Fails k pages) (Stops k) := by
  have hrest : ∀ k', Ensures (do
      modify fun k : Kernel =>
        { k with task := k.task.started (files.inode i) i ex argc args.envp.length p k.pages.page }
      return 0) k' (Fails k pages) (Stops k) := by
    intro k'
    apply Ensures.bind
    apply Ensures.modify
    apply Ensures.pure
    exact fun h => absurd rfl h
  unfold start iputExecutable
  apply Ensures.bind
  apply Ensures.bind
  apply Ensures.get
  split
  . apply Ensures.pure
    apply hrest
  . next old hold =>
    unfold iput
    apply Ensures.bind
    apply Ensures.get
    apply Ensures.ite
    . intro hzero
      apply Ensures.stop
      refine ⟨rfl, old, hold, ?_⟩
      by_cases heq : old = i
      . subst heq
        have hcount : (k.holding old).iCount old = k.iCount old + 1 := Function.update_self ..
        omega
      . have hcount : (k.holding i).iCount old = k.iCount old := Function.update_of_ne heq ..
        exact hcount.symm.trans hzero
    . intro _
      apply Ensures.modify
      apply hrest

theorem copyLists_returns {strss : List (List CString)} {p : Address} {Q : Address → Kernel → Prop}
    {E : Panic → Prop} (k : Kernel)
    (h : Q (Ledger.copyCalls strss k.pages p).snd { k with pages := (Ledger.copyCalls strss k.pages p).fst })
    : Ensures (copyLists strss p) k Q E := by
  unfold copyLists
  apply Ensures.bind
  apply Ensures.get
  apply Ensures.bind
  apply Ensures.modify
  apply Ensures.pure
  exact h

theorem execError2_fails {pages : Pages} {E : Panic → Prop} (i : Nat) (retval : Int) (h : k.pages = pages)
    : Ensures (execError2 i retval) (k.holding i) (Fails k pages) E := by
  apply Ensures.of_eq_ok (execError2_holding k i retval)
  intro _
  rw [h]

theorem program_of_interpreter (i : Nat) (argc : Int) (p : Address) (data : Nat → Byte)
    : Ensures (program files args true i argc p data) ((k.holding i).reading (files.first i)) (Fails k k.pages)
        (Stops k) := by
  unfold program
  apply Ensures.bind
  apply Ensures.of_eq_ok (brelse_reading _ _)
  apply Ensures.ite
  . intro _
    exact execError2_fails i _ rfl
  . intro _
    rw [if_pos rfl]
    apply start_returns

theorem program_of_file (i : Nat) (argc : Int) (p : Address) (data : Nat → Byte)
    : Ensures (program files args false i argc p data) ((k.holding i).reading (files.first i))
        (Fails k (if (files.inode i).unfit (.of data) then k.pages else (Ledger.copyCalls args.calls k.pages p).fst))
        (Stops k) := by
  unfold program
  apply Ensures.bind
  apply Ensures.of_eq_ok (brelse_reading _ _)
  split
  . exact execError2_fails i _ rfl
  . rw [if_neg Bool.false_ne_true]
    apply Ensures.bind
    apply copyLists_returns
    apply Ensures.ite
    . intro _
      exact @execError2_fails { k with pages := (Ledger.copyCalls args.calls k.pages p).fst } _ _ i _ rfl
    . intro _
      exact @start_returns files args { k with pages := (Ledger.copyCalls args.calls k.pages p).fst } ..

theorem restartInterp_returns {i : Nat} {go : (Nat → Byte) → Execve Int} {Q : Int → Kernel → Prop} {E : Panic → Prop}
    (hfail : ∀ retval, (((files.inode i).S_ISREG && (files.inode i).executable k.task) = true →
      files.block (files.first i) = none) → Q retval (k.failed k.pages))
    (hgo : ∀ data, ((files.inode i).S_ISREG && (files.inode i).executable k.task) = true →
      files.block (files.first i) = some data → Ensures (go data) ((k.holding i).reading (files.first i)) Q E)
    : Ensures (restartInterp files i go) (k.holding i) Q E := by
  unfold restartInterp
  apply Ensures.bind
  apply Ensures.get
  have htask : (k.holding i).task = k.task := rfl
  dsimp only
  rw [htask]
  apply Ensures.ite
  . intro hreg
    apply Ensures.of_eq_ok (execError2_holding k i _)
    apply hfail
    intro hboth
    rw [Bool.and_eq_true] at hboth
    rw [hboth.left] at hreg
    cases hreg
  . intro hreg
    apply Ensures.ite
    . intro hexecutable
      apply Ensures.of_eq_ok (execError2_holding k i _)
      apply hfail
      intro hboth
      rw [Bool.and_eq_true] at hboth
      rw [hboth.right] at hexecutable
      cases hexecutable
    . intro hexecutable
      rw [Bool.not_eq_true, Bool.not_eq_false'] at hreg hexecutable
      apply Ensures.bind
      unfold bread
      cases hblock : files.block (files.first i) with
      | none =>
        apply Ensures.pure
        apply Ensures.of_eq_ok (execError2_holding k i _)
        exact hfail _ fun _ => hblock
      | some data =>
        apply Ensures.bind
        apply Ensures.modify
        apply Ensures.pure
        apply hgo data _ hblock
        rw [hreg, hexecutable]
        rfl

theorem namei_returns {pathname : CString} {Q : Option Nat → Kernel → Prop} {E : Panic → Prop}
    (hnone : files.namei pathname = none → Q none k)
    (hsome : ∀ i, files.namei pathname = some i → Q (some i) (k.holding i))
    : Ensures (namei files pathname) k Q E := by
  unfold namei
  split
  . next h =>
    apply Ensures.pure
    exact hnone h
  . next i h =>
    apply Ensures.bind
    apply Ensures.modify
    apply Ensures.pure
    exact hsome i h

theorem script_returns (i : Nat) (p : Address) (data : Nat → Byte)
    : Ensures (script files args i p data) ((k.holding i).reading (files.first i))
        (Fails k (match interpreter data with
          | none => k.pages
          | some line => (Ledger.copyCalls (args.scriptCalls line) k.pages p).fst))
        (Stops k) := by
  unfold script
  apply Ensures.bind
  apply Ensures.of_eq_ok (brelse_reading _ _)
  apply Ensures.bind
  apply Ensures.of_eq_ok (iput_holding k i)
  cases interpreter data with
  | none => exact Ensures.of_eq_ok rfl fun _ => rfl
  | some line =>
    apply Ensures.bind
    apply copyLists_returns
    dsimp only
    apply Ensures.ite
    . intro _
      exact Ensures.of_eq_ok rfl fun _ => rfl
    . intro _
      apply Ensures.bind
      apply namei_returns
      . intro _
        exact Ensures.of_eq_ok rfl fun _ => rfl
      . intro i' _
        apply restartInterp_returns
        . intro _ _ _
          rfl
        . intro data' _ _
          exact @program_of_interpreter files args { k with pages := (Ledger.copyCalls (args.scriptCalls line) k.pages p).fst } ..

theorem release_clear (pages : Pages) : pages.clear.release = pages.clear := by
  have htaken : Ledger.taken pages.clear.page = 0 := by
    unfold Ledger.taken
    rw [List.countP_eq_zero]
    intro i hi
    have hlt := List.mem_range.mp hi
    unfold Pages.clear
    dsimp only
    rw [if_pos hlt]
    exact Bool.false_ne_true
  unfold Pages.release
  rw [htaken]
  rfl

theorem doExecve_returns (cs : BitVec 16)
    : Ensures (doExecve files args cs) k
        (Fails k (Ledger.copyCalls (handed files args k.task) k.pages.clear (BitVec.ofNat 32 ROOM)).fst)
        (fun e => e = .supervisor ∨ Stops k e) := by
  unfold doExecve
  apply Ensures.ite
  . intro _
    apply Ensures.stop
    exact .inl rfl
  . intro _
    apply Ensures.bind
    apply Ensures.modify
    apply Ensures.bind
    unfold handed
    apply namei_returns
    . intro hnone
      rw [hnone]
      apply Ensures.pure
      intro _
      unfold Kernel.failed
      dsimp only
      rw [Ledger.copyCalls, release_clear]
    . intro i hsome
      rw [hsome]
      dsimp only
      apply restartInterp_returns
      . intro retval hnone _
        unfold Kernel.failed
        dsimp only
        split
        . next hboth =>
          rw [hnone hboth]
          rfl
        . rfl
      . intro data hboth hblock
        rw [if_pos hboth, hblock]
        dsimp only
        generalize BitVec.ofNat 32 ROOM = p
        split
        . refine Ensures.mono (script_returns i _ data) ?_ fun e => .inr
          intro retval k' h hretval
          rw [h hretval]
          unfold Kernel.failed
          cases interpreter data with
          | none => rfl
          | some line => rfl
        . refine Ensures.mono (program_of_file i _ _ data) ?_ fun e => .inr
          intro retval k' h hretval
          rw [h hretval]
          unfold Kernel.failed
          cases (files.inode i).unfit (.of data) with
          | false => rfl
          | true => rfl

theorem copied_start (pages : Pages)
    : Ledger.Copied pages.free (pages.page BEHIND) { pages.clear with p := BitVec.ofNat 32 ROOM, offset := 0 } 0 := by
  refine ⟨?_, ?_, rfl, ⟨?_, rfl⟩, .inl rfl⟩
  . show (BitVec.ofNat 32 ROOM).toNat + 0 = ROOM
    decide
  . intro i _ hpos
    exact absurd hpos (Nat.lt_irrefl 0)
  . show pages.clear.release.free = pages.free
    rw [release_clear]
    rfl

theorem restored_failed (pages : Pages)
    : Restored k (k.failed pages) ↔ pages.release.free = k.pages.free ∧ pages.release.stray = false :=
  ⟨fun h => h.pages, fun h => ⟨rfl, rfl, rfl, h⟩⟩

theorem restored_failed_iff (strss : List (List CString))
    : Restored k (k.failed (Ledger.copyCalls strss k.pages.clear (BitVec.ofNat 32 ROOM)).fst)
        ↔
      Roomy k.pages.free (k.pages.page BEHIND) strss 0 := by
  rw [restored_failed]
  rcases @copyCalls_collected _ _ _ _ _ strss (copied_start k.pages) with ⟨hbalanced, hroomy⟩ | ⟨hspoiled, hroomy⟩
  . exact iff_of_true hbalanced.release hroomy
  . exact iff_of_false hspoiled.release hroomy

/--
A call of `do_execve` that returns an error has restored everything exactly if there is room for the strings that it has
come to copy, or the room ends between two of the calls of `copy_strings`, or there are not pages enough to fill it.
-/
theorem restored_iff {k' : Kernel} {cs : BitVec 16} (h : doExecve files args cs k = .ok (retval, k'))
    (hretval : retval ≠ 0)
    : Restored k k' ↔ Roomy k.pages.free (k.pages.page BEHIND) (handed files args k.task) 0 := by
  rw [(doExecve_returns cs).ok h hretval]
  exact restored_failed_iff _

-- A regular file that anyone may execute, found under the name `s`.
def onlyFile (data : Nat → Byte) : Files :=
  {
    namei := fun pathname => if pathname.chars = [0x73] then some 0 else none
    inode := fun _ => { iMode := 0o100755, iUid := 0, iSize := 4, iGid := 0, iZone := 1, iDev := 0x301 }
    block := fun _ => some data
  }

def shell (free : Nat) : Kernel :=
  {
    task := {
      euid := 0
      egid := 0
      executable := none
      saHandler := fun _ => 0
      filp := fun _ => none
      closeOnExec := 0
      space := {
        endCode := 0, endData := 0, brk := 0, startStack := 0, codeLimit := 0, mapped := fun _ => false }
      eip := 0
      esp := 0 }
    iCount := fun _ => 0
    bCount := fun _ => 0
    pages := { page := fun _ => false, free, stray := false }
  }

def calling (envp : List CString) : Args :=
  { filename := .of [0x73], argv := [], envp }

theorem script_of_missing {line : Interpreter} {data : Nat → Byte} (hline : interpreter data = some line)
    (hnone : files.namei line.interp = none) (i : Nat) (p : Address)
    : Ensures (script files args i p data) ((k.holding i).reading (files.first i))
        (fun retval k' => retval ≠ 0
          ∧ k' = k.failed (Ledger.copyCalls (args.scriptCalls line) k.pages p).fst)
        (fun _ => False) := by
  unfold script
  apply Ensures.bind
  apply Ensures.of_eq_ok (brelse_reading _ _)
  apply Ensures.bind
  apply Ensures.of_eq_ok (iput_holding k i)
  rw [hline]
  apply Ensures.bind
  apply copyLists_returns
  apply Ensures.ite
  . intro _
    exact Ensures.of_eq_ok rfl ⟨by decide, rfl⟩
  . intro _
    apply Ensures.bind
    apply namei_returns
    . intro _
      exact Ensures.of_eq_ok rfl ⟨by decide, rfl⟩
    . intro i' hsome
      rw [hnone] at hsome
      cases hsome

-- `#!x` in the first line.
def scriptData (n : Nat) : Byte :=
  [0x23, 0x21, 0x78, 0x0a].getD n 0

theorem interpreter_scriptData
    : ∃ line, interpreter scriptData = some line ∧ line.interp.chars = [0x78] ∧ line.iName.chars = [0x78]
        ∧ line.iArg = none := by
  have hinterpreter : (interpreter scriptData).map
      (fun line => (line.interp.chars, line.iName.chars, line.iArg.isSome)) = some ([0x78], [0x78], false) := by
    decide +kernel
  obtain ⟨line, hline, heq⟩ := Option.map_eq_some_iff.mp hinterpreter
  obtain ⟨hinterp, heq⟩ := Prod.mk.inj heq
  obtain ⟨hname, harg⟩ := Prod.mk.inj heq
  exact ⟨line, hline, hinterp, hname, Option.not_isSome_iff_eq_none.mp (by rw [harg]; decide)⟩

theorem doExecve_of_missing (free : Nat) (envp : List CString)
    : ∃ retval k' line, interpreter scriptData = some line
        ∧ doExecve (onlyFile scriptData) (calling envp) 0x000f (shell free) = .ok (retval, k') ∧ retval ≠ 0
          ∧ k' = (shell free).failed (Ledger.copyCalls ((calling envp).scriptCalls line) (shell free).pages.clear
            (BitVec.ofNat 32 ROOM)).fst := by
  obtain ⟨line, hline, hinterp, _⟩ := interpreter_scriptData
  have hnone : (onlyFile scriptData).namei line.interp = none := by
    show (if line.interp.chars = [0x73] then some 0 else none) = none
    rw [hinterp]
    rfl
  have hall : Ensures (doExecve (onlyFile scriptData) (calling envp) 0x000f) (shell free)
      (fun retval k' => retval ≠ 0 ∧ k' = (shell free).failed (Ledger.copyCalls ((calling envp).scriptCalls line)
        (shell free).pages.clear (BitVec.ofNat 32 ROOM)).fst)
      (fun _ => False) := by
    unfold doExecve
    rw [if_neg (by decide)]
    apply Ensures.bind
    apply Ensures.modify
    apply Ensures.bind
    apply namei_returns
    . intro hfile
      cases hfile
    . intro i _
      dsimp only
      apply restartInterp_returns
      . intro retval hblock
        have hboth : (((onlyFile scriptData).inode 0).S_ISREG
            && ((onlyFile scriptData).inode 0).executable (shell 0).task) = true := by
          decide
        cases hblock hboth
      . intro data _ hdata
        obtain rfl : scriptData = data := Option.some.inj hdata
        rw [if_pos (by decide)]
        exact script_of_missing hline hnone i _
  cases hrun : doExecve (onlyFile scriptData) (calling envp) 0x000f (shell free) with
  | error e => exact (hall.error hrun).elim
  | ok r =>
    obtain ⟨hretval, hk'⟩ := hall.ok hrun
    exact ⟨r.fst, r.snd, line, hline, rfl, hretval, hk'⟩

theorem handed_script {line : Interpreter} (hline : interpreter scriptData = some line) (free : Nat)
    (envp : List CString)
    : handed (onlyFile scriptData) (calling envp) (shell free).task = (calling envp).scriptCalls line := by
  unfold handed
  rw [show (onlyFile scriptData).namei (calling envp).filename = some 0 from rfl]
  dsimp only
  -- the task does not depend on the number of the free pages
  have hboth : (((onlyFile scriptData).inode 0).S_ISREG
      && ((onlyFile scriptData).inode 0).executable (shell free).task) = true := by
    change (((onlyFile scriptData).inode 0).S_ISREG
      && ((onlyFile scriptData).inode 0).executable (shell 0).task) = true
    decide
  rw [if_pos hboth, show (onlyFile scriptData).block ((onlyFile scriptData).first 0) = some scriptData from rfl]
  dsimp only
  rw [if_pos (by decide), hline]

theorem total_scriptCalls {line : Interpreter} (hline : interpreter scriptData = some line) (envp : List CString)
    : total ((calling envp).scriptCalls line) = (image envp).length + 4 := by
  obtain ⟨line', hline', _, hname, harg⟩ := interpreter_scriptData
  cases hline.symm.trans hline'
  have hlength : line.iName.bytes.length = 2 := by
    rw [length_bytes, hname]
    rfl
  unfold Args.scriptCalls
  rw [harg]
  change total [envp, [], [.of [0x73]], [line.iName]] = _
  rw [total_cons, total_cons, total_cons, total_cons, image_singleton, image_singleton, hlength]
  rfl

/--
A script without an interpreter, and an environment that goes over the boundaries of pages.
-/
theorem restored_script
    : ∃ retval k', doExecve (onlyFile scriptData) (calling [letters 5000, letters 3000]) 0x000f (shell 33)
          = .ok (retval, k')
        ∧ retval ≠ 0 ∧ Restored (shell 33) k' := by
  obtain ⟨retval, k', line, hline, hrun, hretval, _⟩ := doExecve_of_missing 33 [letters 5000, letters 3000]
  refine ⟨retval, k', hrun, hretval, (restored_iff hrun hretval).mpr ?_⟩
  have hlength : (image [letters 5000, letters 3000]).length = 8002 := by
    change (image ([letters 5000] ++ [letters 3000])).length = 8002
    rw [image_append, List.length_append, image_singleton, image_singleton, length_letters, length_letters]
  left
  rw [handed_script hline, total_scriptCalls hline, hlength]
  decide

/--
A script without an interpreter, and an environment with a byte more than there is room for: a page is lost.
-/
theorem not_restored_script
    : ∃ retval k', doExecve (onlyFile scriptData) (calling [letters 131068]) 0x000f (shell 33) = .ok (retval, k')
        ∧ retval ≠ 0 ∧ ¬Restored (shell 33) k' := by
  obtain ⟨retval, k', line, _, hrun, hretval, hk'⟩ := doExecve_of_missing 33 [letters 131068]
  refine ⟨retval, k', hrun, hretval, ?_⟩
  have hlength : (image [letters 131068]).length = ROOM + 1 := by
    rw [image_singleton, length_letters]
    rfl
  rw [hk', restored_failed_iff]
  show ¬Roomy 33 false ([letters 131068] :: _) 0
  rintro (hroom | hfull | hshort | ⟨hlast, _⟩)
  . rw [total_cons, hlength] at hroom
    omega
  . rw [fullAt_cons_iff (by decide), hlength] at hfull
    obtain ⟨n, hn⟩ := hfull
    omega
  . exact absurd hshort (by decide)
  . exact absurd hlast (by decide)

end Exec
end OS
