import Mathlib.Data.List.Basic
import ByDoing.Lib.Run

/-!
This module contains the entries of one directory and the calls of `namei.c` that enter new names there: `open_namei`
with `O_CREAT`, `sys_mknod`, `sys_mkdir` and `sys_link`. A call looks the name up block by block, then allocates, then
looks for a free entry block by block, and it may lose the processor before each block and while it allocates. The
reads of the blocks succeed. The name `..` is one like the others: where `find_entry` looks for `.` in its place, it
finds the entry that every directory has.
-/

namespace OS

def NAME_LEN : Nat := 14
def DIR_ENTRIES_PER_BLOCK : Nat := 64

structure FileName where
  bytes : List UInt8
  not_empty : bytes ≠ []
  no_zero : 0 ∉ bytes
  deriving DecidableEq

def FileName.key (name : FileName) : List UInt8 :=
  name.bytes.take NAME_LEN

structure DirEntry where
  inode : Nat
  name : List UInt8
  length_name : name.length = NAME_LEN
  deriving DecidableEq

namespace DirEntry

def text (de : DirEntry) : List UInt8 :=
  de.name.takeWhile fun b => b != 0

def make (inode : Nat) (name : FileName) : DirEntry :=
  {
    inode
    name := (List.range NAME_LEN).map fun i => if i < name.key.length then name.bytes.getD i 0 else 0
    length_name := by simp
  }

def matchName (len : Nat) (name : List UInt8) (de : DirEntry) : Bool :=
  if de.inode = 0 ∨ NAME_LEN < len then
    false
  else if len < NAME_LEN ∧ de.name.getD len 0 ≠ 0 then
    false
  else
    name.take len == de.name.take len

-- With the truncation of `find_entry`.
def isNamed (name : FileName) (de : DirEntry) : Bool :=
  matchName (min name.bytes.length NAME_LEN) name.bytes de

end DirEntry

inductive CreateKind where
  | openNamei
  | sysMknod
  | sysMkdir
  | sysLink (oldinode : Nat)
  deriving Repr, DecidableEq

/--
`find i entries` is the look-up of the entries from `i` on, up to the number that the directory had at the start, and
`add i inode` is the search for a free entry from `i` on.
-/
inductive CreatePhase where
  | find (i entries : Nat)
  | allocate
  | add (i inode : Nat)
  deriving Repr, DecidableEq

-- The look-up has still to come to entry `j`.
def CreatePhase.awaits (phase : CreatePhase) (j : Nat) : Bool :=
  match phase with
  | .find i entries => i ≤ j && j < entries
  | _ => false

/--
`overtaken` says that another call has entered the same name since, where the look-up does not come any more.
-/
structure CreateCall where
  kind : CreateKind
  name : FileName
  phase : CreatePhase
  overtaken : Bool
  deriving DecidableEq

structure Directory where
  entries : List DirEntry
  calls : Nat → Option CreateCall

/--
`allocate` is what `new_inode`, and for `sys_mkdir` also `new_block` and `bread`, answer, and `created` is whether
`create_block` has found a block.
-/
inductive CreateAct where
  | call (t : Nat) (kind : CreateKind) (name : FileName)
  | findBlock (t : Nat)
  | allocate (t : Nat) (inode : Option Nat)
  | addBlock (t : Nat) (created : Bool)

namespace Directory

def init (entries : List DirEntry) : Directory :=
  { entries, calls := fun _ => none }

def blockEnd (i : Nat) : Nat :=
  (i / DIR_ENTRIES_PER_BLOCK + 1) * DIR_ENTRIES_PER_BLOCK

def findInBlock (entries : List DirEntry) (name : FileName) (i stop : Nat) : Bool :=
  (List.range' i (stop - i)).any fun j => (entries[j]?).any fun de => de.isNamed name

def freeInBlock (entries : List DirEntry) (i : Nat) : Option Nat :=
  (List.range' i (blockEnd i - i)).find? fun j => (entries[j]?).all fun de => de.inode == 0

def put (entries : List DirEntry) (j : Nat) (de : DirEntry) : List DirEntry :=
  if j < entries.length then entries.set j de else entries ++ [de]

def setCall (s : Directory) (t : Nat) (call : Option CreateCall) : Directory :=
  { s with calls := fun u => if u = t then call else s.calls u }

def setPhase (s : Directory) (t : Nat) (call : CreateCall) (phase : CreatePhase) : Directory :=
  s.setCall t (some { call with phase })

def fills (s : Directory) (call : CreateCall) (created : Bool) : Option Nat :=
  match call.phase with
  | .add i _ => if i = 0 ∨ created then freeInBlock s.entries i else none
  | _ => none

def enter (s : Directory) (t : Nat) (call : CreateCall) (inode j : Nat) : Directory :=
  {
    entries := put s.entries j (.make inode call.name)
    calls := fun u =>
      if u = t then
        none
      else
        (s.calls u).map fun other =>
          if other.name.key = call.name.key ∧ other.phase.awaits j = false then
            { other with overtaken := true }
          else
            other
  }

def step (s : Directory) : CreateAct → Option Directory
  | .call t kind name =>
    match s.calls t with
    | some _ => none
    | none =>
      if kind = .sysLink 0 then
        none
      else
        some (s.setCall t (some { kind, name, phase := .find 0 s.entries.length, overtaken := false }))
  | .findBlock t =>
    match s.calls t with
    | some call =>
      match call.phase with
      | .find i entries =>
        let stop := min entries (blockEnd i)
        if findInBlock s.entries call.name i stop then
          some (s.setCall t none)
        else if stop < entries then
          some (s.setPhase t call (.find stop entries))
        else
          match call.kind with
          | .sysLink oldinode => some (s.setPhase t call (.add 0 oldinode))
          | _ => some (s.setPhase t call .allocate)
      | _ => none
    | none => none
  | .allocate t answer =>
    match s.calls t with
    | some call =>
      match call.phase, answer with
      | .allocate, none => some (s.setCall t none)
      | .allocate, some inode => if inode = 0 then none else some (s.setPhase t call (.add 0 inode))
      | _, _ => none
    | none => none
  | .addBlock t created =>
    match s.calls t with
    | some call =>
      match call.phase with
      | .add i inode =>
        match s.fills call created with
        | some j => some (s.enter t call inode j)
        | none => if i = 0 ∨ created then some (s.setPhase t call (.add (blockEnd i) inode)) else some (s.setCall t none)
      | _ => none
    | none => none

def Live (entries : List DirEntry) (j : Nat) (key : List UInt8) : Prop :=
  ∃ de, entries[j]? = some de ∧ de.inode ≠ 0 ∧ de.text = key

def Unique (entries : List DirEntry) : Prop :=
  ∀ j k key, Live entries j key → Live entries k key → j = k

def Fits (s : Directory) : CreateAct → Prop
  | .addBlock t created => ∀ call, s.calls t = some call → s.fills call created ≠ none → call.overtaken = false
  | _ => True

instance decidableFits (s : Directory) : (a : CreateAct) → Decidable (s.Fits a)
  | .addBlock t created =>
    match h : s.calls t with
    | none => isTrue (by simp [Fits, h])
    | some call =>
      decidable_of_iff (s.fills call created ≠ none → call.overtaken = false) (by simp [Fits, h])
  | .call _ _ _ => isTrue trivial
  | .findBlock _ => isTrue trivial
  | .allocate _ _ => isTrue trivial

end Directory

theorem FileName.length_key (name : FileName) : name.key.length = min name.bytes.length NAME_LEN := by
  unfold FileName.key
  rw [List.length_take, Nat.min_comm]

theorem FileName.ne_zero_of_mem_key {name : FileName} {b : UInt8} (h : b ∈ name.key) : b ≠ 0 := by
  intro hzero
  subst hzero
  exact name.no_zero (List.mem_of_mem_take h)

namespace DirEntry

theorem takeWhile_eq_iff {key l : List UInt8} (hkey : ∀ b ∈ key, b ≠ 0) (hlength : key.length ≤ l.length)
    : l.takeWhile (fun b => b != 0) = key
      ↔ l.take key.length = key ∧ (key.length < l.length → l.getD key.length 0 = 0) := by
  induction key generalizing l with
  | nil =>
    cases l with
    | nil => simp
    | cons b l => simp [List.takeWhile_cons]
  | cons k key ih =>
    cases l with
    | nil => simp at hlength
    | cons b l =>
      have hk : k ≠ 0 := hkey k List.mem_cons_self
      have hrest := @ih l (fun b hb => hkey b (List.mem_cons_of_mem k hb)) (Nat.le_of_succ_le_succ hlength)
      by_cases hb : b = k
      . subst hb
        simp [hk, hrest]
      . have hleft : (b :: l).takeWhile (fun b => b != 0) ≠ k :: key := by
          intro h
          rw [List.takeWhile_cons] at h
          split at h
          . exact hb (List.cons.inj h).left
          . simp at h
        simp [hleft, hb]

theorem isNamed_iff {name : FileName} {de : DirEntry}
    : de.isNamed name = true ↔ de.inode ≠ 0 ∧ de.text = name.key := by
  have hlength := FileName.length_key name
  have hde := de.length_name
  have htext := @takeWhile_eq_iff name.key de.name (fun _ => FileName.ne_zero_of_mem_key) (by omega)
  have hkey : name.bytes.take name.key.length = name.key := by
    rw [hlength]
    unfold FileName.key
    rw [Nat.min_comm, ← List.take_take, List.take_length]
  unfold isNamed matchName text
  rw [htext, ← hlength, hkey, hde]
  split
  . next hdead =>
    have hinode : de.inode = 0 := by omega
    simp [hinode]
  . next hlive =>
    rw [not_or] at hlive
    split
    . next hlonger =>
      simp only [Bool.false_eq_true, false_iff]
      intro h
      exact hlonger.right (h.right.right hlonger.left)
    . next hends =>
      simp only [beq_iff_eq, ne_eq, hlive.left, not_false_eq_true, true_and]
      constructor
      . intro heq
        refine ⟨heq.symm, ?_⟩
        intro hlt
        apply Classical.byContradiction
        intro hne
        exact hends ⟨hlt, hne⟩
      . intro h
        exact h.left.symm

theorem text_make (inode : Nat) (name : FileName) : (make inode name).text = name.key := by
  have hlength := FileName.length_key name
  unfold text
  rw [takeWhile_eq_iff (fun _ => FileName.ne_zero_of_mem_key)]
  . refine ⟨?_, ?_⟩
    . apply List.ext_getElem
      . rw [List.length_take, (make inode name).length_name]
        omega
      . intro i h₁ h₂
        unfold make FileName.key at *
        simp only [List.getElem_take, List.getElem_map, List.getElem_range]
        rw [if_pos h₂]
        rw [List.length_take] at h₂
        rw [List.getD_eq_getElem?_getD, List.getElem?_eq_getElem (by omega), Option.getD_some]
    . intro hlt
      rw [(make inode name).length_name] at hlt
      unfold make
      simp only [List.getD_eq_getElem?_getD, List.getElem?_map, List.getElem?_range hlt]
      simp
  . rw [(make inode name).length_name]
    omega

end DirEntry

namespace Directory

variable {s s' : Directory} {t : Nat} {call : CreateCall}

theorem getElem?_put {entries : List DirEntry} {j : Nat} (hj : j ≤ entries.length) (de : DirEntry) (k : Nat)
    : (put entries j de)[k]? = if k = j then some de else entries[k]? := by
  unfold put
  split
  . next hlt =>
    rw [List.getElem?_set]
    grind
  . next hge =>
    have hlen : j = entries.length := by omega
    subst hlen
    split
    . next heq => rw [heq, List.getElem?_concat_length]
    . next hne =>
      by_cases hlt : k < entries.length
      . rw [List.getElem?_append_left hlt]
      . have hlength : (entries ++ [de]).length ≤ k := by
          rw [List.length_append, List.length_singleton]
          omega
        rw [List.getElem?_eq_none hlength, List.getElem?_eq_none (Nat.le_of_not_lt hlt)]

theorem length_le_put (entries : List DirEntry) (j : Nat) (de : DirEntry) : entries.length ≤ (put entries j de).length := by
  unfold put
  split <;> simp

theorem live_put_iff {entries : List DirEntry} {j k : Nat} {de : DirEntry} {key : List UInt8} (hj : j ≤ entries.length)
    : Live (put entries j de) k key ↔ (k = j ∧ de.inode ≠ 0 ∧ de.text = key) ∨ (k ≠ j ∧ Live entries k key) := by
  unfold Live
  rw [getElem?_put hj]
  by_cases heq : k = j
  . simp [heq]
  . simp [heq]

theorem freeInBlock_eq_some {entries : List DirEntry} {i j : Nat} (h : freeInBlock entries i = some j)
    (hi : i ≤ entries.length)
    : j ≤ entries.length ∧ ∀ key, ¬ Live entries j key := by
  unfold freeInBlock at h
  rw [List.find?_range'_eq_some] at h
  obtain ⟨hfree, hmem, hbefore⟩ := h
  refine ⟨?_, ?_⟩
  . apply Nat.le_of_not_lt
    intro hlt
    have hused := hbefore entries.length hi hlt
    simp at hused
  . intro key hlive
    obtain ⟨de, hget, hinode, _⟩ := hlive
    rw [hget] at hfree
    simp [hinode] at hfree

theorem freeInBlock_eq_none {entries : List DirEntry} {i : Nat} (h : freeInBlock entries i = none)
    : blockEnd i ≤ entries.length := by
  unfold freeInBlock at h
  rw [List.find?_range'_eq_none] at h
  have hend : i < blockEnd i := by
    unfold blockEnd DIR_ENTRIES_PER_BLOCK
    omega
  have hlast := h (blockEnd i - 1) (by omega) (by omega)
  apply Nat.le_of_not_lt
  intro hlt
  rw [List.getElem?_eq_none (by omega)] at hlast
  simp at hlast

theorem not_live_of_findInBlock {entries : List DirEntry} {name : FileName} {i stop j : Nat}
    (h : findInBlock entries name i stop = false) (hi : i ≤ j) (hj : j < stop)
    : ¬ Live entries j name.key := by
  intro hlive
  obtain ⟨de, hget, hinode, htext⟩ := hlive
  unfold findInBlock at h
  rw [List.any_eq_false] at h
  apply h j
  . rw [List.mem_range'_1]
    omega
  . rw [hget, Option.any_some]
    exact DirEntry.isNamed_iff.mpr ⟨hinode, htext⟩

structure Inv (s : Directory) : Prop where
  unique : Unique s.entries
  seen : ∀ t call, s.calls t = some call → call.overtaken = false
    → ∀ j, Live s.entries j call.name.key → call.phase.awaits j = true
  overtaken : ∀ t call, s.calls t = some call → call.overtaken = true
    → ∃ j, Live s.entries j call.name.key ∧ call.phase.awaits j = false
  adds : ∀ t call i inode, s.calls t = some call → call.phase = .add i inode → i ≤ s.entries.length ∧ inode ≠ 0
  links : ∀ t call, s.calls t = some call → call.kind ≠ .sysLink 0

theorem init_inv {entries : List DirEntry} (h : Unique entries) : (init entries).Inv := by
  constructor
  . exact h
  . simp [init]
  . simp [init]
  . simp [init]
  . simp [init]

theorem Inv.setCall_none (hinv : s.Inv) (t : Nat) : (s.setCall t none).Inv := by
  have hcalls : ∀ u call, (s.setCall t none).calls u = some call → s.calls u = some call := by
    intro u call hu
    unfold setCall at hu
    grind
  constructor
  . exact hinv.unique
  . intro u call hu
    exact hinv.seen u call (hcalls u call hu)
  . intro u call hu
    exact hinv.overtaken u call (hcalls u call hu)
  . intro u call i inode hu
    exact hinv.adds u call i inode (hcalls u call hu)
  . intro u call hu
    exact hinv.links u call (hcalls u call hu)

theorem Inv.setCall_some (hinv : s.Inv) (t : Nat)
    (hseen : call.overtaken = false → ∀ j, Live s.entries j call.name.key → call.phase.awaits j = true)
    (hovertaken : call.overtaken = true → ∃ j, Live s.entries j call.name.key ∧ call.phase.awaits j = false)
    (hadds : ∀ i inode, call.phase = .add i inode → i ≤ s.entries.length ∧ inode ≠ 0)
    (hlinks : call.kind ≠ .sysLink 0)
    : (s.setCall t (some call)).Inv := by
  have hcalls : ∀ u other, (s.setCall t (some call)).calls u = some other → other = call ∨ s.calls u = some other := by
    intro u other hu
    unfold setCall at hu
    grind
  constructor
  . exact hinv.unique
  . intro u other hu
    cases hcalls u other hu with
    | inl heq => exact heq ▸ hseen
    | inr hold => exact hinv.seen u other hold
  . intro u other hu
    cases hcalls u other hu with
    | inl heq => exact heq ▸ hovertaken
    | inr hold => exact hinv.overtaken u other hold
  . intro u other i inode hu
    cases hcalls u other hu with
    | inl heq => exact heq ▸ hadds i inode
    | inr hold => exact hinv.adds u other i inode hold
  . intro u other hu
    cases hcalls u other hu with
    | inl heq => exact heq ▸ hlinks
    | inr hold => exact hinv.links u other hold

theorem Inv.setPhase (hinv : s.Inv) (hcall : s.calls t = some call) {phase : CreatePhase}
    (hpassed : ∀ j, Live s.entries j call.name.key → call.phase.awaits j = true → phase.awaits j = true)
    (hless : ∀ j, phase.awaits j = true → call.phase.awaits j = true)
    (hadds : ∀ i inode, phase = .add i inode → i ≤ s.entries.length ∧ inode ≠ 0)
    : (s.setPhase t call phase).Inv := by
  apply hinv.setCall_some
  . intro hnot j hlive
    exact hpassed j hlive (hinv.seen t call hcall hnot j hlive)
  . intro hover
    obtain ⟨j, hlive, hj⟩ := hinv.overtaken t call hcall hover
    refine ⟨j, hlive, ?_⟩
    rw [Bool.eq_false_iff] at hj ⊢
    intro hawaits
    exact hj (hless j hawaits)
  . exact hadds
  . exact hinv.links t call hcall

theorem fills_eq_some {created : Bool} {j : Nat} (hinv : s.Inv) (hcall : s.calls t = some call)
    (h : s.fills call created = some j)
    : ∃ i inode, call.phase = .add i inode ∧ inode ≠ 0 ∧ j ≤ s.entries.length ∧ ∀ key, ¬ Live s.entries j key := by
  unfold fills at h
  split at h
  . next i inode hphase =>
    obtain ⟨hi, hinode⟩ := hinv.adds t call i inode hcall hphase
    split at h
    . exact ⟨i, inode, hphase, hinode, freeInBlock_eq_some h hi⟩
    . simp at h
  . simp at h

section Enter

variable {i inode j : Nat}

theorem live_enter_iff (hj : j ≤ s.entries.length) (hinode : inode ≠ 0) {k : Nat} {key : List UInt8}
    : Live (s.enter t call inode j).entries k key ↔ (k = j ∧ call.name.key = key) ∨ (k ≠ j ∧ Live s.entries k key) := by
  unfold enter
  rw [live_put_iff hj, DirEntry.text_make]
  simp [DirEntry.make, hinode]

theorem live_enter (hj : j ≤ s.entries.length) (hfree : ∀ key, ¬ Live s.entries j key) (hinode : inode ≠ 0) {k : Nat}
    {key : List UInt8} (h : Live s.entries k key)
    : Live (s.enter t call inode j).entries k key := by
  rw [live_enter_iff hj hinode]
  right
  refine ⟨?_, h⟩
  intro heq
  subst heq
  exact hfree key h

theorem unique_enter_iff (hinv : s.Inv) (hcall : s.calls t = some call) (hphase : call.phase = .add i inode)
    (hj : j ≤ s.entries.length) (hfree : ∀ key, ¬ Live s.entries j key) (hinode : inode ≠ 0)
    : Unique (s.enter t call inode j).entries ↔ call.overtaken = false := by
  constructor
  . intro hunique
    rw [Bool.eq_false_iff]
    intro hover
    obtain ⟨k, hlive, _⟩ := hinv.overtaken t call hcall hover
    have hnew : Live (s.enter t call inode j).entries j call.name.key := by
      rw [live_enter_iff hj hinode]
      exact .inl ⟨rfl, rfl⟩
    have heq := hunique k j call.name.key (live_enter hj hfree hinode hlive) hnew
    exact hfree call.name.key (heq ▸ hlive)
  . intro hnot
    -- The look-up is over, so there is no other entry with the name.
    have hnone : ∀ k, ¬ Live s.entries k call.name.key := by
      intro k hlive
      have hawaits := hinv.seen t call hcall hnot k hlive
      rw [hphase] at hawaits
      simp [CreatePhase.awaits] at hawaits
    intro k₁ k₂ key h₁ h₂
    rw [live_enter_iff hj hinode] at h₁ h₂
    cases h₁ with
    | inl h₁ =>
      cases h₂ with
      | inl h₂ => exact h₁.left.trans h₂.left.symm
      | inr h₂ => exact absurd (h₁.right ▸ h₂.right) (hnone k₂)
    | inr h₁ =>
      cases h₂ with
      | inl h₂ => exact absurd (h₂.right ▸ h₁.right) (hnone k₁)
      | inr h₂ => exact hinv.unique k₁ k₂ key h₁.right h₂.right

theorem Inv.enter (hinv : s.Inv) (hunique : Unique (s.enter t call inode j).entries) (hj : j ≤ s.entries.length)
    (hfree : ∀ key, ¬ Live s.entries j key) (hinode : inode ≠ 0)
    : (s.enter t call inode j).Inv := by
  have hcalls : ∀ u other', (s.enter t call inode j).calls u = some other' → ∃ other, s.calls u = some other
      ∧ other'.kind = other.kind ∧ other'.name = other.name ∧ other'.phase = other.phase
      ∧ other'.overtaken = (other.overtaken
        || decide (other.name.key = call.name.key ∧ other.phase.awaits j = false)) := by
    intro u other' hu
    unfold Directory.enter at hu
    dsimp only at hu
    split at hu
    . simp at hu
    . obtain ⟨other, hother, heq⟩ := Option.map_eq_some_iff.mp hu
      refine ⟨other, hother, ?_⟩
      subst heq
      split
      . next hsame => simp [hsame]
      . next hsame => simp [hsame]
  constructor
  . exact hunique
  . intro u other' hu hnot k hlive
    obtain ⟨other, hother, _, hname, hphase, hover⟩ := hcalls u other' hu
    rw [hname] at hlive
    rw [hphase]
    rw [hover, Bool.or_eq_false_iff, decide_eq_false_iff_not] at hnot
    rw [live_enter_iff hj hinode] at hlive
    cases hlive with
    | inl hnew =>
      rw [hnew.left]
      have hnot' := not_and.mp hnot.right hnew.right.symm
      simpa using hnot'
    | inr hold => exact hinv.seen u other hother hnot.left k hold.right
  . intro u other' hu hover'
    obtain ⟨other, hother, _, hname, hphase, hover⟩ := hcalls u other' hu
    rw [hname, hphase]
    rw [hover, Bool.or_eq_true, decide_eq_true_eq] at hover'
    cases hover' with
    | inl hold =>
      obtain ⟨k, hlive, hk⟩ := hinv.overtaken u other hother hold
      exact ⟨k, live_enter hj hfree hinode hlive, hk⟩
    | inr hnew =>
      refine ⟨j, ?_, hnew.right⟩
      rw [live_enter_iff hj hinode]
      exact .inl ⟨rfl, hnew.left.symm⟩
  . intro u other' i' inode' hu hphase'
    obtain ⟨other, hother, _, _, hphase, _⟩ := hcalls u other' hu
    obtain ⟨hi, hinode'⟩ := hinv.adds u other i' inode' hother (hphase ▸ hphase')
    exact ⟨Nat.le_trans hi (length_le_put _ _ _), hinode'⟩
  . intro u other' hu
    obtain ⟨other, hother, hkind, _⟩ := hcalls u other' hu
    rw [hkind]
    exact hinv.links u other hother

end Enter

theorem Inv.findBlock (hinv : s.Inv) (h : s.step (.findBlock t) = some s') : s'.Inv := by
  unfold step at h
  dsimp only at h
  split at h
  . next call hcall =>
    split at h
    . next i entries hphase =>
      split at h
      . cases h
        exact hinv.setCall_none t
      . next hnot =>
        have hpassed : ∀ j, Live s.entries j call.name.key → call.phase.awaits j = true
            → min entries (blockEnd i) ≤ j ∧ j < entries := by
          intro j hlive hawaits
          rw [hphase] at hawaits
          simp only [CreatePhase.awaits, Bool.and_eq_true, decide_eq_true_eq] at hawaits
          refine ⟨?_, hawaits.right⟩
          apply Nat.le_of_not_lt
          intro hlt
          exact not_live_of_findInBlock (Bool.eq_false_iff.mpr hnot) hawaits.left hlt hlive
        split at h
        . cases h
          apply hinv.setPhase hcall
          . intro j hlive hawaits
            simpa [CreatePhase.awaits] using hpassed j hlive hawaits
          . intro j hawaits
            have hi : i < blockEnd i := by
              unfold blockEnd DIR_ENTRIES_PER_BLOCK
              omega
            rw [hphase]
            simp only [CreatePhase.awaits, Bool.and_eq_true, decide_eq_true_eq] at hawaits ⊢
            omega
          . simp
        . next hover =>
          -- The look-up has come to its end.
          have hnone : ∀ j, Live s.entries j call.name.key → call.phase.awaits j = true → False := by
            intro j hlive hawaits
            have hj := hpassed j hlive hawaits
            omega
          split at h
          . next oldinode hkind =>
            cases h
            apply hinv.setPhase hcall
            . intro j hlive hawaits
              exact (hnone j hlive hawaits).elim
            . simp [CreatePhase.awaits]
            . intro i' inode' heq
              cases heq
              refine ⟨Nat.zero_le _, ?_⟩
              intro hzero
              exact hinv.links t call hcall (hzero ▸ hkind)
          . cases h
            apply hinv.setPhase hcall
            . intro j hlive hawaits
              exact (hnone j hlive hawaits).elim
            . simp [CreatePhase.awaits]
            . simp
    . simp at h
  . simp at h

theorem Inv.allocate (hinv : s.Inv) {answer : Option Nat} (h : s.step (.allocate t answer) = some s') : s'.Inv := by
  unfold step at h
  dsimp only at h
  split at h
  . next call hcall =>
    split at h
    . cases h
      exact hinv.setCall_none t
    . next inode hphase =>
      split at h
      . simp at h
      . next hinode =>
        cases h
        apply hinv.setPhase hcall
        . simp [hphase, CreatePhase.awaits]
        . simp [CreatePhase.awaits]
        . intro i' inode' heq
          cases heq
          exact ⟨Nat.zero_le _, hinode⟩
    . simp at h
  . simp at h

theorem Inv.start (hinv : s.Inv) {kind : CreateKind} {name : FileName} (h : s.step (.call t kind name) = some s')
    : s'.Inv := by
  unfold step at h
  dsimp only at h
  split at h
  . simp at h
  . split at h
    . simp at h
    . next hlink =>
      cases h
      apply hinv.setCall_some
      . intro _ j hlive
        obtain ⟨de, hget, _⟩ := hlive
        have hlt := (List.getElem?_eq_some_iff.mp hget).fst
        simpa [CreatePhase.awaits] using hlt
      . simp
      . simp
      . exact hlink

theorem Inv.addBlock (hinv : s.Inv) {created : Bool} (h : s.step (.addBlock t created) = some s')
    : (Unique s'.entries ↔ s.Fits (.addBlock t created)) ∧ (Unique s'.entries → s'.Inv) := by
  unfold step at h
  dsimp only at h
  split at h
  . next call hcall =>
    split at h
    . next i inode hphase =>
      split at h
      . next j hfills =>
        cases h
        obtain ⟨i', inode', hphase', hinode, hj, hfree⟩ := fills_eq_some hinv hcall hfills
        rw [hphase] at hphase'
        cases hphase'
        have hiff := unique_enter_iff hinv hcall hphase hj hfree hinode
        refine ⟨?_, ?_⟩
        . rw [hiff]
          unfold Fits
          constructor
          . intro hnot call' hcall' _
            rw [hcall, Option.some.injEq] at hcall'
            exact hcall' ▸ hnot
          . intro hfits
            exact hfits call hcall (by simp [hfills])
        . intro hunique
          exact hinv.enter hunique hj hfree hinode
      . next hfills =>
        have hfits : s.Fits (.addBlock t created) := by
          intro call' hcall' hsome
          rw [hcall, Option.some.injEq] at hcall'
          subst hcall'
          exact absurd hfills hsome
        have hinv' : s'.Inv := by
          split at h
          . next hok =>
            cases h
            apply hinv.setPhase hcall
            . simp [hphase, CreatePhase.awaits]
            . simp [CreatePhase.awaits]
            . intro i' inode' heq
              cases heq
              refine ⟨?_, (hinv.adds t call i inode hcall hphase).right⟩
              unfold fills at hfills
              rw [hphase] at hfills
              dsimp only at hfills
              rw [if_pos hok] at hfills
              exact freeInBlock_eq_none hfills
          . cases h
            exact hinv.setCall_none t
        exact ⟨⟨fun _ => hfits, fun _ => hinv'.unique⟩, fun _ => hinv'⟩
    . simp at h
  . simp at h

theorem Inv.step (hinv : s.Inv) {a : CreateAct} (h : s.step a = some s')
    : (Unique s'.entries ↔ s.Fits a) ∧ (Unique s'.entries → s'.Inv) := by
  cases a with
  | call t kind name =>
    have hinv' := hinv.start h
    exact ⟨⟨fun _ => trivial, fun _ => hinv'.unique⟩, fun _ => hinv'⟩
  | findBlock t =>
    have hinv' := hinv.findBlock h
    exact ⟨⟨fun _ => trivial, fun _ => hinv'.unique⟩, fun _ => hinv'⟩
  | allocate t answer =>
    have hinv' := hinv.allocate h
    exact ⟨⟨fun _ => trivial, fun _ => hinv'.unique⟩, fun _ => hinv'⟩
  | addBlock t created => exact hinv.addBlock h

def fileA : FileName :=
  { bytes := [97], not_empty := by decide, no_zero := by decide }

def fileB : FileName :=
  { bytes := [98], not_empty := by decide, no_zero := by decide }

def dot : FileName :=
  { bytes := [46], not_empty := by decide, no_zero := by decide }

def dotDot : FileName :=
  { bytes := [46, 46], not_empty := by decide, no_zero := by decide }

def newDirectory : List DirEntry :=
  [.make 2 dot, .make 1 dotDot]

theorem unique_newDirectory : Unique newDirectory := by
  intro j k key hj hk
  obtain ⟨de, hget, _, htext⟩ := hj
  obtain ⟨de', hget', _, htext'⟩ := hk
  have hj := (List.getElem?_eq_some_iff.mp hget).fst
  have hk := (List.getElem?_eq_some_iff.mp hget').fst
  have hlength : newDirectory.length = 2 := rfl
  have hne : DirEntry.text (.make 2 dot) ≠ DirEntry.text (.make 1 dotDot) := by decide
  rw [← htext'] at htext
  match j, k with
  | 0, 0 => rfl
  | 1, 1 => rfl
  | 0, 1 =>
    cases hget
    cases hget'
    exact absurd htext hne
  | 1, 0 =>
    cases hget
    cases hget'
    exact absurd htext.symm hne

end Directory
end OS
