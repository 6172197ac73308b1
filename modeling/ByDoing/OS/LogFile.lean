import Mathlib.Logic.Function.Basic
import Mathlib.Data.List.Basic
import ByDoing.Lib.Run

/-!
This module contains the log file and the tasks that write lines to it with `fprintk`. All of them format
their line in `logbuf` and read `f_pos` before the blocking points of `file_write`, the calls of
`create_block` and `bread` in each round of its loop; they copy out of `logbuf` and set `f_pos` after
them. The file is opened without `O_APPEND`. `lines` are the lines of all calls so far.
-/

namespace OS

def BLOCK_SIZE : Nat := 1024

-- A call of `fprintk` that is in `file_write`, at `create_block`.
structure WriteCall where
  line : List UInt8
  count : Nat
  pos : Nat
  i : Nat
  deriving Repr, DecidableEq

structure LogFile where
  logbuf : List UInt8
  file : List UInt8
  fPos : Nat
  calls : Nat → Option WriteCall
  lines : List (List UInt8)

namespace LogFile

inductive Act where
  | fprintk (task : Nat) (line : List UInt8)
  | write (task : Nat) (blockOk : Bool)
  deriving Repr, DecidableEq

def init : LogFile :=
  {
    logbuf := List.replicate 1024 0
    file := []
    fPos := 0
    calls := fun _ => none
    lines := []
  }

def vsprintf (logbuf line : List UInt8) : List UInt8 :=
  line ++ 0 :: logbuf.drop (line.length + 1)

def writeAt (file : List UInt8) (pos : Nat) (bytes : List UInt8) : List UInt8 :=
  file.take pos ++ List.replicate (pos - file.length) 0 ++ bytes ++ file.drop (pos + bytes.length)

def finish (s : LogFile) (task : Nat) (call : WriteCall) : LogFile :=
  { s with fPos := call.pos, calls := Function.update s.calls task none }

def loop (s : LogFile) (task : Nat) (call : WriteCall) : LogFile :=
  if call.i < call.count then
    { s with calls := Function.update s.calls task (some call) }
  else
    s.finish task call

def chunk (call : WriteCall) : Nat :=
  min (BLOCK_SIZE - call.pos % BLOCK_SIZE) (call.count - call.i)

def step (s : LogFile) : Act → Option LogFile
  | .fprintk task line =>
    match s.calls task with
    | some _ => none
    | none =>
      let s := { s with logbuf := vsprintf s.logbuf line, lines := s.lines ++ [line] }
      some (s.loop task { line, count := line.length, pos := s.fPos, i := 0 })
  | .write task blockOk =>
    match s.calls task with
    | none => none
    | some call =>
      if blockOk then
        let c := chunk call
        let s := { s with file := writeAt s.file call.pos ((s.logbuf.drop call.i).take c) }
        some (s.loop task { call with pos := call.pos + c, i := call.i + c })
      else
        some (s.finish task call)

def Intact (s : LogFile) : Prop :=
  (∀ task, s.calls task = none) → ∃ order : List (List UInt8), order.Perm s.lines ∧ s.file = order.flatten

def Alone (s : LogFile) : Act → Prop
  | .fprintk _ _ => ∀ task, s.calls task = none
  | .write _ blockOk => blockOk = true

structure Quiet (s : LogFile) : Prop where
  calls_eq : ∀ task, s.calls task = none
  file_eq : s.file = s.lines.flatten
  fPos_eq : s.fPos = s.file.length

structure Writing (s : LogFile) (done : List (List UInt8)) (call : WriteCall) : Prop where
  lines_eq : s.lines = done ++ [call.line]
  count_eq : call.count = call.line.length
  i_le : call.i ≤ call.count
  pos_eq : call.pos = done.flatten.length + call.i
  file_eq : s.file = done.flatten ++ call.line.take call.i
  logbuf_eq : s.logbuf.take call.count = call.line

def Inv (s : LogFile) : Prop :=
  s.Quiet
    ∨ ∃ task done call, s.calls = Function.update (fun _ => none) task (some call) ∧ s.Writing done call

theorem init_inv : init.Inv := by
  left
  constructor
  . intro _
    rfl
  . rfl
  . rfl

theorem intact_of_inv {s : LogFile} (h : s.Inv) : s.Intact := by
  intro hcalls
  cases h with
  | inl hquiet => exact ⟨s.lines, List.Perm.refl _, hquiet.file_eq⟩
  | inr hwriting =>
    obtain ⟨task, done, call, heq, _⟩ := hwriting
    have := hcalls task
    rw [heq, Function.update_self] at this
    simp at this

theorem loop_inv {s : LogFile} {task : Nat} (done : List (List UInt8)) {call : WriteCall}
    (hcalls : ∀ other, other ≠ task → s.calls other = none) (h : s.Writing done call)
    : (s.loop task call).Inv := by
  unfold loop
  split
  . right
    refine ⟨task, done, call, ?_, ?_⟩
    . funext other
      by_cases hother : other = task
      . subst hother
        simp
      . simp [hother, hcalls]
    . exact ⟨h.lines_eq, h.count_eq, h.i_le, h.pos_eq, h.file_eq, h.logbuf_eq⟩
  . next hlt =>
    have hi : call.i = call.line.length := by
      have := h.i_le
      have := h.count_eq
      omega
    left
    constructor
    . intro other
      by_cases hother : other = task
      . subst hother
        simp [finish]
      . simp [finish, hother, hcalls]
    . simp [finish, h.file_eq, h.lines_eq, hi]
    . simp [finish, h.file_eq, h.pos_eq, hi]

theorem writeAt_length (file bytes : List UInt8) : writeAt file file.length bytes = file ++ bytes := by
  simp [writeAt]

theorem fprintk_inv {s : LogFile} (h : s.Quiet) (task : Nat) (line : List UInt8)
    : (loop { s with logbuf := vsprintf s.logbuf line, lines := s.lines ++ [line] } task
        { line, count := line.length, pos := s.fPos, i := 0 }).Inv := by
  apply loop_inv s.lines
  . intro other _
    exact h.calls_eq other
  . constructor
    . rfl
    . rfl
    . exact Nat.zero_le _
    . simp [h.fPos_eq, h.file_eq]
    . simp [h.file_eq]
    . simp [vsprintf]

theorem write_inv {s : LogFile} {task : Nat} {done : List (List UInt8)} {call : WriteCall}
    (hcalls : ∀ other, other ≠ task → s.calls other = none) (h : s.Writing done call)
    : (loop { s with file := writeAt s.file call.pos ((s.logbuf.drop call.i).take (chunk call)) } task
        { call with pos := call.pos + chunk call, i := call.i + chunk call }).Inv := by
  have hcount := h.count_eq
  have hle := h.i_le
  have hchunk : call.i + chunk call ≤ call.count := by
    unfold chunk
    omega
  have hpos : call.pos = s.file.length := by
    rw [h.file_eq, h.pos_eq, List.length_append, List.length_take]
    omega
  have hbytes : (s.logbuf.drop call.i).take (chunk call) = (call.line.drop call.i).take (chunk call) := by
    rw [← h.logbuf_eq, List.drop_take, List.take_take, Nat.min_eq_left]
    omega
  apply loop_inv done
  . exact hcalls
  . constructor
    . exact h.lines_eq
    . exact h.count_eq
    . exact hchunk
    . dsimp only
      rw [h.pos_eq, Nat.add_assoc]
    . dsimp only
      rw [hpos, writeAt_length, hbytes, h.file_eq, List.append_assoc, List.take_add]
    . exact h.logbuf_eq

theorem step_inv (s s' : LogFile) (a : Act) (hinv : s.Inv) (halone : s.Alone a) (h : s.step a = some s')
    : s'.Inv := by
  cases a with
  | fprintk task line =>
    dsimp only [step] at h
    split at h
    . simp at h
    . cases h
      cases hinv with
      | inl hquiet => exact fprintk_inv hquiet task line
      | inr hwriting =>
        obtain ⟨other, done, call, heq, _⟩ := hwriting
        have := halone other
        rw [heq, Function.update_self] at this
        simp at this
  | write task blockOk =>
    dsimp only [step] at h
    split at h
    . simp at h
    . next call hcall =>
      rw [if_pos (show blockOk = true from halone)] at h
      cases h
      cases hinv with
      | inl hquiet =>
        rw [hquiet.calls_eq] at hcall
        simp at hcall
      | inr hwriting =>
        obtain ⟨writer, done, call', heq, hcall'⟩ := hwriting
        have htask : task = writer := by
          by_contra hne
          rw [heq, Function.update_of_ne hne] at hcall
          simp at hcall
        subst htask
        rw [heq, Function.update_self, Option.some.injEq] at hcall
        subst hcall
        apply write_inv _ hcall'
        intro other hother
        rw [heq, Function.update_of_ne hother]

theorem intact_of_alone (s : LogFile) (h : Run.Reaches step Alone init s) : s.Intact := by
  apply intact_of_inv
  apply h.invariant
  . exact init_inv
  . apply step_inv

def lineOne : List UInt8 := [49, 9, 74, 9, 57, 10]
def lineTwo : List UInt8 := [50, 9, 74, 9, 57, 10]

-- Two tasks write a line each, one after the other.
theorem intact_lineOne_lineTwo
    : ∃ s, Run.Reaches step Alone init s ∧ s.lines = [lineOne, lineTwo] ∧ s.file = lineOne ++ lineTwo ∧ s.Intact := by
  have hexec : ∃ s, Run.exec step init [.fprintk 1 lineOne, .write 1 true, .fprintk 2 lineTwo, .write 2 true] = some s
      ∧ s.lines = [lineOne, lineTwo] ∧ s.file = lineOne ++ lineTwo := ⟨_, rfl, rfl, rfl⟩
  obtain ⟨s, hexec, hlines, hfile⟩ := hexec
  have hreaches : Run.Reaches step Alone init s := by
    apply Run.Reaches.of_exec _ hexec
    refine ⟨fun _ => rfl, ?_⟩
    intro s1 h1
    refine ⟨rfl, ?_⟩
    intro s2 h2
    refine ⟨?_, fun _ _ => ⟨rfl, fun _ _ => trivial⟩⟩
    -- the first call is over
    cases h1
    cases h2
    intro task
    change Function.update (Function.update (fun _ => none) 1 _) 1 none task = none
    rw [Function.update_idem, Function.update_apply, ite_self]
  exact ⟨s, hreaches, hlines, hfile, intact_of_alone s hreaches⟩

-- The second line replaces the first one in `logbuf`, and both calls write it to the same place.
theorem not_intact_of_overlap
    : ¬ ∀ (s : LogFile), Run.Reaches step (fun _ _ => True) init s → s.Intact := by
  intro h
  have hexec : ∃ s, Run.exec step init
        [.fprintk 1 lineOne, .fprintk 2 lineTwo, .write 1 true, .write 2 true] = some s
      ∧ s.lines = [lineOne, lineTwo] ∧ s.file = lineTwo ∧ ∀ task, s.calls task = none := by
    refine ⟨_, rfl, rfl, rfl, ?_⟩
    intro task
    change Function.update (Function.update (Function.update (Function.update (fun _ => none) 1 _) 2 _)
      1 none) 2 none task = none
    simp only [Function.update_apply, ite_eq_left_iff]
    intro h2 h1
    rw [if_neg h2, if_neg h1]
  obtain ⟨s, hexec, hlines, hfile, hcalls⟩ := hexec
  obtain ⟨order, hperm, horder⟩ :=
    h s (Run.Reaches.of_exec (Run.allOk_of_forall fun _ _ => trivial) hexec) hcalls
  have hlength := hperm.flatten.length_eq
  rw [← horder, hfile, hlines] at hlength
  simp [lineOne, lineTwo] at hlength

end LogFile
end OS
