import ByDoing.OS.PipeRegion

namespace OS
namespace Pipe

def Pc.left : Pc → Nat
  | .copy _ chars => chars
  | _ => 0

@[simp]
theorem Pc.left_wakeUp (pc : Pc) : pc.wakeUp.left = pc.left := by
  cases pc with
  | _ => rfl

@[simp]
theorem Pc.wakeUp_eq_user {pc : Pc} : pc.wakeUp = .user ↔ pc = .user := by
  cases pc with
  | _ => simp [wakeUp]

theorem Pc.left_eq_zero {pc : Pc} (hcopy : ∀ size chars, pc ≠ .copy size (chars + 1)) : pc.left = 0 := by
  cases pc with
  | copy size chars =>
    cases chars with
    | zero => rfl
    | succ chars => exact absurd rfl (hcopy size chars)
  | _ => rfl

-- The data of a call of `write_pipe`.
def Act.given : Act → List Byte
  | .write buf => buf
  | _ => []

namespace State

def given (acts : List Act) : List Byte :=
  acts.flatMap Act.given

inductive Makes (s : State) : Act → State → Prop where
  | schedule (who : Who) : Makes s (.schedule who) { s with current := some who }
  | preempt : Makes s .preempt { s with current := none }
  | read (count : Nat) (pc : s.reader.pc = .user) (closed : s.reader.closed = false)
    : Makes s (.read count) { s with reader := { s.reader with pc := .loop, count, read := 0 } }
  | write (buf : List Byte) (pc : s.writer.pc = .user) (closed : s.writer.closed = false)
    : Makes s (.write buf) { s with writer := { s.writer with pc := .loop, buf, count := buf.length, written := 0 } }
  | close {s' : State} (who : Who) (pc : s.pc who = .user) (close : s.close who = some s') : Makes s .close s'
  | runReader (pc : s.reader.pc ≠ .user) : Makes s .run s.readPipe
  | runWriter (pc : s.writer.pc ≠ .user) : Makes s .run s.writePipe

theorem act_makes {s s' : State} {who : Who} {a : Act} (hfault : a ≠ .fault) (hact : s.act who a = some s')
    : s.Makes a s' := by
  cases a with
  | schedule => cases hact
  | fault => exact absurd rfl hfault
  | preempt =>
    simp only [act, Option.ite_none_right_eq_some, Option.some.injEq] at hact
    rw [← hact.right]
    exact .preempt
  | read count =>
    simp only [act, Option.ite_none_right_eq_some, Option.some.injEq] at hact
    obtain ⟨⟨_, hpc, hclosed⟩, rfl⟩ := hact
    exact .read count hpc hclosed
  | write buf =>
    simp only [act, Option.ite_none_right_eq_some, Option.some.injEq] at hact
    obtain ⟨⟨_, hpc, hclosed⟩, rfl⟩ := hact
    exact .write buf hpc hclosed
  | close =>
    simp only [act, Option.ite_none_right_eq_some] at hact
    exact .close who hact.left hact.right
  | run =>
    simp only [act, Option.ite_none_left_eq_some, not_or] at hact
    cases who with
    | reader =>
      rw [← Option.some.inj hact.right]
      exact .runReader hact.left.left
    | writer =>
      rw [← Option.some.inj hact.right]
      exact .runWriter hact.left.left

theorem step_makes {s s' : State} {a : Act} (hfault : a ≠ .fault) (hstep : s.step a = some s') : s.Makes a s' := by
  unfold step at hstep
  split at hstep
  . next who _ =>
    rw [Option.ite_none_left_eq_some, Option.some.injEq] at hstep
    rw [← hstep.right]
    exact .schedule who
  . cases hstep
  . exact act_makes hfault hstep

structure KeepsReader (s s' : State) : Prop where
  user : s'.reader.pc = .user ↔ s.reader.pc = .user
  left : s'.reader.pc.left = s.reader.pc.left
  read : s'.reader.read = s.reader.read
  count : s'.reader.count = s.reader.count
  result : s'.reader.result = s.reader.result
  delivered : s'.delivered = s.delivered

structure KeepsWriter (s s' : State) : Prop where
  user : s'.writer.pc = .user ↔ s.writer.pc = .user
  left : s'.writer.pc.left = s.writer.pc.left
  buf : s'.writer.buf = s.writer.buf
  written : s'.writer.written = s.writer.written
  count : s'.writer.count = s.writer.count
  result : s'.writer.result = s.writer.result
  sigpipe : s'.writer.sigpipe = s.writer.sigpipe
  stored : s'.stored = s.stored

theorem KeepsReader.of_reader {s s' : State} (hreader : s'.reader = s.reader ∨ s'.reader = s.wakeUp.reader)
    (hdelivered : s'.delivered = s.delivered)
    : s.KeepsReader s' := by
  rcases hreader with heq | heq
  . constructor
    case delivered => exact hdelivered
    all_goals rw [heq]
  . constructor
    case user => exact heq ▸ Pc.wakeUp_eq_user
    case left => exact heq ▸ Pc.left_wakeUp _
    case delivered => exact hdelivered
    all_goals
      rw [heq]
      rfl

theorem KeepsWriter.of_writer {s s' : State} (hwriter : s'.writer = s.writer ∨ s'.writer = s.wakeUp.writer)
    (hstored : s'.stored = s.stored)
    : s.KeepsWriter s' := by
  rcases hwriter with heq | heq
  . constructor
    case stored => exact hstored
    all_goals rw [heq]
  . constructor
    case user => exact heq ▸ Pc.wakeUp_eq_user
    case left => exact heq ▸ Pc.left_wakeUp _
    case stored => exact hstored
    all_goals
      rw [heq]
      rfl

theorem readPipe_writer (s : State)
    : (s.readPipe.writer = s.writer ∨ s.readPipe.writer = s.wakeUp.writer) ∧ s.readPipe.stored = s.stored := by
  unfold readPipe
  split
  . exact ⟨.inl rfl, rfl⟩
  . exact ⟨.inl rfl, rfl⟩
  . split
    . exact ⟨.inr rfl, rfl⟩
    . split
      . dsimp only
        split
        . exact ⟨.inr rfl, rfl⟩
        . exact ⟨.inr rfl, rfl⟩
      . exact ⟨.inl rfl, rfl⟩

theorem writePipe_reader (s : State)
    : (s.writePipe.reader = s.reader ∨ s.writePipe.reader = s.wakeUp.reader)
        ∧ s.writePipe.delivered = s.delivered := by
  unfold writePipe
  split
  . split
    . exact ⟨.inl rfl, rfl⟩
    . exact ⟨.inl rfl, rfl⟩
  . exact ⟨.inl rfl, rfl⟩
  . dsimp only
    split
    . exact ⟨.inr rfl, rfl⟩
    . split
      . split
        . exact ⟨.inr rfl, rfl⟩
        . exact ⟨.inr rfl, rfl⟩
      . exact ⟨.inl rfl, rfl⟩

theorem readPipe_keepsWriter (s : State) : s.KeepsWriter s.readPipe :=
  .of_writer s.readPipe_writer.left s.readPipe_writer.right

theorem writePipe_keepsReader (s : State) : s.KeepsReader s.writePipe :=
  .of_reader s.writePipe_reader.left s.writePipe_reader.right

theorem readPipe_writerClosed (s : State) : s.readPipe.writer.closed = s.writer.closed := by
  rcases s.readPipe_writer.left with heq | heq
  . rw [heq]
  . rw [heq]
    rfl

theorem writePipe_readerClosed (s : State) : s.writePipe.reader.closed = s.reader.closed := by
  rcases s.writePipe_reader.left with heq | heq
  . rw [heq]
  . rw [heq]
    rfl

structure Ends (s : State) : Prop where
  iCount : s.inode.iCount = (if s.reader.closed then 0 else 1) + (if s.writer.closed then 0 else 1)
  reader : s.reader.closed = true → s.reader.pc = .user
  writer : s.writer.closed = true → s.writer.pc = .user

def Broken (s : State) : Prop :=
  s.reader.closed = true ∧ s.inode.size = PAGE_SIZE - 1

def Drained (s : State) : Prop :=
  s.writer.closed = true ∧ s.inode.size = 0

theorem readPipe_closed (s : State) : s.readPipe.reader.closed = s.reader.closed := by
  unfold readPipe
  split
  . rfl
  . rfl
  . split
    . rfl
    . split
      . dsimp only
        split
        . rfl
        . rfl
      . rfl

theorem readPipe_iCount (s : State) : s.readPipe.inode.iCount = s.inode.iCount := by
  unfold readPipe
  split
  . rfl
  . rfl
  . split
    . rfl
    . split
      . dsimp only
        split
        . rfl
        . rfl
      . rfl

theorem writePipe_closed (s : State) : s.writePipe.writer.closed = s.writer.closed := by
  unfold writePipe
  split
  . split
    . rfl
    . rfl
  . rfl
  . dsimp only
    split
    . rfl
    . split
      . split
        . rfl
        . rfl
      . rfl

theorem writePipe_iCount (s : State) : s.writePipe.inode.iCount = s.inode.iCount := by
  unfold writePipe
  split
  . split
    . rfl
    . rfl
  . rfl
  . dsimp only
    split
    . rfl
    . split
      . split
        . rfl
        . rfl
      . rfl

theorem Ends.not_closed_reader {s : State} (h : s.Ends) (hpc : s.reader.pc ≠ .user) : s.reader.closed = false := by
  cases hclosed : s.reader.closed with
  | false => rfl
  | true => exact absurd (h.reader hclosed) hpc

theorem Ends.not_closed_writer {s : State} (h : s.Ends) (hpc : s.writer.pc ≠ .user) : s.writer.closed = false := by
  cases hclosed : s.writer.closed with
  | false => rfl
  | true => exact absurd (h.writer hclosed) hpc

theorem Ends.writer_closed_of_gone {s : State} (h : s.Ends) (hpc : s.reader.pc ≠ .user) (hgone : s.inode.iCount ≠ 2)
    : s.writer.closed = true := by
  have hopen := h.iCount
  rw [h.not_closed_reader hpc, if_neg Bool.false_ne_true] at hopen
  by_contra hclosed
  rw [if_neg hclosed] at hopen
  exact hgone hopen

theorem Ends.reader_closed_of_gone {s : State} (h : s.Ends) (hpc : s.writer.pc ≠ .user) (hgone : s.inode.iCount ≠ 2)
    : s.reader.closed = true := by
  have hopen := h.iCount
  rw [h.not_closed_writer hpc, if_neg Bool.false_ne_true] at hopen
  by_contra hclosed
  rw [if_neg hclosed] at hopen
  exact hgone hopen

theorem makes_ends {s s' : State} {a : Act} (h : s.Ends) (hmakes : s.Makes a s') : s'.Ends := by
  cases hmakes with
  | schedule => exact ⟨h.iCount, h.reader, h.writer⟩
  | preempt => exact ⟨h.iCount, h.reader, h.writer⟩
  | read count pc closed =>
    refine ⟨h.iCount, ?_, h.writer⟩
    intro htrue
    exact absurd (closed.symm.trans htrue) (by decide)
  | write buf pc closed =>
    refine ⟨h.iCount, h.reader, ?_⟩
    intro htrue
    exact absurd (closed.symm.trans htrue) (by decide)
  | close who pc close =>
    have hcount := h.iCount
    cases who with
    | reader =>
      simp only [State.close, Option.ite_none_left_eq_some, Option.some.injEq, Bool.not_eq_true] at close
      obtain ⟨hclosed, rfl⟩ := close
      refine ⟨?_, fun _ => Pc.wakeUp_eq_user.mpr pc, fun htrue => Pc.wakeUp_eq_user.mpr (h.writer htrue)⟩
      rw [hclosed, if_neg Bool.false_ne_true] at hcount
      show s.inode.iCount - 1 = 0 + (if s.writer.closed then 0 else 1)
      omega
    | writer =>
      simp only [State.close, Option.ite_none_left_eq_some, Option.some.injEq, Bool.not_eq_true] at close
      obtain ⟨hclosed, rfl⟩ := close
      refine ⟨?_, fun htrue => Pc.wakeUp_eq_user.mpr (h.reader htrue), fun _ => Pc.wakeUp_eq_user.mpr pc⟩
      rw [hclosed, if_neg Bool.false_ne_true] at hcount
      show s.inode.iCount - 1 = (if s.reader.closed then 0 else 1) + 0
      omega
  | runReader pc =>
    have hkeep := s.readPipe_keepsWriter
    refine ⟨?_, ?_, ?_⟩
    . rw [readPipe_iCount, readPipe_closed, readPipe_writerClosed]
      exact h.iCount
    . intro htrue
      rw [readPipe_closed, h.not_closed_reader pc] at htrue
      cases htrue
    . intro htrue
      rw [readPipe_writerClosed] at htrue
      exact hkeep.user.mpr (h.writer htrue)
  | runWriter pc =>
    have hkeep := s.writePipe_keepsReader
    refine ⟨?_, ?_, ?_⟩
    . rw [writePipe_iCount, writePipe_closed, writePipe_readerClosed]
      exact h.iCount
    . intro htrue
      rw [writePipe_readerClosed] at htrue
      exact hkeep.user.mpr (h.reader htrue)
    . intro htrue
      rw [writePipe_closed, h.not_closed_writer pc] at htrue
      cases htrue

-- A call of `read_pipe` for `count` bytes that has begun when `start` bytes had been delivered.
structure ReadCall (start count : Nat) (s : State) : Prop where
  busy : s.reader.pc ≠ .user →
    s.delivered.length + s.reader.pc.left = start + s.reader.read ∧ s.reader.read + s.reader.count = count
  done : s.reader.pc = .user →
    (s.delivered.length : Int) = start + s.reader.result ∧ (s.reader.result < count → s.Drained)

theorem ReadCall.keep {start count : Nat} {s s' : State} (h : s.ReadCall start count) (hkeep : s.KeepsReader s')
    (hdrained : s.Drained → s'.Drained)
    : s'.ReadCall start count := by
  constructor
  . intro hpc
    rw [hkeep.delivered, hkeep.left, hkeep.read, hkeep.count]
    exact h.busy fun huser => hpc (hkeep.user.mpr huser)
  . intro hpc
    rw [hkeep.delivered, hkeep.result]
    obtain ⟨hlength, hshort⟩ := h.done (hkeep.user.mp hpc)
    exact ⟨hlength, fun hlt => hdrained (hshort hlt)⟩

theorem readPipe_readCall {start count : Nat} {s : State} (h : s.ReadCall start count) (hends : s.Ends)
    (hpc : s.reader.pc ≠ .user)
    : s.readPipe.ReadCall start count := by
  obtain ⟨hlength, hcount⟩ := h.busy hpc
  unfold readPipe
  split
  . next size chars heq =>
    rw [heq] at hlength
    refine ⟨fun _ => ⟨?_, hcount⟩, fun huser => nomatch huser⟩
    show (s.delivered ++ [s.inode.page size]).length + chars = start + s.reader.read
    rw [List.length_append, List.length_singleton]
    change s.delivered.length + (chars + 1) = start + s.reader.read at hlength
    omega
  . next size heq =>
    rw [heq] at hlength
    exact ⟨fun _ => ⟨hlength, hcount⟩, fun huser => nomatch huser⟩
  . next hcopy _ =>
    rw [Pc.left_eq_zero hcopy, Nat.add_zero] at hlength
    split
    . next hzero =>
      refine ⟨fun hnot => absurd rfl hnot, fun _ => ⟨?_, ?_⟩⟩
      . show (s.delivered.length : Int) = start + s.reader.read
        omega
      . show (s.reader.read : Int) < count → _
        omega
    . split
      . next hempty =>
        dsimp only
        split
        . next hgone =>
          refine ⟨fun hnot => absurd rfl hnot, fun _ => ⟨?_, fun _ => ⟨?_, hempty⟩⟩⟩
          . show (s.delivered.length : Int) = start + s.reader.read
            omega
          . exact hends.writer_closed_of_gone hpc hgone
        . exact ⟨fun _ => ⟨hlength, hcount⟩, fun huser => nomatch huser⟩
      . refine ⟨fun _ => ?_, fun huser => nomatch huser⟩
        dsimp only [Pc.left]
        omega

theorem not_drained_of_busy {s : State} (hends : s.Ends) (hpc : s.writer.pc ≠ .user) : ¬s.Drained := by
  intro hdrained
  exact hpc (hends.writer hdrained.left)

theorem not_broken_of_busy {s : State} (hends : s.Ends) (hpc : s.reader.pc ≠ .user) : ¬s.Broken := by
  intro hbroken
  exact hpc (hends.reader hbroken.left)

theorem close_inode {s s' : State} {who : Who} (h : s.close who = some s')
    : s'.inode.size = s.inode.size ∧ (s.reader.closed = true → s'.reader.closed = true)
        ∧ (s.writer.closed = true → s'.writer.closed = true) := by
  cases who with
  | reader =>
    simp only [close, Option.ite_none_left_eq_some, Option.some.injEq] at h
    obtain ⟨_, rfl⟩ := h
    exact ⟨rfl, fun _ => rfl, id⟩
  | writer =>
    simp only [close, Option.ite_none_left_eq_some, Option.some.injEq] at h
    obtain ⟨_, rfl⟩ := h
    exact ⟨rfl, id, fun _ => rfl⟩

theorem close_keeps {s s' : State} {who : Who} (h : s.close who = some s') : s.KeepsReader s' ∧ s.KeepsWriter s' := by
  cases who with
  | reader =>
    simp only [close, Option.ite_none_left_eq_some, Option.some.injEq] at h
    obtain ⟨_, rfl⟩ := h
    exact ⟨⟨Pc.wakeUp_eq_user, Pc.left_wakeUp _, rfl, rfl, rfl, rfl⟩, .of_writer (.inr rfl) rfl⟩
  | writer =>
    simp only [close, Option.ite_none_left_eq_some, Option.some.injEq] at h
    obtain ⟨_, rfl⟩ := h
    exact ⟨.of_reader (.inr rfl) rfl, ⟨Pc.wakeUp_eq_user, Pc.left_wakeUp _, rfl, rfl, rfl, rfl, rfl, rfl⟩⟩

theorem makes_readCall {start count : Nat} {s s' : State} {a : Act} (h : s.ReadCall start count) (hends : s.Ends)
    (hread : ∀ count, a ≠ .read count) (hmakes : s.Makes a s')
    : s'.ReadCall start count := by
  cases hmakes with
  | schedule => exact h.keep (.of_reader (.inl rfl) rfl) id
  | preempt => exact h.keep (.of_reader (.inl rfl) rfl) id
  | read count => exact absurd rfl (hread count)
  | write => exact h.keep (.of_reader (.inl rfl) rfl) id
  | close who pc close =>
    obtain ⟨hsize, _, hclosed⟩ := close_inode close
    exact h.keep (close_keeps close).left fun hdrained => ⟨hclosed hdrained.left, hsize.trans hdrained.right⟩
  | runReader pc => exact readPipe_readCall h hends pc
  | runWriter pc =>
    exact h.keep s.writePipe_keepsReader fun hdrained => absurd hdrained (not_drained_of_busy hends pc)

def Counted (s : State) : Prop :=
  s.writer.pc ≠ .user → s.writer.pc.left + s.writer.count = s.writer.buf.length

theorem Counted.keep {s s' : State} (h : s.Counted) (hkeep : s.KeepsWriter s') : s'.Counted := by
  intro hpc
  rw [hkeep.left, hkeep.count, hkeep.buf]
  exact h fun huser => hpc (hkeep.user.mpr huser)

theorem Counted.cons {s : State} {size chars : Nat} (h : s.Counted) (hpc : s.writer.pc = .copy size (chars + 1))
    : ∃ byte buf, s.writer.buf = byte :: buf := by
  have hlength := h (by rw [hpc]; exact Pc.noConfusion)
  rw [hpc] at hlength
  change chars + 1 + s.writer.count = s.writer.buf.length at hlength
  apply List.exists_cons_of_length_pos
  omega

theorem writePipe_counted {s : State} (h : s.Counted) (hpc : s.writer.pc ≠ .user) : s.writePipe.Counted := by
  have hlength := h hpc
  unfold writePipe
  split
  . next size chars heq =>
    obtain ⟨byte, buf, hcons⟩ := h.cons heq
    rw [heq, hcons, List.length_cons] at hlength
    change chars + 1 + s.writer.count = buf.length + 1 at hlength
    rw [hcons]
    intro _
    show chars + s.writer.count = buf.length
    omega
  . next size heq =>
    rw [heq] at hlength
    exact fun _ => hlength
  . next hcopy _ =>
    rw [Pc.left_eq_zero hcopy] at hlength
    dsimp only
    split
    . exact fun hnot => absurd rfl hnot
    . split
      . split
        . exact fun hnot => absurd rfl hnot
        . exact fun _ => hlength
      . intro _
        dsimp only [Pc.left]
        omega

theorem makes_counted {s s' : State} {a : Act} (h : s.Counted) (hmakes : s.Makes a s') : s'.Counted := by
  cases hmakes with
  | schedule => exact h
  | preempt => exact h
  | read => exact h
  | write buf =>
    intro _
    exact Nat.zero_add _
  | close who pc close => exact h.keep (close_keeps close).right
  | runReader pc => exact h.keep s.readPipe_keepsWriter
  | runWriter pc => exact writePipe_counted h pc

-- A call of `write_pipe` that finds the pipe broken before it has stored a byte.
structure Refused (start : Nat) (s : State) : Prop where
  broken : s.Broken
  stored : s.stored.length = start
  sigpipe : s.writer.sigpipe = true
  result : s.writer.result = -1

-- A call of `write_pipe` for `count` bytes that has begun when `start` bytes had been stored.
structure WriteCall (start count : Nat) (s : State) : Prop where
  busy : s.writer.pc ≠ .user →
    s.stored.length + s.writer.pc.left = start + s.writer.written ∧ s.writer.written + s.writer.count = count
  done : s.writer.pc = .user → (s.stored.length : Int) = start + s.writer.result ∨ s.Refused start

theorem WriteCall.keep {start count : Nat} {s s' : State} (h : s.WriteCall start count) (hkeep : s.KeepsWriter s')
    (hbroken : s.Broken → s'.Broken)
    : s'.WriteCall start count := by
  constructor
  . intro hpc
    rw [hkeep.stored, hkeep.left, hkeep.written, hkeep.count]
    exact h.busy fun huser => hpc (hkeep.user.mpr huser)
  . intro hpc
    rw [hkeep.stored, hkeep.result]
    rcases h.done (hkeep.user.mp hpc) with hlength | hrefused
    . exact .inl hlength
    . refine .inr ⟨hbroken hrefused.broken, ?_, ?_, ?_⟩
      . rw [hkeep.stored]
        exact hrefused.stored
      . rw [hkeep.sigpipe]
        exact hrefused.sigpipe
      . rw [hkeep.result]
        exact hrefused.result

theorem writePipe_writeCall {start count : Nat} {s : State} (h : s.WriteCall start count) (hends : s.Ends)
    (hcounted : s.Counted) (hpc : s.writer.pc ≠ .user)
    : s.writePipe.WriteCall start count := by
  obtain ⟨hlength, hcount⟩ := h.busy hpc
  unfold writePipe
  split
  . next size chars heq =>
    rw [heq] at hlength
    change s.stored.length + (chars + 1) = start + s.writer.written at hlength
    obtain ⟨byte, buf, hcons⟩ := hcounted.cons heq
    rw [hcons]
    refine ⟨fun _ => ⟨?_, hcount⟩, fun huser => nomatch huser⟩
    show (s.stored ++ [byte]).length + chars = start + s.writer.written
    rw [List.length_append, List.length_singleton]
    omega
  . next size heq =>
    rw [heq] at hlength
    exact ⟨fun _ => ⟨hlength, hcount⟩, fun huser => nomatch huser⟩
  . next hcopy _ =>
    rw [Pc.left_eq_zero hcopy] at hlength
    dsimp only
    split
    . refine ⟨fun hnot => absurd rfl hnot, fun _ => .inl ?_⟩
      show (s.stored.length : Int) = start + s.writer.written
      omega
    . split
      . next hfull =>
        split
        . next hgone =>
          refine ⟨fun hnot => absurd rfl hnot, fun _ => ?_⟩
          have hclosed := hends.reader_closed_of_gone hpc hgone
          by_cases hwritten : s.writer.written = 0
          . refine .inr ⟨⟨hclosed, ?_⟩, ?_, rfl, ?_⟩
            . have hsize := s.inode.size_lt
              show s.inode.size = PAGE_SIZE - 1
              omega
            . show s.stored.length = start
              omega
            . show (if s.writer.written ≠ 0 then (s.writer.written : Int) else -1) = -1
              rw [if_neg (by omega)]
          . refine .inl ?_
            show (s.stored.length : Int) = start + (if s.writer.written ≠ 0 then (s.writer.written : Int) else -1)
            rw [if_pos hwritten]
            omega
        . exact ⟨fun _ => ⟨hlength, hcount⟩, fun huser => nomatch huser⟩
      . refine ⟨fun _ => ?_, fun huser => nomatch huser⟩
        dsimp only [Pc.left]
        omega

theorem readPipe_broken {s : State} (hends : s.Ends) (hpc : s.reader.pc ≠ .user) (h : s.Broken) : s.readPipe.Broken :=
  absurd h (not_broken_of_busy hends hpc)

theorem makes_writeCall {start count : Nat} {s s' : State} {a : Act} (h : s.WriteCall start count) (hends : s.Ends)
    (hcounted : s.Counted) (hwrite : ∀ buf, a ≠ .write buf) (hmakes : s.Makes a s')
    : s'.WriteCall start count := by
  cases hmakes with
  | schedule => exact h.keep (.of_writer (.inl rfl) rfl) id
  | preempt => exact h.keep (.of_writer (.inl rfl) rfl) id
  | read => exact h.keep (.of_writer (.inl rfl) rfl) fun hbroken => ⟨hbroken.left, hbroken.right⟩
  | write buf => exact absurd rfl (hwrite buf)
  | close who pc close =>
    obtain ⟨hsize, hclosed, _⟩ := close_inode close
    exact h.keep (close_keeps close).right fun hbroken => ⟨hclosed hbroken.left, hsize.trans hbroken.right⟩
  | runReader pc => exact h.keep s.readPipe_keepsWriter (readPipe_broken hends pc)
  | runWriter pc => exact writePipe_writeCall h hends hcounted pc

def pending (s : State) : List Byte :=
  if s.writer.pc = .user then [] else s.writer.buf

def Stores (s : State) (given : List Byte) : Prop :=
  ∃ rest, given = s.stored ++ rest ∧ (rest = s.pending ∨ s.Broken ∧ s.writer.pc.left = 0)

theorem pending_of_user {s : State} (hpc : s.writer.pc = .user) : s.pending = [] :=
  if_pos hpc

theorem pending_of_busy {s : State} (hpc : s.writer.pc ≠ .user) : s.pending = s.writer.buf :=
  if_neg hpc

theorem KeepsWriter.pending {s s' : State} (h : s.KeepsWriter s') : s'.pending = s.pending := by
  unfold State.pending
  rw [h.buf]
  simp only [h.user]

theorem Stores.keep {s s' : State} {given : List Byte} (h : s.Stores given) (hkeep : s.KeepsWriter s')
    (hbroken : s.Broken → s'.Broken)
    : s'.Stores given := by
  obtain ⟨rest, hgiven, hrest⟩ := h
  refine ⟨rest, ?_, ?_⟩
  . rw [hkeep.stored]
    exact hgiven
  . rw [hkeep.pending, hkeep.left]
    exact hrest.imp_right fun h => ⟨hbroken h.left, h.right⟩

theorem writePipe_stores {s : State} {given : List Byte} (h : s.Stores given) (hends : s.Ends) (hcounted : s.Counted)
    (hpc : s.writer.pc ≠ .user)
    : s.writePipe.Stores given := by
  obtain ⟨rest, hgiven, hrest⟩ := h
  rw [pending_of_busy hpc] at hrest
  have hlength := hcounted hpc
  unfold writePipe
  split
  . next size chars heq =>
    obtain ⟨byte, buf, hcons⟩ := hcounted.cons heq
    rw [hcons]
    rcases hrest with hrest | ⟨_, hleft⟩
    . refine ⟨buf, ?_, .inl ?_⟩
      . rw [hgiven, hrest, hcons]
        exact (List.append_assoc _ [byte] buf).symm
      . rfl
    . rw [heq] at hleft
      cases hleft
  . next size heq =>
    refine ⟨rest, hgiven, ?_⟩
    rcases hrest with hrest | hbroken
    . exact .inl hrest
    . exact .inr ⟨hbroken.left, rfl⟩
  . next hcopy _ =>
    rw [Pc.left_eq_zero hcopy, Nat.zero_add] at hlength
    dsimp only
    split
    . next hzero =>
      refine ⟨rest, hgiven, ?_⟩
      rcases hrest with hrest | hbroken
      . have hnil : s.writer.buf = [] := List.eq_nil_of_length_eq_zero (hlength.symm.trans hzero)
        exact .inl ((hrest.trans hnil).trans (pending_of_user rfl).symm)
      . exact .inr ⟨hbroken.left, rfl⟩
    . split
      . next hfull =>
        have hsize := s.inode.size_lt
        split
        . next hgone =>
          refine ⟨rest, hgiven, .inr ⟨⟨hends.reader_closed_of_gone hpc hgone, ?_⟩, rfl⟩⟩
          show s.inode.size = PAGE_SIZE - 1
          omega
        . refine ⟨rest, hgiven, ?_⟩
          rcases hrest with hrest | hbroken
          . exact .inl hrest
          . exact .inr ⟨⟨hbroken.left.left, hbroken.left.right⟩, rfl⟩
      . next hroom =>
        refine ⟨rest, hgiven, ?_⟩
        rcases hrest with hrest | hbroken
        . exact .inl hrest
        . rw [hbroken.left.right, Nat.sub_self] at hroom
          exact absurd rfl hroom

theorem makes_stores {given : List Byte} {s s' : State} {a : Act} (h : s.Stores given) (hends : s.Ends)
    (hcounted : s.Counted) (hmakes : s.Makes a s')
    : s'.Stores (given ++ a.given) := by
  cases hmakes with
  | schedule =>
    show Stores _ (given ++ [])
    rw [List.append_nil]
    exact h.keep (.of_writer (.inl rfl) rfl) id
  | preempt =>
    show Stores _ (given ++ [])
    rw [List.append_nil]
    exact h.keep (.of_writer (.inl rfl) rfl) id
  | read =>
    show Stores _ (given ++ [])
    rw [List.append_nil]
    exact h.keep (.of_writer (.inl rfl) rfl) fun hbroken => ⟨hbroken.left, hbroken.right⟩
  | write buf pc =>
    obtain ⟨rest, hgiven, hrest⟩ := h
    rw [pending_of_user pc] at hrest
    refine ⟨rest ++ buf, ?_, ?_⟩
    . rw [hgiven, List.append_assoc]
      rfl
    . rcases hrest with hrest | hbroken
      . rw [hrest]
        exact .inl rfl
      . exact .inr ⟨hbroken.left, rfl⟩
  | close who pc close =>
    obtain ⟨hsize, hclosed, _⟩ := close_inode close
    show Stores _ (given ++ [])
    rw [List.append_nil]
    exact h.keep (close_keeps close).right fun hbroken => ⟨hclosed hbroken.left, hsize.trans hbroken.right⟩
  | runReader pc =>
    show Stores _ (given ++ [])
    rw [List.append_nil]
    exact h.keep s.readPipe_keepsWriter (readPipe_broken hends pc)
  | runWriter pc =>
    show Stores _ (given ++ [])
    rw [List.append_nil]
    exact writePipe_stores h hends hcounted pc

theorem Inv.delivered_prefix {s : State} (h : s.Inv) : s.delivered <+: s.stored := by
  cases h.phase with
  | rest _ _ bytes => exact ⟨_, bytes.symm⟩
  | reading _ _ _ _ _ _ _ _ bytes => exact ⟨_, bytes.symm⟩
  | writing _ _ _ _ _ _ _ _ _ bytes => exact ⟨_, bytes.symm⟩

structure Sane (given : List Byte) (s : State) : Prop where
  inv : s.Inv
  ends : s.Ends
  counted : s.Counted
  stores : s.Stores given

theorem init_sane : init.Sane [] := by
  refine ⟨init_inv, ?_, ?_, ?_⟩
  . exact ⟨rfl, fun _ => rfl, fun _ => rfl⟩
  . exact fun hnot => absurd rfl hnot
  . exact ⟨[], rfl, .inl rfl⟩

theorem step_sane {given : List Byte} {s s' : State} {a : Act} (h : s.Sane given) (hfault : a ≠ .fault)
    (hstep : s.step a = some s')
    : s'.Sane (given ++ a.given) := by
  have hmakes := step_makes hfault hstep
  constructor
  . exact step_inv h.inv hfault hstep
  . exact makes_ends h.ends hmakes
  . exact makes_counted h.counted hmakes
  . exact makes_stores h.stores h.ends h.counted hmakes

theorem exec_sane {given₀ : List Byte} {s₀ s : State} {acts : List Act} (h : s₀.Sane given₀)
    (hfault : Act.fault ∉ acts) (hexec : Run.exec step s₀ acts = some s)
    : s.Sane (given₀ ++ given acts) := by
  induction acts using List.reverseRecOn generalizing s with
  | nil =>
    cases hexec
    rw [given, List.flatMap_nil, List.append_nil]
    exact h
  | append_singleton acts a ih =>
    obtain ⟨t, ht, hstep⟩ := Run.exec_append_singleton hexec
    rw [List.mem_append, List.mem_singleton, not_or] at hfault
    rw [given, List.flatMap_append, List.flatMap_singleton, ← List.append_assoc]
    exact step_sane (ih hfault.left ht) (Ne.symm hfault.right) hstep

theorem exec_readCall {start count : Nat} {bytes : List Byte} {s₀ s : State} {acts : List Act} (h : s₀.Sane bytes)
    (hcall : s₀.ReadCall start count) (hfault : Act.fault ∉ acts) (hread : ∀ count, Act.read count ∉ acts)
    (hexec : Run.exec step s₀ acts = some s)
    : s.ReadCall start count := by
  induction acts using List.reverseRecOn generalizing s with
  | nil =>
    cases hexec
    exact hcall
  | append_singleton acts a ih =>
    obtain ⟨t, ht, hstep⟩ := Run.exec_append_singleton hexec
    simp only [List.mem_append, List.mem_singleton, not_or] at hfault hread
    have hsane := exec_sane h hfault.left ht
    apply makes_readCall (ih hfault.left (fun count => (hread count).left) ht) hsane.ends
    . exact fun count => Ne.symm (hread count).right
    . exact step_makes (Ne.symm hfault.right) hstep

theorem exec_writeCall {start count : Nat} {bytes : List Byte} {s₀ s : State} {acts : List Act} (h : s₀.Sane bytes)
    (hcall : s₀.WriteCall start count) (hfault : Act.fault ∉ acts) (hwrite : ∀ buf, Act.write buf ∉ acts)
    (hexec : Run.exec step s₀ acts = some s)
    : s.WriteCall start count := by
  induction acts using List.reverseRecOn generalizing s with
  | nil =>
    cases hexec
    exact hcall
  | append_singleton acts a ih =>
    obtain ⟨t, ht, hstep⟩ := Run.exec_append_singleton hexec
    simp only [List.mem_append, List.mem_singleton, not_or] at hfault hwrite
    have hsane := exec_sane h hfault.left ht
    apply makes_writeCall (ih hfault.left (fun buf => (hwrite buf).left) ht) hsane.ends hsane.counted
    . exact fun buf => Ne.symm (hwrite buf).right
    . exact step_makes (Ne.symm hfault.right) hstep

-- The call of `write_pipe` that begins in the state `t` has returned the number of bytes it has stored.
def Moved (t s : State) : Prop :=
  (s.stored.length : Int) = t.stored.length + s.writer.result

def MovedOrRefused (t s : State) : Prop :=
  t.Moved s ∨ s.Refused t.stored.length

/--
What the calls of a run are to give the two tasks, where `Wrote t s` is said of a call of `write_pipe` that begins in
the state `t` and has returned in the state `s`.
-/
structure Serves (Wrote : State → State → Prop) (acts : List Act) (s : State) : Prop where
  received : s.delivered <+: s.stored
  written : s.stored <+: given acts
  size_le : s.inode.size ≤ 4095
  read : ∀ before (count : Nat) during t, acts = before ++ .read count :: during → (∀ n, Act.read n ∉ during) →
    s.reader.pc = .user → Run.exec step init before = some t →
      (s.delivered.length : Int) = t.delivered.length + s.reader.result
        ∧ (s.reader.result < count → s.inode.size = 0 ∧ s.writer.closed = true)
  write : ∀ before buf during t, acts = before ++ .write buf :: during → (∀ buf, Act.write buf ∉ during) →
    s.writer.pc = .user → Run.exec step init before = some t → Wrote t s

theorem exec_split {before during : List Act} {a : Act} {s t : State}
    (hexec : Run.exec step init (before ++ a :: during) = some s) (ht : Run.exec step init before = some t)
    : ∃ t', t.step a = some t' ∧ Run.exec step t' during = some s := by
  rw [Run.exec_append, ht, Option.bind_some, Run.exec] at hexec
  split at hexec
  . next t' hstep => exact ⟨t', hstep, hexec⟩
  . cases hexec

/--
In every run without a fault in the copying loops the reader gets the bytes that the writer has been given, in their
order; a call of `read_pipe` that returns less than it was asked for has found the pipe empty and the writer gone; and
the calls return the number of bytes they have moved, except that `write_pipe` gets a signal and returns -1 if it finds
the pipe full and the reader gone before it has moved a byte.
-/
theorem serves_of_exec {acts : List Act} {s : State} (hexec : Run.exec step init acts = some s)
    (hfault : Act.fault ∉ acts)
    : Serves MovedOrRefused acts s := by
  have hsane := exec_sane init_sane hfault hexec
  constructor
  . exact hsane.inv.delivered_prefix
  . obtain ⟨rest, hgiven, _⟩ := hsane.stores
    exact ⟨rest, hgiven.symm⟩
  . exact Nat.le_of_lt_succ s.inode.size_lt
  . intro before count during t hacts hread hpc ht
    subst hacts
    simp only [List.mem_append, List.mem_cons, not_or] at hfault
    obtain ⟨t', hstep, hduring⟩ := exec_split hexec ht
    have hsane' := exec_sane init_sane hfault.left ht
    have hcall : t'.ReadCall t.delivered.length count := by
      cases step_makes (Ne.symm hfault.right.left) hstep with
      | read => exact ⟨fun _ => ⟨rfl, Nat.zero_add _⟩, fun huser => nomatch huser⟩
    have hreturn := exec_readCall (step_sane hsane' (Ne.symm hfault.right.left) hstep) hcall hfault.right.right hread hduring
    exact hreturn.done hpc |>.imp_right fun hshort hlt => (hshort hlt).symm
  . intro before buf during t hacts hwrite hpc ht
    subst hacts
    simp only [List.mem_append, List.mem_cons, not_or] at hfault
    obtain ⟨t', hstep, hduring⟩ := exec_split hexec ht
    have hsane' := exec_sane init_sane hfault.left ht
    have hcall : t'.WriteCall t.stored.length buf.length := by
      cases step_makes (Ne.symm hfault.right.left) hstep with
      | write => exact ⟨fun _ => ⟨rfl, Nat.zero_add _⟩, fun huser => nomatch huser⟩
    have hsane'' := step_sane hsane' (Ne.symm hfault.right.left) hstep
    exact (exec_writeCall hsane'' hcall hfault.right.right hwrite hduring).done hpc

theorem serves_passRun : ∃ s, Run.exec step init passRun = some s ∧ Serves MovedOrRefused passRun s :=
  ⟨_, rfl, serves_of_exec rfl (by decide)⟩

theorem exec_store {s : State} {size chars : Nat} {buf rest : List Byte} (hcurrent : s.current = some .writer)
    (hpc : s.writer.pc = .copy size chars) (hbuf : s.writer.buf = buf ++ rest) (hlength : buf.length = chars)
    : ∃ page stored, Run.exec step s (List.replicate chars .run)
        = some { s with
            writer := { s.writer with pc := .copy (size + chars) 0, buf := rest }
            inode := { s.inode with page }
            stored } := by
  induction buf generalizing s size chars with
  | nil =>
    subst hlength
    rw [List.nil_append] at hbuf
    refine ⟨s.inode.page, s.stored, ?_⟩
    rw [List.length_nil] at hpc
    rw [List.length_nil, List.replicate_zero, Run.exec, Nat.add_zero, ← hpc, ← hbuf]
  | cons byte buf ih =>
    subst hlength
    rw [List.cons_append] at hbuf
    rw [List.length_cons] at hpc
    have hwrite : s.writePipe
        = { s with
            writer := { s.writer with pc := .copy (size + 1) buf.length, buf := buf ++ rest }
            inode := { s.inode with page := Function.update s.inode.page size byte }
            stored := s.stored ++ [byte] } := by
      unfold writePipe
      rw [hpc]
      dsimp only
      rw [hbuf]
    have hstep : s.step .run = some s.writePipe := by
      simp [step, hcurrent, act, pc, hpc]
    obtain ⟨page, stored, hexec⟩ := @ih s.writePipe (size + 1) buf.length (by rw [hwrite]; exact hcurrent)
      (by rw [hwrite]) (by rw [hwrite]) rfl
    refine ⟨page, stored, ?_⟩
    rw [List.length_cons, List.replicate_succ, Run.exec, hstep]
    dsimp only
    rw [hexec, hwrite, Nat.add_right_comm, Nat.add_assoc]

def fillRun (buf : List Byte) : List Act :=
  ([.schedule .reader, .close, .preempt, .schedule .writer, .write buf, .run] : List Act)
    ++ (List.replicate buf.length Act.run ++ ([.run, .run] : List Act))

def filling (buf : List Byte) : State :=
  { init with
    inode := { init.inode with head := 4095, iCount := 1 }
    reader := { init.reader with closed := true }
    writer := { init.writer with pc := .copy 0 4095, buf, count := 0, written := 4095 }
    current := some .writer }

theorem exec_filling {buf : List Byte} (h : buf.length = 4095)
    : Run.exec step init [.schedule .reader, .close, .preempt, .schedule .writer, .write buf, .run]
        = some (filling buf) := by
  show Run.exec step
    { init with
      inode := { init.inode with iCount := 1 }
      reader := { init.reader with closed := true }
      writer := { init.writer with pc := .loop, buf, count := buf.length, written := 0 }
      current := some .writer } [.run] = _
  rw [h]
  simp [Run.exec, step, act, State.pc, writePipe, Inode.size, PAGE_SIZE, filling, init]

theorem exec_fillRun {buf : List Byte} (h : buf.length = 4095)
    : ∃ page stored, Run.exec step init (fillRun buf)
        = some { filling [] with
            inode := { (filling []).inode with page }
            writer := { (filling []).writer with pc := .user, result := 4095 }
            stored } := by
  obtain ⟨page, stored, hstore⟩ := @exec_store (filling buf) 0 4095 buf [] rfl rfl (List.append_nil _).symm h
  refine ⟨page, stored, ?_⟩
  rw [fillRun, Run.exec_append, exec_filling h, Option.bind_some, Run.exec_append, h, hstore]
  rfl

theorem fault_not_mem_fillRun (buf : List Byte) : Act.fault ∉ fillRun buf := by
  simp [fillRun, List.mem_replicate]

def refusedRun : List Act :=
  fillRun (List.replicate 4095 7) ++ ([.write [7], .run] : List Act)

theorem not_serves_refusedRun
    : ∃ s, Run.exec step init refusedRun = some s ∧ Act.fault ∉ refusedRun ∧ ¬Serves Moved refusedRun s := by
  obtain ⟨page, stored, hfill⟩ := @exec_fillRun (List.replicate 4095 7) List.length_replicate
  refine ⟨{ filling [] with
    inode := { (filling []).inode with page }
    writer := { (filling []).writer with
      buf := [7], count := 1, written := 0, pc := .user, sigpipe := true, result := -1 }
    stored }, ?_, ?_, ?_⟩
  . rw [refusedRun, Run.exec_append, hfill]
    simp [Run.exec, step, act, State.pc, writePipe, Inode.size, PAGE_SIZE, filling, init, wakeUp, Pc.wakeUp]
  . rw [refusedRun, List.mem_append, not_or]
    exact ⟨fault_not_mem_fillRun _, by decide⟩
  . intro hserves
    have hmoved := hserves.write (fillRun (List.replicate 4095 7)) [7] [.run] _ rfl (by simp) rfl hfill
    change (stored.length : Int) = stored.length + -1 at hmoved
    omega

end State
end Pipe
end OS
