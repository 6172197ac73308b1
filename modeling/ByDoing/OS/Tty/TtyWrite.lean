import ByDoing.Lib.Run
import ByDoing.OS.Tty.Terminal
import Mathlib.Data.Fintype.Basic

namespace OS
namespace Tty

namespace Writing

abbrev Channel := Fin 3

-- Where a task is: not in `tty_write`, in front of a round of the outer loop, in `sleep_if_full`, in front of a round
-- of the inner loop, in `get_fs_byte`, in front of `tty->write`, or in `schedule`.
inductive Pc where
  | user
  | outer
  | full
  | inner
  | fetch
  | write
  | schedule
  deriving DecidableEq

-- The places at which a task may give up the processor; in `get_fs_byte` it may have to wait for a page.
def Pc.resting : Pc → Bool
  | .user => true
  | .full => true
  | .fetch => true
  | .schedule => true
  | _ => false

-- `buf` is what is left of the data of the call, and `signal` whether there is a signal.
structure Writer where
  pc : Pc
  buf : List Byte
  signal : Bool

-- `given` is the data of the calls for a terminal, as far as they have not returned without writing it. `queued` is
-- what has been put into its write queue by them, and `half` is set if this ends with the CR of a newline which is not
-- used up.
structure State where
  writeQ : Channel → TtyQueue
  writer : Channel → Writer
  crFlag : Bool
  given : Channel → List Byte
  queued : Channel → List Byte
  half : Channel → Bool

-- A call, something that a task does, something that happens in an interrupt or in `tty->write`, which takes
-- characters from a queue: `n` characters are taken, or one is echoed. A signal comes, or is taken.
inductive Act where
  | call (i : Channel) (buf : List Byte)
  | run (i : Channel)
  | drain (i : Channel) (n : Nat)
  | echo (i : Channel) (c : Byte)
  | signal (i : Channel)
  | handle (i : Channel)

def takeOne (q : TtyQueue) : TtyQueue :=
  if q.EMPTY then q else q.GETCH.snd

namespace State

def setWriter (s : State) (i : Channel) (w : Writer) : State :=
  { s with writer := Function.update s.writer i w }

def goto (s : State) (i : Channel) (pc : Pc) : State :=
  s.setWriter i { s.writer i with pc }

def leave (s : State) (i : Channel) : State :=
  let w := s.writer i
  { s with
    writer := Function.update s.writer i { w with pc := .user, buf := [] }
    given := Function.update s.given i ((s.given i).take ((s.given i).length - w.buf.length)) }

-- What is done behind `sleep_if_full`.
def awake (s : State) (i : Channel) : State :=
  if (s.writer i).signal then s.leave i else s.goto i .inner

variable (ctype : CType) (termios : Channel → Termios)

def put (s : State) (i : Channel) : State :=
  let w := s.writer i
  match w.buf with
  | [] => s
  | c :: rest =>
    let out := nextOut ctype (termios i) s.crFlag c
    { s with
      writeQ := Function.update s.writeQ i ((s.writeQ i).PUTCH out.fst)
      writer := Function.update s.writer i { w with pc := .inner, buf := if out.snd then w.buf else rest }
      crFlag := out.snd
      queued := Function.update s.queued i (s.queued i ++ [out.fst])
      half := Function.update s.half i out.snd }

def run (s : State) (i : Channel) : Option State :=
  let w := s.writer i
  let q := s.writeQ i
  match w.pc with
  | .user => none
  | .outer => if w.buf = [] then some (s.leave i) else if q.FULL then some (s.goto i .full) else some (s.awake i)
  | .full => if w.signal ∨ 128 ≤ q.LEFT then some (s.awake i) else none
  | .inner => some (s.goto i (if w.buf = [] ∨ q.FULL then .write else .fetch))
  | .fetch => some (s.put ctype termios i)
  | .write => some (s.goto i (if w.buf = [] then .outer else .schedule))
  | .schedule => some (s.goto i .outer)

def step (s : State) : Act → Option State
  | .call i buf =>
    if (s.writer i).pc = .user then
      some
        { s with
          writer := Function.update s.writer i { s.writer i with pc := .outer, buf }
          given := Function.update s.given i (s.given i ++ buf) }
    else
      none
  | .run i => if ∀ j, j ≠ i → (s.writer j).pc.resting then s.run ctype termios i else none
  | .drain i n => some { s with writeQ := Function.update s.writeQ i (takeOne^[n] (s.writeQ i)) }
  | .echo i c => some { s with writeQ := Function.update s.writeQ i ((s.writeQ i).PUTCH c) }
  | .signal i => some (s.setWriter i { s.writer i with signal := true })
  | .handle i => if (s.writer i).pc = .user then some (s.setWriter i { s.writer i with signal := false }) else none

end State

-- What `c_oflag` makes of a character before newlines are expanded.
def mapped (t : Termios) (c : Byte) : Byte :=
  if c = 13 ∧ t.O_CRNL then 10 else if c = 10 ∧ t.O_NLRET then 13 else c

def expands (t : Termios) (c : Byte) : Bool :=
  t.O_POST && mapped t c == 10 && t.O_NLCR

def processed (ctype : CType) (t : Termios) (c : Byte) : List Byte :=
  if expands t c then
    [13, 10]
  else if t.O_POST then
    [if t.O_LCUC then ctype.toupper (mapped t c) else mapped t c]
  else
    [c]

def output (ctype : CType) (t : Termios) (data : List Byte) : List Byte :=
  data.flatMap (processed ctype t)

namespace State

variable (ctype : CType) (termios : Channel → Termios)

structure Exact (s : State) (i : Channel) : Prop where
  user : (s.writer i).pc = .user → s.queued i = output ctype (termios i) (s.given i)
  busy : ∃ done, s.given i = done ++ (s.writer i).buf ∧
    (s.queued i = output ctype (termios i) done ∨
      ∃ c rest, (s.writer i).buf = c :: rest ∧ expands (termios i) c = true ∧
        s.queued i = output ctype (termios i) done ++ [13])

structure Start (s : State) : Prop where
  user : ∀ i, (s.writer i).pc = .user
  buf : ∀ i, (s.writer i).buf = []
  given : ∀ i, s.given i = []
  queued : ∀ i, s.queued i = []
  half : ∀ i, s.half i = false

def cutShort (s : State) (i : Channel) : Bool :=
  let w := s.writer i
  w.signal && (w.pc == .full || w.pc == .outer && w.buf != [] && !(s.writeQ i).FULL)

def Kept (s : State) : Act → Prop
  | .run i =>
    ((s.writer i).pc = .fetch → ∀ c ∈ (s.writer i).buf.head?, expands (termios i) c → s.crFlag = s.half i)
      ∧ (s.cutShort i = true → s.half i = false)
  | _ => True

end State

section NextOut

variable {ctype : CType} {t : Termios} {c : Byte}

theorem nextOut_of_not_expands (ctype : CType) (h : expands t c = false) (crFlag : Bool)
    : ∃ x, nextOut ctype t crFlag c = (x, false) ∧ processed ctype t c = [x] := by
  unfold processed
  rw [if_neg (Bool.not_eq_true _ ▸ h)]
  unfold nextOut
  unfold expands at h
  split
  . next hpost =>
    rw [hpost, Bool.true_and] at h
    refine ⟨_, if_neg ?_, rfl⟩
    rintro ⟨hnewline, _, hnlcr⟩
    rw [hnlcr, Bool.and_true, beq_eq_false_iff_ne] at h
    exact h hnewline
  . exact ⟨c, rfl, rfl⟩

theorem expands_iff : expands t c = true ↔ t.O_POST = true ∧ mapped t c = 10 ∧ t.O_NLCR = true := by
  simp [expands, and_assoc]

theorem toupper_newline : ctype.toupper 10 = 10 := by
  unfold CType.toupper
  rw [ctype.islower_eq 10 (by decide)]
  rfl

theorem nextOut_of_expands (ctype : CType) (h : expands t c = true) (crFlag : Bool)
    : nextOut ctype t crFlag c = if crFlag then (10, false) else (13, true) := by
  obtain ⟨hpost, hmapped, hnlcr⟩ := expands_iff.mp h
  unfold nextOut
  rw [if_pos hpost]
  change (if mapped t c = 10 ∧ !crFlag ∧ t.O_NLCR then (13, true)
    else (if t.O_LCUC then ctype.toupper (mapped t c) else mapped t c, false)) = _
  rw [hmapped, toupper_newline, ite_self]
  cases crFlag with
  | false => exact if_pos ⟨rfl, rfl, hnlcr⟩
  | true => exact if_neg fun hcr => Bool.false_ne_true hcr.right.left

theorem processed_of_expands (h : expands t c = true) : processed ctype t c = [13, 10] :=
  if_pos h

theorem output_append_singleton (data : List Byte)
    : output ctype t (data ++ [c]) = output ctype t data ++ processed ctype t c := by
  unfold output
  rw [List.flatMap_append, List.flatMap_singleton]

end NextOut

namespace State

variable {ctype : CType} {termios : Channel → Termios} {s s' : State} {i j : Channel}

-- What holds between two rounds. The CR of a newline that comes next is all that is queued beyond the output.
variable (ctype termios) in
structure Inv (s : State) (i : Channel) : Prop where
  user : (s.writer i).pc = .user → (s.writer i).buf = []
  fetch : (s.writer i).pc = .fetch → (s.writer i).buf ≠ []
  half : s.half i = true → ∃ c ∈ (s.writer i).buf.head?, expands (termios i) c = true
  data : ∃ done, s.given i = done ++ (s.writer i).buf ∧
    s.queued i = output ctype (termios i) done ++ (if s.half i then [13] else [])

theorem Inv.half_eq_false (h : s.Inv ctype termios i) (hbuf : (s.writer i).buf = []) : s.half i = false := by
  by_contra htrue
  obtain ⟨c, hc, _⟩ := h.half (Bool.eq_true_of_not_eq_false htrue)
  rw [hbuf] at hc
  cases hc

theorem Inv.exact (h : s.Inv ctype termios i) : s.Exact ctype termios i := by
  obtain ⟨done, hgiven, hqueued⟩ := h.data
  constructor
  . intro huser
    have hbuf := h.user huser
    rw [h.half_eq_false hbuf, if_neg Bool.false_ne_true, List.append_nil] at hqueued
    rw [hqueued, hgiven, hbuf, List.append_nil]
  . refine ⟨done, hgiven, ?_⟩
    cases hhalf : s.half i with
    | false =>
      rw [hhalf, if_neg Bool.false_ne_true, List.append_nil] at hqueued
      exact .inl hqueued
    | true =>
      rw [hhalf, if_pos rfl] at hqueued
      obtain ⟨c, hc, hexpands⟩ := h.half hhalf
      obtain ⟨rest, hbuf⟩ := List.head?_eq_some_iff.mp hc
      exact .inr ⟨c, rest, hbuf, hexpands, hqueued⟩

theorem Start.inv (h : s.Start) (i : Channel) : s.Inv ctype termios i := by
  constructor
  . intro _
    exact h.buf i
  . intro hfetch
    rw [h.user i] at hfetch
    cases hfetch
  . intro hhalf
    rw [h.half i] at hhalf
    cases hhalf
  . refine ⟨[], ?_, ?_⟩
    . rw [h.given i, h.buf i]
      rfl
    . rw [h.queued i, h.half i]
      rfl

structure Same (s s' : State) (i : Channel) : Prop where
  writer : s'.writer i = s.writer i
  given : s'.given i = s.given i
  queued : s'.queued i = s.queued i
  half : s'.half i = s.half i

theorem Same.refl (s : State) (i : Channel) : s.Same s i :=
  ⟨rfl, rfl, rfl, rfl⟩

theorem Inv.of_same (h : s.Inv ctype termios i) (hsame : s.Same s' i) : s'.Inv ctype termios i := by
  constructor
  . rw [hsame.writer]
    exact h.user
  . rw [hsame.writer]
    exact h.fetch
  . rw [hsame.writer, hsame.half]
    exact h.half
  . rw [hsame.writer, hsame.given, hsame.queued, hsame.half]
    exact h.data

theorem setWriter_same (w : Writer) (hne : j ≠ i) : s.Same (s.setWriter i w) j :=
  ⟨Function.update_of_ne hne _ _, rfl, rfl, rfl⟩

theorem leave_same (hne : j ≠ i) : s.Same (s.leave i) j :=
  ⟨Function.update_of_ne hne _ _, Function.update_of_ne hne _ _, rfl, rfl⟩

theorem awake_same (hne : j ≠ i) : s.Same (s.awake i) j := by
  unfold awake
  split
  . exact leave_same hne
  . exact setWriter_same _ hne

theorem put_same (hne : j ≠ i) : s.Same (s.put ctype termios i) j := by
  unfold put
  dsimp only
  split
  . exact .refl s j
  . exact ⟨Function.update_of_ne hne _ _, rfl, Function.update_of_ne hne _ _, Function.update_of_ne hne _ _⟩

theorem run_same (hne : j ≠ i) (hrun : s.run ctype termios i = some s') : s.Same s' j := by
  unfold run at hrun
  dsimp only at hrun
  split at hrun
  . cases hrun
  . split at hrun
    . exact Option.some.inj hrun ▸ leave_same hne
    . split at hrun
      . exact Option.some.inj hrun ▸ setWriter_same _ hne
      . exact Option.some.inj hrun ▸ awake_same hne
  . rw [Option.ite_none_right_eq_some, Option.some.injEq] at hrun
    exact hrun.right ▸ awake_same hne
  . exact Option.some.inj hrun ▸ setWriter_same _ hne
  . exact Option.some.inj hrun ▸ put_same hne
  . exact Option.some.inj hrun ▸ setWriter_same _ hne
  . exact Option.some.inj hrun ▸ setWriter_same _ hne

theorem goto_inv {pc : Pc} (h : s.Inv ctype termios i) (huser : pc ≠ .user)
    (hfetch : pc = .fetch → (s.writer i).buf ≠ [])
    : (s.goto i pc).Inv ctype termios i := by
  have hwriter : (s.goto i pc).writer i = { s.writer i with pc } := Function.update_self _ _ _
  constructor
  . rw [hwriter]
    exact fun heq => absurd heq huser
  . rw [hwriter]
    exact hfetch
  . rw [hwriter]
    exact h.half
  . rw [hwriter]
    exact h.data

theorem leave_inv (h : s.Inv ctype termios i) (hhalf : s.half i = false) : (s.leave i).Inv ctype termios i := by
  have hwriter : (s.leave i).writer i = { s.writer i with pc := .user, buf := [] } := Function.update_self _ _ _
  have hgiven : (s.leave i).given i = (s.given i).take ((s.given i).length - (s.writer i).buf.length) :=
    Function.update_self _ _ _
  obtain ⟨done, hdata, hqueued⟩ := h.data
  constructor
  . rw [hwriter]
    exact fun _ => rfl
  . rw [hwriter]
    exact fun heq => nomatch heq
  . exact fun htrue => absurd (hhalf.symm.trans htrue) Bool.false_ne_true
  . refine ⟨done, ?_, hqueued⟩
    rw [hwriter, hgiven, hdata, List.length_append, Nat.add_sub_cancel, List.take_left, List.append_nil]

theorem awake_inv (h : s.Inv ctype termios i) (hhalf : (s.writer i).signal = true → s.half i = false)
    : (s.awake i).Inv ctype termios i := by
  unfold awake
  split
  . next hsignal => exact leave_inv h (hhalf hsignal)
  . exact goto_inv h (fun heq => nomatch heq) (fun heq => nomatch heq)

theorem put_round {c x : Byte} {rest : List Byte} {flag : Bool} (hbuf : (s.writer i).buf = c :: rest)
    (hout : nextOut ctype (termios i) s.crFlag c = (x, flag))
    : (s.put ctype termios i).writer i
          = { s.writer i with pc := .inner, buf := if flag then c :: rest else rest }
        ∧ (s.put ctype termios i).given i = s.given i ∧ (s.put ctype termios i).queued i = s.queued i ++ [x]
        ∧ (s.put ctype termios i).half i = flag := by
  unfold put
  simp only [hbuf, hout, Function.update_self, and_self]

theorem Inv.of_used {c : Byte} {rest done : List Byte}
    (hwriter : s'.writer i = { s.writer i with pc := .inner, buf := rest })
    (hgiven : s'.given i = done ++ c :: rest) (hhalf : s'.half i = false)
    (hqueued : s'.queued i = output ctype (termios i) (done ++ [c]))
    : s'.Inv ctype termios i := by
  constructor
  . rw [hwriter]
    exact fun heq => nomatch heq
  . rw [hwriter]
    exact fun heq => nomatch heq
  . rw [hhalf]
    exact fun heq => nomatch heq
  . refine ⟨done ++ [c], ?_, ?_⟩
    . rw [hwriter, hgiven, List.append_assoc, List.singleton_append]
    . rw [hhalf, if_neg Bool.false_ne_true, List.append_nil, hqueued]

theorem put_inv (h : s.Inv ctype termios i)
    (hflag : ∀ c ∈ (s.writer i).buf.head?, expands (termios i) c = true → s.crFlag = s.half i)
    : (s.put ctype termios i).Inv ctype termios i := by
  obtain ⟨done, hdata, hqueued⟩ := h.data
  cases hbuf : (s.writer i).buf with
  | nil =>
    unfold put
    dsimp only
    rw [hbuf]
    exact h
  | cons c rest =>
    have hhead : c ∈ (s.writer i).buf.head? := by
      rw [hbuf]
      rfl
    rw [hbuf] at hdata
    cases hexpands : expands (termios i) c with
    | false =>
      have hhalf : s.half i = false := by
        by_contra htrue
        obtain ⟨c', hc', hexpands'⟩ := h.half (Bool.eq_true_of_not_eq_false htrue)
        rw [Option.mem_unique hc' hhead, hexpands] at hexpands'
        cases hexpands'
      obtain ⟨x, hout, hprocessed⟩ := nextOut_of_not_expands ctype hexpands s.crFlag
      obtain ⟨hwriter', hgiven', hqueued', hhalf'⟩ := put_round hbuf hout
      rw [hhalf, if_neg Bool.false_ne_true, List.append_nil] at hqueued
      refine .of_used hwriter' (hgiven'.trans hdata) hhalf' ?_
      rw [hqueued', hqueued, output_append_singleton, hprocessed]
    | true =>
      have hflag := hflag c hhead hexpands
      have hout := nextOut_of_expands ctype hexpands s.crFlag
      cases hhalf : s.half i with
      | false =>
        rw [if_neg (Bool.not_eq_true _ ▸ hflag.trans hhalf)] at hout
        rw [hhalf, if_neg Bool.false_ne_true, List.append_nil] at hqueued
        obtain ⟨hwriter', hgiven', hqueued', hhalf'⟩ := put_round hbuf hout
        constructor
        . rw [hwriter']
          exact fun heq => nomatch heq
        . rw [hwriter']
          exact fun heq => nomatch heq
        . rw [hwriter']
          exact fun _ => ⟨c, rfl, hexpands⟩
        . refine ⟨done, ?_, ?_⟩
          . rw [hwriter', hgiven']
            exact hdata
          . rw [hhalf', if_pos rfl, hqueued', hqueued]
      | true =>
        rw [if_pos (hflag.trans hhalf)] at hout
        rw [hhalf, if_pos rfl] at hqueued
        obtain ⟨hwriter', hgiven', hqueued', hhalf'⟩ := put_round hbuf hout
        refine .of_used hwriter' (hgiven'.trans hdata) hhalf' ?_
        rw [hqueued', hqueued, output_append_singleton, processed_of_expands hexpands, List.append_assoc]
        rfl

theorem run_inv (h : s.Inv ctype termios i) (hkept : s.Kept termios (.run i)) (hrun : s.run ctype termios i = some s')
    : s'.Inv ctype termios i := by
  obtain ⟨hflag, hcut⟩ := hkept
  unfold cutShort at hcut
  unfold run at hrun
  dsimp only at hrun hcut
  split at hrun
  . cases hrun
  . next hpc =>
    split at hrun
    . next hbuf => exact Option.some.inj hrun ▸ leave_inv h (h.half_eq_false hbuf)
    . next hbuf =>
      split at hrun
      . exact Option.some.inj hrun ▸ goto_inv h (fun heq => nomatch heq) (fun heq => nomatch heq)
      . next hfull =>
        refine Option.some.inj hrun ▸ awake_inv h ?_
        intro hsignal
        apply hcut
        simp [hsignal, hpc, hbuf, hfull]
  . next hpc =>
    rw [Option.ite_none_right_eq_some, Option.some.injEq] at hrun
    refine hrun.right ▸ awake_inv h ?_
    intro hsignal
    apply hcut
    simp [hsignal, hpc]
  . refine Option.some.inj hrun ▸ goto_inv h ?_ ?_
    . split
      . exact fun heq => nomatch heq
      . exact fun heq => nomatch heq
    . split
      . exact fun heq => nomatch heq
      . next hfetch => exact fun _ => (not_or.mp hfetch).left
  . next hpc => exact Option.some.inj hrun ▸ put_inv h (hflag hpc)
  . refine Option.some.inj hrun ▸ goto_inv h ?_ ?_
    . split
      . exact fun heq => nomatch heq
      . exact fun heq => nomatch heq
    . split
      . exact fun heq => nomatch heq
      . exact fun heq => nomatch heq
  . exact Option.some.inj hrun ▸ goto_inv h (fun heq => nomatch heq) (fun heq => nomatch heq)

def channel : Act → Channel
  | .call i _ => i
  | .run i => i
  | .drain i _ => i
  | .echo i _ => i
  | .signal i => i
  | .handle i => i

theorem step_same {a : Act} (hne : j ≠ channel a) (hstep : s.step ctype termios a = some s') : s.Same s' j := by
  cases a with
  | call i buf =>
    simp only [step, Option.ite_none_right_eq_some, Option.some.injEq] at hstep
    exact hstep.right ▸ ⟨Function.update_of_ne hne _ _, Function.update_of_ne hne _ _, rfl, rfl⟩
  | run i =>
    simp only [step, Option.ite_none_right_eq_some] at hstep
    exact run_same hne hstep.right
  | drain i n => exact Option.some.inj hstep ▸ ⟨rfl, rfl, rfl, rfl⟩
  | echo i c => exact Option.some.inj hstep ▸ ⟨rfl, rfl, rfl, rfl⟩
  | signal i => exact Option.some.inj hstep ▸ setWriter_same _ hne
  | handle i =>
    simp only [step, Option.ite_none_right_eq_some, Option.some.injEq] at hstep
    exact hstep.right ▸ setWriter_same _ hne

theorem signal_inv (h : s.Inv ctype termios i) (b : Bool)
    : (s.setWriter i { s.writer i with signal := b }).Inv ctype termios i := by
  have hwriter : (s.setWriter i { s.writer i with signal := b }).writer i = { s.writer i with signal := b } :=
    Function.update_self _ _ _
  constructor
  . rw [hwriter]
    exact h.user
  . rw [hwriter]
    exact h.fetch
  . rw [hwriter]
    exact h.half
  . rw [hwriter]
    exact h.data

theorem call_inv {buf : List Byte} (h : s.Inv ctype termios i) (huser : (s.writer i).pc = .user)
    (hstep : s.step ctype termios (.call i buf) = some s')
    : s'.Inv ctype termios i := by
  have hbuf := h.user huser
  have hhalf := h.half_eq_false hbuf
  obtain ⟨done, hdata, hqueued⟩ := h.data
  simp only [step, if_pos huser, Option.some.injEq] at hstep
  subst hstep
  constructor
  . dsimp only
    rw [Function.update_self]
    exact fun heq => nomatch heq
  . dsimp only
    rw [Function.update_self]
    exact fun heq => nomatch heq
  . exact fun htrue => absurd (hhalf.symm.trans htrue) Bool.false_ne_true
  . refine ⟨done, ?_, hqueued⟩
    dsimp only
    rw [Function.update_self, Function.update_self, hdata, hbuf, List.append_nil]

theorem step_inv {a : Act} (h : ∀ i, s.Inv ctype termios i) (hkept : s.Kept termios a)
    (hstep : s.step ctype termios a = some s') (i : Channel)
    : s'.Inv ctype termios i := by
  by_cases hne : i ≠ channel a
  . exact (h i).of_same (step_same hne hstep)
  . rw [not_not.mp hne]
    cases a with
    | call i buf =>
      have huser := hstep
      simp only [step, Option.ite_none_right_eq_some] at huser
      exact call_inv (h i) huser.left hstep
    | run i =>
      simp only [step, Option.ite_none_right_eq_some] at hstep
      exact run_inv (h i) hkept hstep.right
    | drain i n => exact Option.some.inj hstep ▸ (h i).of_same ⟨rfl, rfl, rfl, rfl⟩
    | echo i c => exact Option.some.inj hstep ▸ (h i).of_same ⟨rfl, rfl, rfl, rfl⟩
    | signal i => exact Option.some.inj hstep ▸ signal_inv (h i) true
    | handle i =>
      simp only [step, Option.ite_none_right_eq_some, Option.some.injEq] at hstep
      exact hstep.right ▸ signal_inv (h i) false

end State

-- `OPOST|ONLCR`
def newlines : Termios :=
  {
    cIflag := 0
    cOflag := 5
    cLflag := 0
    cCc := fun _ => 0
  }

-- A queue in which `n` characters of earlier output wait.
def waiting (n : Nat) : TtyQueue :=
  {
    data := 0
    head := Fin.ofNat TTY_BUF_SIZE n
    tail := ⟨0, by decide⟩
    buf := fun _ => 120
  }

def cramped : State :=
  {
    writeQ := fun i => if i = 1 then waiting 1022 else waiting 0
    writer := fun _ => { pc := .user, buf := [], signal := false }
    crFlag := false
    given := fun _ => []
    queued := fun _ => []
    half := fun _ => false
  }

theorem start_cramped : cramped.Start :=
  ⟨fun _ => rfl, fun _ => rfl, fun _ => rfl, fun _ => rfl, fun _ => rfl⟩

-- A call with a newline, and `n` steps of it.
def newlineCall (i : Channel) (n : Nat) : List Act :=
  .call i [10] :: List.replicate n (.run i)

-- The call for terminal 1 gets as far as `schedule`, and its task goes on when the characters have been sent.
def aloneRun : List Act :=
  newlineCall 1 5 ++ .drain 1 128 :: List.replicate 7 (.run 1) ++ newlineCall 0 8

def sharedRun : List Act :=
  newlineCall 1 5 ++ newlineCall 0 6

namespace State

instance decidableKept (termios : Channel → Termios) (s : State) (a : Act) : Decidable (s.Kept termios a) := by
  unfold Kept
  cases a with
  | run i => exact inferInstance
  | _ => exact instDecidableTrue

end State
end Writing
end Tty
end OS
