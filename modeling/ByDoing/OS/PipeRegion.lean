import Mathlib.Data.List.Induction
import ByDoing.OS.Pipe

namespace OS
namespace Pipe

def Pc.Copying (pc : Pc) : Prop :=
  ∃ size chars, pc = .copy size chars

theorem Pc.wakeUp_copy {pc : Pc} {size chars : Nat} (h : pc.wakeUp = .copy size chars) : pc = .copy size chars := by
  cases pc with
  | copy => exact h
  | _ => cases h

namespace Inode

variable {inode : Inode}

theorem size_lt (inode : Inode) : inode.size < PAGE_SIZE := by
  unfold size
  apply Nat.mod_lt
  decide

end Inode

namespace State

inductive Phase (s : State) : Prop where
  | rest
    (reader : ¬s.reader.pc.Copying)
    (writer : ¬s.writer.pc.Copying)
    (bytes : s.stored = s.delivered ++ s.inode.region)
  | reading (size chars : Nat)
    (reader : s.reader.pc = .copy size chars)
    (writer : ¬s.writer.pc.Copying)
    (current : s.current = some .reader)
    (bound : size + chars ≤ PAGE_SIZE)
    (tail : s.inode.tail = (size + chars) % PAGE_SIZE)
    (room : chars + s.inode.size < PAGE_SIZE)
    (bytes : s.stored = s.delivered ++ Ring.window PAGE_SIZE s.inode.page size (chars + s.inode.size))
  | writing (size chars n : Nat)
    (reader : ¬s.reader.pc.Copying)
    (writer : s.writer.pc = .copy size chars)
    (current : s.current = some .writer)
    (bound : size + chars ≤ PAGE_SIZE)
    (head : s.inode.head = (size + chars) % PAGE_SIZE)
    (count : n + chars = s.inode.size)
    (bytes : s.stored = s.delivered ++ Ring.window PAGE_SIZE s.inode.page s.inode.tail n)

structure Inv (s : State) : Prop where
  head_lt : s.inode.head < PAGE_SIZE
  tail_lt : s.inode.tail < PAGE_SIZE
  phase : s.Phase

theorem Phase.keep {s s' : State} (h : s.Phase) (hreader : ¬s.reader.pc.Copying) (hwriter : ¬s.writer.pc.Copying)
    (hreader' : ¬s'.reader.pc.Copying) (hwriter' : ¬s'.writer.pc.Copying) (hinode : s'.inode.region = s.inode.region)
    (hstored : s'.stored = s.stored) (hdelivered : s'.delivered = s.delivered)
    : s'.Phase := by
  cases h with
  | rest _ _ bytes =>
    apply Phase.rest hreader' hwriter'
    rw [hstored, hdelivered, hinode]
    exact bytes
  | reading size chars reader => exact absurd ⟨size, chars, reader⟩ hreader
  | writing size chars _ _ writer => exact absurd ⟨size, chars, writer⟩ hwriter

theorem not_copying_wakeUp {pc : Pc} (h : ¬pc.Copying) : ¬pc.wakeUp.Copying := by
  intro ⟨size, chars, heq⟩
  exact h ⟨size, chars, Pc.wakeUp_copy heq⟩

theorem claim_inv {s : State} (h : s.Inv) (hreader : ¬s.reader.pc.Copying) (hcurrent : s.current = some .reader)
    {reader : Reader} {chars : Nat} (hpc : reader.pc = .copy s.inode.tail chars)
    (hbound : s.inode.tail + chars ≤ PAGE_SIZE) (hsize : chars ≤ s.inode.size)
    : { s with
        reader
        inode := { s.inode with tail := (s.inode.tail + chars) % PAGE_SIZE } : State }.Inv := by
  have hhead := h.head_lt
  have htail := h.tail_lt
  have hlt := s.inode.size_lt
  constructor
  . exact hhead
  . exact Nat.mod_lt _ (by decide)
  . cases h.phase with
    | rest _ hwriter bytes =>
      have hleft : chars
          + { s.inode with tail := (s.inode.tail + chars) % PAGE_SIZE : Inode }.size = s.inode.size := by
        unfold Inode.size PAGE_SIZE at *
        dsimp only
        omega
      refine Phase.reading s.inode.tail chars hpc hwriter hcurrent hbound rfl ?_ ?_
      . rw [hleft]
        exact hlt
      . rw [hleft]
        exact bytes
    | reading size chars reader => exact absurd ⟨size, chars, reader⟩ hreader
    | writing size chars _ _ _ current =>
      rw [hcurrent] at current
      cases current

theorem announce_inv {s : State} (h : s.Inv) (hwriter : ¬s.writer.pc.Copying) (hcurrent : s.current = some .writer)
    {writer : Writer} {chars : Nat} (hpc : writer.pc = .copy s.inode.head chars)
    (hbound : s.inode.head + chars ≤ PAGE_SIZE) (hsize : chars ≤ PAGE_SIZE - 1 - s.inode.size)
    : { s with
        writer
        inode := { s.inode with head := (s.inode.head + chars) % PAGE_SIZE } : State }.Inv := by
  have hhead := h.head_lt
  have htail := h.tail_lt
  have hlt := s.inode.size_lt
  constructor
  . exact Nat.mod_lt _ (by decide)
  . exact htail
  . cases h.phase with
    | rest hreader _ bytes =>
      have hsum : s.inode.size + chars
          = { s.inode with head := (s.inode.head + chars) % PAGE_SIZE : Inode }.size := by
        unfold Inode.size PAGE_SIZE at *
        dsimp only
        omega
      exact Phase.writing s.inode.head chars s.inode.size hreader hpc hcurrent hbound rfl hsum bytes
    | reading size chars _ _ current =>
      rw [hcurrent] at current
      cases current
    | writing size chars _ _ writer => exact absurd ⟨size, chars, writer⟩ hwriter

theorem deliver_inv {s : State} (h : s.Inv) {size chars : Nat} (hpc : s.reader.pc = .copy size (chars + 1))
    : { s with
        reader := { s.reader with pc := .copy (size + 1) chars }
        delivered := s.delivered ++ [s.inode.page size] : State }.Inv := by
  constructor
  . exact h.head_lt
  . exact h.tail_lt
  . cases h.phase with
    | rest hreader => exact absurd ⟨size, chars + 1, hpc⟩ hreader
    | reading size' chars' reader writer current bound tail room bytes =>
      obtain ⟨rfl, rfl⟩ := Pc.copy.inj (hpc.symm.trans reader)
      refine Phase.reading (size + 1) chars rfl writer current (by omega) ?_ ?_ ?_
      . rw [tail, show size + (chars + 1) = size + 1 + chars by omega]
      . show chars + s.inode.size < PAGE_SIZE
        omega
      . rw [show chars + 1 + s.inode.size = chars + s.inode.size + 1 by omega, Ring.window,
          Nat.mod_eq_of_lt (by omega)] at bytes
        rw [List.append_assoc]
        exact bytes
    | writing _ _ _ hreader => exact absurd ⟨size, chars + 1, hpc⟩ hreader

theorem store_inv {s : State} (h : s.Inv) {size chars : Nat} (hpc : s.writer.pc = .copy size (chars + 1))
    (byte : Byte) (buf : List Byte)
    : { s with
        writer := { s.writer with pc := .copy (size + 1) chars, buf }
        inode := { s.inode with page := Function.update s.inode.page size byte }
        stored := s.stored ++ [byte] : State }.Inv := by
  have hlt := s.inode.size_lt
  have hhead := h.head_lt
  have htail := h.tail_lt
  constructor
  . exact hhead
  . exact htail
  . cases h.phase with
    | rest _ hwriter => exact absurd ⟨size, chars + 1, hpc⟩ hwriter
    | reading _ _ _ hwriter => exact absurd ⟨size, chars + 1, hpc⟩ hwriter
    | writing size' chars' n reader writer current bound head count bytes =>
      obtain ⟨rfl, rfl⟩ := Pc.copy.inj (hpc.symm.trans writer)
      have hcell : size = (s.inode.tail + n) % PAGE_SIZE := by
        unfold Inode.size PAGE_SIZE at *
        omega
      refine Phase.writing (size + 1) chars (n + 1) reader rfl current (by omega) ?_ ?_ ?_
      . rw [head, show size + (chars + 1) = size + 1 + chars by omega]
      . show n + 1 + chars = s.inode.size
        omega
      . show s.stored ++ [byte] = s.delivered ++ Ring.window PAGE_SIZE (Function.update s.inode.page size byte) _ _
        rw [hcell, Ring.window_store (by omega), bytes, List.append_assoc]

theorem Phase.not_copying {s : State} (h : s.Phase) (hcurrent : ∀ who, s.current = some who → ¬(s.pc who).Copying)
    : ¬s.reader.pc.Copying ∧ ¬s.writer.pc.Copying := by
  cases h with
  | rest hreader hwriter => exact ⟨hreader, hwriter⟩
  | reading size chars reader writer current => exact ⟨hcurrent .reader current, writer⟩
  | writing size chars _ reader writer current => exact ⟨reader, hcurrent .writer current⟩

theorem Inv.keep {s s' : State} (h : s.Inv) (hcurrent : ∀ who, s.current = some who → ¬(s.pc who).Copying)
    (hreader : ¬s.reader.pc.Copying → ¬s'.reader.pc.Copying)
    (hwriter : ¬s.writer.pc.Copying → ¬s'.writer.pc.Copying) (hhead : s'.inode.head = s.inode.head)
    (htail : s'.inode.tail = s.inode.tail) (hpage : s'.inode.page = s.inode.page) (hstored : s'.stored = s.stored)
    (hdelivered : s'.delivered = s.delivered)
    : s'.Inv := by
  obtain ⟨hr, hw⟩ := h.phase.not_copying hcurrent
  constructor
  . rw [hhead]
    exact h.head_lt
  . rw [htail]
    exact h.tail_lt
  . apply h.phase.keep hr hw (hreader hr) (hwriter hw) _ hstored hdelivered
    unfold Inode.region Inode.size
    rw [hhead, htail, hpage]

theorem not_copying_user : ¬Pc.user.Copying := by
  intro ⟨_, _, h⟩
  cases h

theorem not_copying_loop : ¬Pc.loop.Copying := by
  intro ⟨_, _, h⟩
  cases h

theorem not_copying_asleep : ¬Pc.asleep.Copying := by
  intro ⟨_, _, h⟩
  cases h

theorem delivered_inv {s : State} (h : s.Inv) {size : Nat} (hpc : s.reader.pc = .copy size 0)
    : { s with reader := { s.reader with pc := .loop } : State }.Inv := by
  constructor
  . exact h.head_lt
  . exact h.tail_lt
  . cases h.phase with
    | rest hreader => exact absurd ⟨size, 0, hpc⟩ hreader
    | reading size' chars' reader writer current bound tail room bytes =>
      obtain ⟨rfl, rfl⟩ := Pc.copy.inj (hpc.symm.trans reader)
      refine Phase.rest not_copying_loop writer ?_
      show s.stored = s.delivered ++ Ring.window PAGE_SIZE s.inode.page s.inode.tail s.inode.size
      rw [tail, Nat.add_zero, Ring.window_mod]
      rw [Nat.zero_add] at bytes
      exact bytes
    | writing _ _ _ hreader => exact absurd ⟨size, 0, hpc⟩ hreader

theorem stored_inv {s : State} (h : s.Inv) {size : Nat} (hpc : s.writer.pc = .copy size 0)
    : { s with writer := { s.writer with pc := .loop } : State }.Inv := by
  constructor
  . exact h.head_lt
  . exact h.tail_lt
  . cases h.phase with
    | rest _ hwriter => exact absurd ⟨size, 0, hpc⟩ hwriter
    | reading _ _ _ hwriter => exact absurd ⟨size, 0, hpc⟩ hwriter
    | writing size' chars' n reader writer current bound head count bytes =>
      obtain ⟨rfl, rfl⟩ := Pc.copy.inj (hpc.symm.trans writer)
      refine Phase.rest reader not_copying_loop ?_
      rw [Nat.add_zero] at count
      rw [count] at bytes
      exact bytes

theorem idle_of_current {s : State} {who : Who} (hcurrent : s.current = some who) (hpc : ¬(s.pc who).Copying)
    : ∀ who', s.current = some who' → ¬(s.pc who').Copying := by
  intro who' hwho'
  rw [hcurrent, Option.some.injEq] at hwho'
  rw [← hwho']
  exact hpc

theorem readPipe_inv {s : State} (h : s.Inv) (hcurrent : s.current = some .reader) : s.readPipe.Inv := by
  unfold readPipe
  split
  . next size chars hpc => exact deliver_inv h hpc
  . next size hpc => exact delivered_inv h hpc
  . next hpc hpc' =>
    have hnot : ¬s.reader.pc.Copying := by
      intro ⟨size, chars, heq⟩
      cases chars with
      | zero => exact hpc' size heq
      | succ chars => exact hpc size chars heq
    have hidle := idle_of_current hcurrent hnot
    split
    . exact h.keep hidle (fun _ => not_copying_user) not_copying_wakeUp rfl rfl rfl rfl rfl
    . split
      . dsimp only
        split
        . exact h.keep hidle (fun _ => not_copying_user) not_copying_wakeUp rfl rfl rfl rfl rfl
        . exact h.keep hidle (fun _ => not_copying_asleep) not_copying_wakeUp rfl rfl rfl rfl rfl
      . have htail := h.tail_lt
        apply claim_inv h hnot hcurrent rfl
        . omega
        . omega

theorem writePipe_inv {s : State} (h : s.Inv) (hcurrent : s.current = some .writer) : s.writePipe.Inv := by
  unfold writePipe
  split
  . next size chars hpc =>
    split
    . exact h
    . next byte buf _ => exact store_inv h hpc byte buf
  . next size hpc => exact stored_inv h hpc
  . next hpc hpc' =>
    have hnot : ¬s.writer.pc.Copying := by
      intro ⟨size, chars, heq⟩
      cases chars with
      | zero => exact hpc' size heq
      | succ chars => exact hpc size chars heq
    have hidle := idle_of_current hcurrent hnot
    dsimp only
    split
    . exact h.keep hidle not_copying_wakeUp (fun _ => not_copying_user) rfl rfl rfl rfl rfl
    . split
      . split
        . exact h.keep hidle not_copying_wakeUp (fun _ => not_copying_user) rfl rfl rfl rfl rfl
        . exact h.keep hidle not_copying_wakeUp (fun _ => not_copying_asleep) rfl rfl rfl rfl rfl
      . have hhead := h.head_lt
        apply announce_inv h hnot hcurrent rfl
        . omega
        . omega

theorem close_inv {s s' : State} {who : Who} (h : s.Inv) (hcurrent : s.current = some who)
    (hpc : ¬(s.pc who).Copying) (hclose : s.close who = some s')
    : s'.Inv := by
  have hidle := idle_of_current hcurrent hpc
  cases who with
  | reader =>
    simp only [close, Option.ite_none_left_eq_some, Option.some.injEq] at hclose
    rw [← hclose.right]
    exact h.keep hidle not_copying_wakeUp not_copying_wakeUp rfl rfl rfl rfl rfl
  | writer =>
    simp only [close, Option.ite_none_left_eq_some, Option.some.injEq] at hclose
    rw [← hclose.right]
    exact h.keep hidle not_copying_wakeUp not_copying_wakeUp rfl rfl rfl rfl rfl

theorem act_inv {s s' : State} {who : Who} {a : Act} (h : s.Inv) (hcurrent : s.current = some who)
    (hfault : a ≠ .fault) (hact : s.act who a = some s')
    : s'.Inv := by
  have huser : s.pc who = .user → ∀ who', s.current = some who' → ¬(s.pc who').Copying := by
    intro hpc
    exact idle_of_current hcurrent (hpc ▸ not_copying_user)
  cases a with
  | schedule => cases hact
  | fault => exact absurd rfl hfault
  | preempt =>
    simp only [act, Option.ite_none_right_eq_some, Option.some.injEq] at hact
    rw [← hact.right]
    exact h.keep (huser hact.left) id id rfl rfl rfl rfl rfl
  | read count =>
    simp only [act, Option.ite_none_right_eq_some, Option.some.injEq] at hact
    obtain ⟨⟨rfl, hpc, _⟩, rfl⟩ := hact
    exact h.keep (huser hpc) (fun _ => not_copying_loop) id rfl rfl rfl rfl rfl
  | write buf =>
    simp only [act, Option.ite_none_right_eq_some, Option.some.injEq] at hact
    obtain ⟨⟨rfl, hpc, _⟩, rfl⟩ := hact
    exact h.keep (huser hpc) id (fun _ => not_copying_loop) rfl rfl rfl rfl rfl
  | close =>
    simp only [act, Option.ite_none_right_eq_some] at hact
    exact close_inv h hcurrent (hact.left ▸ not_copying_user) hact.right
  | run =>
    simp only [act, Option.ite_none_left_eq_some] at hact
    cases who with
    | reader =>
      rw [← Option.some.inj hact.right]
      exact readPipe_inv h hcurrent
    | writer =>
      rw [← Option.some.inj hact.right]
      exact writePipe_inv h hcurrent

theorem step_inv {s s' : State} {a : Act} (h : s.Inv) (hfault : a ≠ .fault) (hstep : s.step a = some s')
    : s'.Inv := by
  unfold step at hstep
  split at hstep
  . next who hnone =>
    rw [Option.ite_none_left_eq_some, Option.some.injEq] at hstep
    rw [← hstep.right]
    refine h.keep ?_ id id rfl rfl rfl rfl rfl
    intro who' hsome
    rw [hnone] at hsome
    cases hsome
  . cases hstep
  . next who hcurrent => exact act_inv h hcurrent hfault hstep

theorem init_inv : init.Inv := by
  constructor
  . decide
  . decide
  . exact Phase.rest not_copying_user not_copying_user rfl

theorem Inv.sound {s : State} (h : s.Inv) : s.Sound := by
  constructor
  . intro hnone
    cases h.phase with
    | rest _ _ bytes => exact bytes
    | reading _ _ _ _ current =>
      rw [hnone] at current
      cases current
    | writing _ _ _ _ _ current =>
      rw [hnone] at current
      cases current
  . intro size chars hcurrent hpc hclaimed
    have hreader : s.reader.pc.Copying := by
      unfold claimed at hclaimed
      split at hclaimed
      . next size chars heq => exact ⟨size, chars, heq⟩
      . cases hclaimed
    cases h.phase with
    | rest reader => exact reader hreader
    | reading _ _ _ writer => exact writer ⟨size, chars + 1, hpc⟩
    | writing _ _ _ reader => exact reader hreader
  . intro size chars hcurrent hpc hannounced
    have hwriter : s.writer.pc.Copying := by
      unfold announced at hannounced
      split at hannounced
      . next size chars heq => exact ⟨size, chars, heq⟩
      . cases hannounced
    cases h.phase with
    | rest _ writer => exact writer hwriter
    | reading _ _ _ writer => exact writer hwriter
    | writing _ _ _ reader => exact reader ⟨size, chars + 1, hpc⟩

theorem step_fault {s s' : State} (h : s.step .fault = some s')
    : ∃ who size chars, s.current = some who ∧ s.pc who = .copy size (chars + 1)
        ∧ s' = { s with current := none } := by
  unfold step at h
  cases hcurrent : s.current with
  | none =>
    rw [hcurrent] at h
    cases h
  | some who =>
    rw [hcurrent] at h
    simp only [act] at h
    split at h
    . next size chars hpc => exact ⟨who, size, chars, rfl, hpc, (Option.some.inj h).symm⟩
    . cases h

theorem fault_not_sound {s s' : State} (h : s.Inv) (hstep : s.step .fault = some s') : ¬s'.Sound := by
  intro hsound
  obtain ⟨who, size, chars, hcurrent, hpc, rfl⟩ := step_fault hstep
  have hlength := congrArg List.length (hsound.region_eq rfl)
  rw [List.length_append, Inode.region, Ring.length_window] at hlength
  dsimp only at hlength
  cases h.phase with
  | rest reader writer =>
    cases who with
    | reader => exact reader ⟨size, chars + 1, hpc⟩
    | writer => exact writer ⟨size, chars + 1, hpc⟩
  | reading size' chars' reader writer current bound tail room bytes =>
    rw [hcurrent, Option.some.injEq] at current
    subst current
    obtain ⟨rfl, rfl⟩ := Pc.copy.inj (reader.symm.trans hpc)
    rw [bytes, List.length_append, Ring.length_window] at hlength
    omega
  | writing size' chars' n reader writer current bound head count bytes =>
    rw [hcurrent, Option.some.injEq] at current
    subst current
    obtain ⟨rfl, rfl⟩ := Pc.copy.inj (writer.symm.trans hpc)
    rw [bytes, List.length_append, Ring.length_window] at hlength
    omega

theorem inv_of_exec {acts : List Act} {s : State} (hexec : Run.exec step init acts = some s)
    (hfault : Act.fault ∉ acts)
    : s.Inv := by
  induction acts using List.reverseRecOn generalizing s with
  | nil =>
    cases hexec
    exact init_inv
  | append_singleton acts a ih =>
    obtain ⟨t, ht, hstep⟩ := Run.exec_append_singleton hexec
    rw [List.mem_append, List.mem_singleton, not_or] at hfault
    exact step_inv (ih ht hfault.left) (Ne.symm hfault.right) hstep

/--
The region of the pipe holds the bytes that are stored and not delivered whenever a task has lost the processor, and
no task touches the bytes of the other one, exactly in the runs in which no task loses the processor while it copies.
-/
theorem sound_iff_no_fault {acts : List Act} {s : State} (hexec : Run.exec step init acts = some s)
    : (∀ done, done <+: acts → ∀ t, Run.exec step init done = some t → t.Sound) ↔ Act.fault ∉ acts := by
  constructor
  . intro hsound hmem
    obtain ⟨before, after, rfl, hnot⟩ := List.eq_append_cons_of_mem hmem
    rw [Run.exec_append, Option.bind_eq_some_iff] at hexec
    obtain ⟨t, ht, hafter⟩ := hexec
    rw [Run.exec] at hafter
    split at hafter
    . next t' hstep =>
      apply fault_not_sound (inv_of_exec ht hnot) hstep
      apply hsound (before ++ [.fault])
      . exact ⟨after, by rw [List.append_assoc, List.singleton_append]⟩
      . rw [Run.exec_append, ht, Option.bind_some, Run.exec, hstep]
        rfl
    . cases hafter
  . intro hfault done hpre t ht
    have hinv := inv_of_exec ht fun hmem => hfault (hpre.subset hmem)
    exact hinv.sound

def passRun : List Act :=
  [.schedule .writer, .write [7], .run, .run, .run, .run, .preempt, .schedule .reader, .read 1, .run, .run]

theorem sound_passRun
    : (Run.exec step init passRun).map (fun s => (s.stored, s.delivered)) = some ([7], [7])
        ∧ ∀ done, done <+: passRun → ∀ t, Run.exec step init done = some t → t.Sound := by
  refine ⟨rfl, ?_⟩
  exact (@sound_iff_no_fault passRun _ rfl).mpr (by decide)

def faultRun : List Act :=
  [.schedule .writer, .write [7], .run, .fault, .schedule .reader, .read 1, .run, .run]

theorem not_sound_faultRun
    : (∃ done t, done <+: faultRun ∧ Run.exec step init done = some t ∧ ¬t.Sound)
        ∧ (Run.exec step init faultRun).map (fun s => (s.stored, s.delivered)) = some ([], [0]) := by
  refine ⟨⟨faultRun.take 4, _, List.take_prefix 4 faultRun, rfl, ?_⟩, rfl⟩
  intro hsound
  have hlength := congrArg List.length (hsound.region_eq rfl)
  exact absurd hlength (by decide)

end State
end Pipe
end OS
