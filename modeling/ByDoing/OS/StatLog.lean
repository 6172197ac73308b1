import Mathlib.Data.List.Basic
import Mathlib.Data.List.Induction

/-!
This module contains the lines of the process log and the check that `stat_log.py` makes of them while it
reads the log. The text `pid\tletter\ttime\n` of a line and its three fields determine each other, so a
line is its fields here.
-/

namespace OS

inductive Letter where
  | N
  | J
  | R
  | W
  | E
  deriving Repr, DecidableEq

structure LogLine where
  pid : Nat
  letter : Letter
  time : Int
  deriving Repr, DecidableEq

def lastLetter (log : List LogLine) (pid : Nat) : Option Letter :=
  (log.reverse.find? fun line => line.pid == pid).map LogLine.letter

theorem lastLetter_append (log : List LogLine) (line : LogLine) (pid : Nat)
    : lastLetter (log ++ [line]) pid
        =
      if line.pid = pid then some line.letter else lastLetter log pid := by
  unfold lastLetter
  rw [List.reverse_append, List.reverse_singleton, List.singleton_append, List.find?_cons]
  by_cases h : line.pid = pid
  . simp [h]
  . have hfalse : (line.pid == pid) = false := by simpa using h
    simp [h, hfalse]

namespace StatLog

inductive PState where
  | P_NEW
  | P_READY
  | P_WAITING
  | P_RUNNING
  | P_EXIT
  deriving Repr, DecidableEq

inductive LogError where
  | DuplicateNew (pid : Nat)
  | BadTime (time : Int)
  | TaskHasExited (state : PState)
  | RepeatState (pid : Nat)
  | SameLine
  | NoNew (pid : Nat) (letter : Letter)
  deriving Repr, DecidableEq

structure Process where
  pid : Nat
  states : List (PState × Int)
  states_ne_nil : states ≠ []
  deriving DecidableEq

namespace Process

def new (pid : Nat) (time : Int) : Process :=
  { pid, states := [(.P_NEW, time)], states_ne_nil := by simp }

def last (p : Process) : PState × Int :=
  p.states.getLast p.states_ne_nil

def push (p : Process) (state : PState) (time : Int) : Process :=
  { p with states := p.states ++ [(state, time)], states_ne_nil := by simp }

def changeState (p : Process) (state : PState) (time : Int) : Except LogError Process :=
  let (lastState, lastTime) := p.last
  if state = .P_NEW then
    .error (.DuplicateNew p.pid)
  else if time < lastTime then
    .error (.BadTime time)
  else if lastState = .P_EXIT then
    .error (.TaskHasExited state)
  else if lastState = state ∧ p.pid ≠ 0 then
    .error (.RepeatState p.pid)
  else
    .ok (p.push state time)

end Process

abbrev Pool := List Process

namespace Pool

def getProcess (pool : Pool) (pid : Nat) : Option Process :=
  pool.find? fun p => p.pid == pid

def replace (pool : Pool) (p : Process) : Pool :=
  pool.map fun q => if q.pid = p.pid then p else q

def new (pool : Pool) (pid : Nat) (time : Int) : Except LogError Pool :=
  match getProcess pool pid with
  | some _ => if pid ≠ 0 then .error (.DuplicateNew pid) else .ok (replace pool (Process.new pid time))
  | none => .ok (pool ++ [Process.new pid time])

end Pool

structure Checker where
  processes : Pool
  prevTime : Int
  prevLine : Option LogLine
  deriving DecidableEq

def init : Checker :=
  { processes := [(Process.new 0 40).push .P_RUNNING 40], prevTime := 0, prevLine := none }

def stateOf : Letter → PState
  | .N => .P_NEW
  | .J => .P_READY
  | .R => .P_RUNNING
  | .W => .P_WAITING
  | .E => .P_EXIT

def checkLine (c : Checker) (line : LogLine) : Except LogError Checker :=
  if c.prevLine = some line then
    .error .SameLine
  else if line.time < c.prevTime then
    .error (.BadTime line.time)
  else
    let c := { c with prevLine := some line, prevTime := line.time }
    match line.letter with
    | .N =>
      match Pool.new c.processes line.pid line.time with
      | .error e => .error e
      | .ok processes => .ok { c with processes }
    | letter =>
      match Pool.getProcess c.processes line.pid with
      | none => .error (.NoNew line.pid letter)
      | some p =>
        match p.changeState (stateOf letter) line.time with
        | .error e => .error e
        | .ok p => .ok { c with processes := Pool.replace c.processes p }

def check (c : Checker) : List LogLine → Except LogError Checker
  | [] => .ok c
  | line :: lines =>
    match checkLine c line with
    | .error e => .error e
    | .ok c => check c lines

theorem check_append {c c' : Checker} {log : List LogLine} (h : check c log = .ok c') (line : LogLine)
    : check c (log ++ [line]) = checkLine c' line := by
  induction log generalizing c with
  | nil =>
    simp only [check, Except.ok.injEq] at h
    subst h
    simp only [List.nil_append, check]
    cases checkLine c line <;> rfl
  | cons line' log ih =>
    rw [List.cons_append]
    unfold check at h ⊢
    split at h
    . simp at h
    . exact ih h

namespace Pool

theorem getProcess_pid {pool : Pool} {pid : Nat} {p : Process} (h : getProcess pool pid = some p)
    : p.pid = pid := by
  have := List.find?_some h
  simpa using this

theorem getProcess_replace (pool : Pool) (p : Process) (pid : Nat)
    : getProcess (replace pool p) pid
        =
      if pid = p.pid then (getProcess pool pid).map fun _ => p else getProcess pool pid := by
  induction pool with
  | nil => simp [getProcess, replace]
  | cons q pool ih =>
    unfold getProcess replace at ih ⊢
    rw [List.map_cons, List.find?_cons, List.find?_cons, ih]
    by_cases hq : q.pid = p.pid
    . by_cases hpid : pid = p.pid
      . simp [hq, hpid]
      . have hne : (p.pid == pid) = false := by simpa using Ne.symm hpid
        simp [hq, hpid, hne]
    . by_cases hpid : pid = p.pid
      . have hne : (q.pid == p.pid) = false := by simpa using hq
        simp [hq, hpid, hne]
      . simp [hq, hpid]

theorem getProcess_append (pool : Pool) (p : Process) (pid : Nat)
    : getProcess (pool ++ [p]) pid
        =
      (getProcess pool pid).or (if p.pid = pid then some p else none) := by
  unfold getProcess
  rw [List.find?_append, List.find?_singleton]
  simp

end Pool

structure Tracks (c : Checker) (log : List LogLine) : Prop where
  prevLine_eq : c.prevLine = log.getLast?
  prevTime_le : ∀ time, 0 ≤ time → (∀ line ∈ log, line.time ≤ time) → c.prevTime ≤ time
  states_eq : ∀ pid, pid ≠ 0 →
    (Pool.getProcess c.processes pid).map (fun p => p.last.fst) = (lastLetter log pid).map stateOf
  idle : ∃ p, Pool.getProcess c.processes 0 = some p ∧ p.last.fst ≠ .P_EXIT
  times_le : ∀ pid p, Pool.getProcess c.processes pid = some p → p.last.snd ≤ max 40 c.prevTime
    ∧ (pid ≠ 0 → p.last.snd ≤ c.prevTime)

structure Fine (log : List LogLine) (line : LogLine) : Prop where
  ne_last : log.getLast? ≠ some line
  time_nonneg : 0 ≤ line.time
  times_le : ∀ line' ∈ log, line'.time ≤ line.time
  idle : line.pid = 0 → line.letter ≠ .N ∧ line.letter ≠ .E ∧ 40 ≤ line.time
  first : line.pid ≠ 0 → line.letter = .N → lastLetter log line.pid = none
  later : line.pid ≠ 0 → line.letter ≠ .N →
    ∃ letter, lastLetter log line.pid = some letter ∧ letter ≠ .E ∧ letter ≠ line.letter

theorem init_tracks : Tracks init [] := by
  constructor
  . rfl
  . intro time htime _
    exact htime
  . intro pid hpid
    have hne : (0 == pid) = false := by simpa using Ne.symm hpid
    simp [init, Pool.getProcess, Process.push, Process.new, hne, lastLetter]
  . refine ⟨_, rfl, ?_⟩
    decide
  . intro pid p hp
    have hpid := Pool.getProcess_pid hp
    simp [init, Pool.getProcess] at hp
    obtain ⟨hzero, hp⟩ := hp
    subst hp
    refine ⟨by decide, ?_⟩
    intro hne
    exact absurd hpid.symm hne

theorem stateOf_injective {a b : Letter} (h : stateOf a = stateOf b) : a = b := by
  cases a <;> cases b <;> simp_all [stateOf]

theorem last_push (p : Process) (state : PState) (time : Int) : (p.push state time).last = (state, time) := by
  simp [Process.last, Process.push]

theorem Tracks.prevTime_le_line {c : Checker} {log : List LogLine} {line : LogLine} (h : Tracks c log)
    (hfine : Fine log line)
    : c.prevTime ≤ line.time :=
  h.prevTime_le line.time hfine.time_nonneg hfine.times_le

theorem Tracks.append {c : Checker} {log : List LogLine} {line : LogLine} {processes : Pool}
    (h : Tracks c log) (hfine : Fine log line)
    (hself : ∃ p, Pool.getProcess processes line.pid = some p
      ∧ p.last = (stateOf line.letter, line.time))
    (hothers : ∀ pid, pid ≠ line.pid → Pool.getProcess processes pid = Pool.getProcess c.processes pid)
    : Tracks { processes, prevTime := line.time, prevLine := some line } (log ++ [line]) := by
  have hprev := h.prevTime_le_line hfine
  obtain ⟨self, hget, hlast⟩ := hself
  constructor
  . simp
  . intro time _ hall
    exact hall line (by simp)
  . intro pid hpid
    rw [lastLetter_append]
    by_cases heq : pid = line.pid
    . subst heq
      simp [hget, hlast]
    . rw [if_neg (Ne.symm heq), hothers pid heq]
      exact h.states_eq pid hpid
  . by_cases hzero : line.pid = 0
    . rw [hzero] at hget
      refine ⟨self, hget, ?_⟩
      rw [hlast]
      have hne := (hfine.idle hzero).right.left
      intro hexit
      exact hne (stateOf_injective hexit)
    . dsimp only
      rw [hothers 0 (Ne.symm hzero)]
      exact h.idle
  . intro pid p hp
    by_cases heq : pid = line.pid
    . subst heq
      dsimp only at hp
      rw [hget, Option.some.injEq] at hp
      subst hp
      rw [hlast]
      exact ⟨Int.le_max_right 40 line.time, fun _ => Int.le_refl _⟩
    . dsimp only at hp ⊢
      rw [hothers pid heq] at hp
      obtain ⟨hmax, hle⟩ := h.times_le pid p hp
      constructor
      . omega
      . intro hne
        have := hle hne
        omega

theorem checkLine_new {c : Checker} {log : List LogLine} {line : LogLine} (h : Tracks c log)
    (hfine : Fine log line) (hletter : line.letter = .N)
    : ∃ c', checkLine c line = .ok c' ∧ Tracks c' (log ++ [line]) := by
  have hpid : line.pid ≠ 0 := by
    intro hzero
    exact (hfine.idle hzero).left hletter
  have hnone : Pool.getProcess c.processes line.pid = none := by
    have hstates := h.states_eq line.pid hpid
    rw [hfine.first hpid hletter, Option.map_none, Option.map_eq_none_iff] at hstates
    exact hstates
  have hnew : Pool.new c.processes line.pid line.time
      = .ok (c.processes ++ [Process.new line.pid line.time]) := by
    simp [Pool.new, hnone]
  refine ⟨⟨c.processes ++ [Process.new line.pid line.time], line.time, some line⟩, ?_, ?_⟩
  . unfold checkLine
    rw [if_neg (by rw [h.prevLine_eq]; exact hfine.ne_last),
      if_neg (by have := h.prevTime_le_line hfine; omega)]
    dsimp only
    rw [hletter]
    simp [hnew]
  . apply h.append hfine
    . refine ⟨Process.new line.pid line.time, ?_, ?_⟩
      . rw [Pool.getProcess_append, hnone]
        simp [Process.new]
      . rw [hletter]
        rfl
    . intro pid hne
      rw [Pool.getProcess_append, if_neg (by simpa [Process.new] using Ne.symm hne), Option.or_none]

theorem changeState_ok {c : Checker} {log : List LogLine} {line : LogLine} (h : Tracks c log)
    (hfine : Fine log line) (hletter : line.letter ≠ .N)
    : ∃ p, Pool.getProcess c.processes line.pid = some p
        ∧ p.changeState (stateOf line.letter) line.time = .ok (p.push (stateOf line.letter) line.time) := by
  have hprev := h.prevTime_le_line hfine
  have hnew : stateOf line.letter ≠ .P_NEW := by
    intro heq
    exact hletter (stateOf_injective heq)
  by_cases hzero : line.pid = 0
  . obtain ⟨p, hp, hexit⟩ := h.idle
    have htime := (h.times_le 0 p hp).left
    have h40 := (hfine.idle hzero).right.right
    have hpid := Pool.getProcess_pid hp
    refine ⟨p, by rw [hzero, hp], ?_⟩
    unfold Process.changeState
    dsimp only
    rw [if_neg hnew, if_neg (by omega), if_neg hexit, if_neg (by simp [hpid])]
  . obtain ⟨letter, hlast, hexit, hne⟩ := hfine.later hzero hletter
    have hstates := h.states_eq line.pid hzero
    rw [hlast, Option.map_some, Option.map_eq_some_iff] at hstates
    obtain ⟨p, hp, hstate⟩ := hstates
    have htime := (h.times_le line.pid p hp).right hzero
    refine ⟨p, hp, ?_⟩
    unfold Process.changeState
    dsimp only
    rw [hstate, if_neg hnew, if_neg (by omega)]
    have hexit' : stateOf letter ≠ .P_EXIT := fun heq => hexit (@stateOf_injective letter .E heq)
    rw [if_neg hexit', if_neg (fun heq => hne (stateOf_injective heq.left))]

theorem checkLine_change {c : Checker} {log : List LogLine} {line : LogLine} (h : Tracks c log)
    (hfine : Fine log line) (hletter : line.letter ≠ .N)
    : ∃ c', checkLine c line = .ok c' ∧ Tracks c' (log ++ [line]) := by
  obtain ⟨p, hp, hchange⟩ := changeState_ok h hfine hletter
  have hpid := Pool.getProcess_pid hp
  refine ⟨⟨Pool.replace c.processes (p.push (stateOf line.letter) line.time), line.time, some line⟩, ?_, ?_⟩
  . unfold checkLine
    rw [if_neg (by rw [h.prevLine_eq]; exact hfine.ne_last),
      if_neg (by have := h.prevTime_le_line hfine; omega)]
    dsimp only
    cases hl : line.letter with
    | N => exact absurd hl hletter
    | J => rw [hl] at hchange; simp [hp, hchange]
    | R => rw [hl] at hchange; simp [hp, hchange]
    | W => rw [hl] at hchange; simp [hp, hchange]
    | E => rw [hl] at hchange; simp [hp, hchange]
  . apply h.append hfine
    . refine ⟨p.push (stateOf line.letter) line.time, ?_, last_push _ _ _⟩
      rw [Pool.getProcess_replace, if_pos (by simp [Process.push, hpid]), hp, Option.map_some]
    . intro pid hne
      rw [Pool.getProcess_replace, if_neg (by simpa [Process.push, hpid] using hne)]

def Accepted (log : List LogLine) : Prop :=
  ∃ c, check init log = .ok c ∧ Tracks c log

theorem accepted_nil : Accepted [] :=
  ⟨init, rfl, init_tracks⟩

theorem Accepted.append {log : List LogLine} {line : LogLine} (h : Accepted log) (hfine : Fine log line)
    : Accepted (log ++ [line]) := by
  obtain ⟨c, hcheck, htracks⟩ := h
  have hline : ∃ c', checkLine c line = .ok c' ∧ Tracks c' (log ++ [line]) := by
    by_cases hletter : line.letter = .N
    . exact checkLine_new htracks hfine hletter
    . exact checkLine_change htracks hfine hletter
  obtain ⟨c', hline, htracks'⟩ := hline
  exact ⟨c', by rw [check_append hcheck, hline], htracks'⟩

end StatLog
end OS
