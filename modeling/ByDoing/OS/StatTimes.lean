import Mathlib.Algebra.Order.Ring.Int
import Mathlib.Data.List.Chain
import ByDoing.OS.StatLog

namespace OS
namespace StatTimes

open StatLog

inductive LogError where
  | DuplicateNew (pid : Int)
  | UnknownState (s : List Char)
  | BadTime (time : Int)
  | TaskHasExited (state : PState)
  | BadFormat
  | RepeatState (pid : Int)
  | SameLine
  | NoNew (pid : Int) (s : List Char)
  -- `int` has raised it.
  | ValueError (field : List Char)
  deriving Repr, DecidableEq

abbrev Record := PState × Int

def Follows (a b : Record) : Prop :=
  a.snd ≤ b.snd ∧ a.fst ≠ .P_EXIT ∧ b.fst ≠ .P_NEW

structure Process where
  pid : Int
  created : Int
  records : List Record
  follows : ((.P_NEW, created) :: records).IsChain Follows

namespace Process

def states (p : Process) : List Record :=
  (.P_NEW, p.created) :: p.records

def new (pid time : Int) : Process :=
  { pid, created := time, records := [], follows := List.isChain_singleton _ }

def last (p : Process) : Record :=
  p.states.getLast (List.cons_ne_nil _ _)

theorem follows_push {p : Process} {state : PState} {time : Int} (hnew : ¬state = .P_NEW)
    (htime : ¬time < p.last.snd) (hexit : ¬p.last.fst = .P_EXIT)
    : ((.P_NEW, p.created) :: (p.records ++ [(state, time)])).IsChain Follows := by
  rw [← List.cons_append, List.isChain_append]
  refine ⟨p.follows, List.isChain_singleton _, ?_⟩
  intro a ha b hb
  rw [List.head?_cons, Option.mem_def, Option.some.injEq] at hb
  have hlast : p.last = a := List.getLast_of_mem_getLast? ha
  rw [← hb, ← hlast]
  exact ⟨Int.not_lt.mp htime, hexit, hnew⟩

def changeState (p : Process) (state : PState) (time : Int) : Except LogError Process :=
  if hnew : state = .P_NEW then
    .error (.DuplicateNew p.pid)
  else if htime : time < p.last.snd then
    .error (.BadTime time)
  else if hexit : p.last.fst = .P_EXIT then
    .error (.TaskHasExited state)
  else if p.last.fst = state ∧ p.pid ≠ 0 then
    .error (.RepeatState p.pid)
  else
    .ok { p with records := p.records ++ [(state, time)], follows := follows_push hnew htime hexit }

def turnaroundTime (p : Process) : Int :=
  p.last.snd - p.created

-- The loop over the states, and `none` if the assertion fails.
def stateLastTime.loop (state : PState) (time stateBegin : Int) : List Record → Option Int
  | [] => some time
  | (s, t) :: records =>
    if s = state then
      loop state time t records
    else if stateBegin ≠ 0 then
      if stateBegin ≤ t then loop state (time + (t - stateBegin)) 0 records else none
    else
      loop state time stateBegin records

def stateLastTime (p : Process) (state : PState) : Option Int :=
  stateLastTime.loop state 0 0 p.states

def waitingTime (p : Process) : Option Int :=
  p.stateLastTime .P_READY

def cpuTime (p : Process) : Option Int :=
  p.stateLastTime .P_RUNNING

def ioTime (p : Process) : Option Int :=
  p.stateLastTime .P_WAITING

end Process

abbrev Pool := List Process

namespace Pool

def getProcess (pool : Pool) (pid : Int) : Option Process :=
  pool.find? fun p => p.pid == pid

def replace (pool : Pool) (p : Process) : Pool :=
  pool.map fun q => if q.pid = p.pid then p else q

def new (pool : Pool) (pid time : Int) : Except LogError Pool :=
  match getProcess pool pid with
  | some _ => if pid ≠ 0 then .error (.DuplicateNew pid) else .ok (replace pool (Process.new pid time))
  | none => .ok (pool ++ [Process.new pid time])

end Pool

structure Checker where
  processes : Pool
  prevTime : Int
  prevLine : List Char

def init : Except LogError Checker :=
  match (Process.new 0 40).changeState .P_RUNNING 40 with
  | .error e => .error e
  | .ok p => .ok { processes := [p], prevTime := 0, prevLine := [] }

def stateOf (s : List Char) : Option PState :=
  if s = ['N'] then some .P_NEW
  else if s = ['J'] then some .P_READY
  else if s = ['R'] then some .P_RUNNING
  else if s = ['W'] then some .P_WAITING
  else if s = ['E'] then some .P_EXIT
  else none

def applyState (c : Checker) (pid : Int) (s : List Char) (time : Int) : Except LogError Checker :=
  match stateOf s with
  | none => .error (.UnknownState s)
  | some .P_NEW =>
    match Pool.new c.processes pid time with
    | .error e => .error e
    | .ok processes => .ok { c with processes }
  | some state =>
    match Pool.getProcess c.processes pid with
    | none => .error (.NoNew pid s)
    | some p =>
      match p.changeState state time with
      | .error e => .error e
      | .ok p => .ok { c with processes := Pool.replace c.processes p }

section Log

variable (int : List Char → Option Int)

def checkLine (c : Checker) (line : List Char) : Except LogError Checker :=
  if line = c.prevLine then
    .error .SameLine
  else
    match line.splitOn '\t' with
    | [pid, s, time] =>
      match int pid with
      | none => .error (.ValueError pid)
      | some pid =>
        match int time with
        | none => .error (.ValueError time)
        | some time =>
          if time < c.prevTime then
            .error (.BadTime time)
          else
            applyState { c with prevTime := time, prevLine := line } pid (s.map Char.toUpper) time
    | _ => .error .BadFormat

def check.loop (c : Checker) : List (List Char) → Except LogError Checker
  | [] => .ok c
  | line :: lines =>
    match checkLine int c line with
    | .error e => .error e
    | .ok c => loop c lines

def check (lines : List (List Char)) : Except LogError Checker :=
  match init with
  | .error e => .error e
  | .ok c => check.loop int c lines

end Log

def NoTimeLost (records : List Record) : Prop :=
  records.IsChain fun a b => b.fst = a.fst ∨ a.snd = 0 → b.snd = a.snd

-- The time that the loop counts for `state`, and the time that it counts for none of them.
def spent (state : PState) : List Record → Int
  | a :: b :: records =>
    (if a.fst = state ∧ b.fst ≠ state ∧ a.snd ≠ 0 then b.snd - a.snd else 0) + spent state (b :: records)
  | _ => 0

def lost : List Record → Int
  | a :: b :: records => (if b.fst = a.fst ∨ a.snd = 0 then b.snd - a.snd else 0) + lost (b :: records)
  | _ => 0

section Times

variable {a : Record} {records : List Record}

theorem loop_eq (state : PState) (time : Int) (h : (a :: records).IsChain Follows)
    : Process.stateLastTime.loop state time (if a.fst = state then a.snd else 0) records
      = some (time + spent state (a :: records)) := by
  induction records generalizing a time with
  | nil => simp [Process.stateLastTime.loop, spent]
  | cons b records ih =>
    rw [List.isChain_cons_cons] at h
    obtain ⟨hfollows, hchain⟩ := h
    obtain ⟨s, t⟩ := b
    unfold Process.stateLastTime.loop
    rw [spent]
    by_cases hs : s = state
    . have hrest := ih time hchain
      rw [if_pos hs] at hrest
      rw [if_pos hs, hrest, if_neg (by simp [hs]), Int.zero_add]
    . have hcount : ∀ time, Process.stateLastTime.loop state time 0 records
          = some (time + spent state ((s, t) :: records)) := by
        intro time
        have hrest := ih time hchain
        rw [if_neg hs] at hrest
        exact hrest
      rw [if_neg hs]
      by_cases ha : a.fst = state ∧ a.snd ≠ 0
      . rw [if_pos ha.left, if_pos ha.right, if_pos hfollows.left, hcount, if_pos ⟨ha.left, hs, ha.right⟩,
          Int.add_assoc]
      . have hbegin : (if a.fst = state then a.snd else 0) = 0 := by
          split
          . next hstate => exact Classical.byContradiction fun hne => ha ⟨hstate, hne⟩
          . rfl
        rw [hbegin, if_neg (by simp), hcount, if_neg (fun h => ha ⟨h.left, h.right.right⟩), Int.zero_add]

theorem lost_nonneg (h : (a :: records).IsChain Follows) : 0 ≤ lost (a :: records) := by
  induction records generalizing a with
  | nil => exact Int.le_refl 0
  | cons b records ih =>
    rw [List.isChain_cons_cons] at h
    have hle := h.left.left
    have hrest := ih h.right
    rw [lost]
    split <;> omega

theorem lost_eq_zero_iff (h : (a :: records).IsChain Follows) : lost (a :: records) = 0 ↔ NoTimeLost (a :: records) := by
  induction records generalizing a with
  | nil => exact iff_of_true rfl (List.isChain_singleton _)
  | cons b records ih =>
    rw [List.isChain_cons_cons] at h
    have hle := h.left.left
    have hnonneg := lost_nonneg h.right
    rw [NoTimeLost, List.isChain_cons_cons, ← NoTimeLost, ← ih h.right, lost]
    split
    . next hcase =>
      simp only [hcase, true_implies]
      omega
    . next hcase =>
      simp only [hcase, false_implies, true_and]
      omega

theorem eq_spent_step {s s' : PState} {time elapsed : Int} (hnew : s ≠ .P_NEW) (hexit : s ≠ .P_EXIT)
    : elapsed
      = (if s = .P_READY ∧ s' ≠ .P_READY ∧ time ≠ 0 then elapsed else 0)
        + (if s = .P_RUNNING ∧ s' ≠ .P_RUNNING ∧ time ≠ 0 then elapsed else 0)
        + (if s = .P_WAITING ∧ s' ≠ .P_WAITING ∧ time ≠ 0 then elapsed else 0)
        + (if s' = s ∨ time = 0 then elapsed else 0) := by
  by_cases htime : time = 0
  . simp [htime]
  . cases s with
    | P_NEW => exact absurd rfl hnew
    | P_READY => by_cases hs : s' = .P_READY <;> simp [htime, hs]
    | P_WAITING => by_cases hs : s' = .P_WAITING <;> simp [htime, hs]
    | P_RUNNING => by_cases hs : s' = .P_RUNNING <;> simp [htime, hs]
    | P_EXIT => exact absurd rfl hexit

theorem sum_spent (h : (a :: records).IsChain Follows) (hnew : a.fst ≠ .P_NEW)
    : ((a :: records).getLast (List.cons_ne_nil a records)).snd - a.snd
      = spent .P_READY (a :: records) + spent .P_RUNNING (a :: records) + spent .P_WAITING (a :: records)
        + lost (a :: records) := by
  induction records generalizing a with
  | nil => simp [spent, lost]
  | cons b records ih =>
    rw [List.isChain_cons_cons] at h
    obtain ⟨⟨_, hexit, hnew'⟩, hchain⟩ := h
    have hrest := ih hchain hnew'
    have hfirst := @eq_spent_step a.fst b.fst a.snd (b.snd - a.snd) hnew hexit
    rw [List.getLast_cons_cons]
    simp only [spent, lost]
    omega

end Times

namespace Process

def newTime (p : Process) : Int :=
  match p.records with
  | [] => 0
  | (_, time) :: _ => time - p.created

theorem stateLastTime_eq (p : Process) {state : PState} (hnew : .P_NEW ≠ state)
    : p.stateLastTime state = some (spent state p.records) := by
  have hfollows := p.follows
  unfold stateLastTime states
  rw [stateLastTime.loop, if_neg hnew, if_neg (by simp)]
  cases hrecords : p.records with
  | nil => rfl
  | cons b records =>
    rw [hrecords, List.isChain_cons_cons] at hfollows
    have hloop := loop_eq state 0 hfollows.right
    rw [Int.zero_add] at hloop
    rw [← hloop]
    obtain ⟨s, t⟩ := b
    rw [stateLastTime.loop]
    by_cases hs : s = state
    . rw [if_pos hs, if_pos hs]
    . rw [if_neg hs, if_neg hs, if_neg (by simp)]

theorem turnaroundTime_eq (p : Process)
    : p.turnaroundTime
      = p.newTime + (spent .P_READY p.records + spent .P_RUNNING p.records + spent .P_WAITING p.records
        + lost p.records) := by
  obtain ⟨_, created, records, hfollows⟩ := p
  unfold turnaroundTime last states newTime
  dsimp only
  cases records with
  | nil => simp [spent, lost]
  | cons b records =>
    rw [List.isChain_cons_cons] at hfollows
    have hsum := sum_spent hfollows.right hfollows.left.right.right
    rw [List.getLast_cons_cons, ← hsum]
    dsimp only
    omega

theorem lost_iff (p : Process) : lost p.records = 0 ↔ NoTimeLost p.records := by
  have hfollows := p.follows
  cases hrecords : p.records with
  | nil => exact iff_of_true rfl List.isChain_nil
  | cons b records =>
    rw [hrecords, List.isChain_cons_cons] at hfollows
    exact lost_eq_zero_iff hfollows.right

end Process

/--
In every log that is accepted, the assertion holds for every process, and its times add up exactly if no time is lost
between its records.
-/
theorem conserved_iff_noTimeLost (int : List Char → Option Int) (lines : List (List Char)) (c : Checker)
    : check int lines = .ok c →
        ∀ p ∈ c.processes, ∃ waiting cpu io, p.waitingTime = some waiting ∧ p.cpuTime = some cpu ∧ p.ioTime = some io
          ∧ (p.turnaroundTime = p.newTime + waiting + cpu + io ↔ NoTimeLost p.records) := by
  intro _ p _
  have hwaiting := @p.stateLastTime_eq .P_READY (by decide)
  have hcpu := @p.stateLastTime_eq .P_RUNNING (by decide)
  have hio := @p.stateLastTime_eq .P_WAITING (by decide)
  refine ⟨_, _, _, hwaiting, hcpu, hio, ?_⟩
  rw [← p.lost_iff, p.turnaroundTime_eq]
  omega

-- `int` of a decimal number, which may have the end of the line behind it.
def decimal (field : List Char) : Option Int :=
  let digits := if field.getLast? = some '\n' then field.dropLast else field
  if digits ≠ [] ∧ digits.all Char.isDigit then
    some (digits.foldl (fun n c => 10 * n + (c.toNat - 48 : Nat)) 0)
  else
    none

def histories : Except LogError Checker → List (Int × List Record)
  | .error _ => []
  | .ok c => c.processes.map fun p => (p.created, p.records)

theorem process_of_histories {r : Except LogError Checker} {created : Int} {records : List Record}
    {others : List (Int × List Record)} (h : histories r = (created, records) :: others)
    : ∃ c p, r = .ok c ∧ p ∈ c.processes ∧ p.created = created ∧ p.records = records := by
  cases r with
  | error e => cases h
  | ok c =>
    obtain ⟨p, others', hprocesses, hp, _⟩ := List.map_eq_cons_iff.mp h
    cases hp
    refine ⟨c, p, rfl, ?_, rfl, rfl⟩
    rw [hprocesses]
    exact List.mem_cons_self

-- Process 0 waits from 50 to 70.
theorem conserved_wait
    : ∃ c p, check decimal ["0\tW\t50\n".toList, "0\tR\t70\n".toList] = .ok c ∧ p ∈ c.processes
        ∧ ∃ waiting cpu io, p.waitingTime = some waiting ∧ p.cpuTime = some cpu ∧ p.ioTime = some io
          ∧ p.turnaroundTime = p.newTime + waiting + cpu + io := by
  have hhistories : histories (check decimal ["0\tW\t50\n".toList, "0\tR\t70\n".toList])
      = [(40, [(.P_RUNNING, 40), (.P_WAITING, 50), (.P_RUNNING, 70)])] := by
    decide +kernel
  obtain ⟨c, p, hcheck, hp, _, hrecords⟩ := process_of_histories hhistories
  obtain ⟨waiting, cpu, io, hwaiting, hcpu, hio, hiff⟩ := conserved_iff_noTimeLost decimal _ c hcheck p hp
  refine ⟨c, p, hcheck, hp, waiting, cpu, io, hwaiting, hcpu, hio, hiff.mpr ?_⟩
  rw [hrecords, NoTimeLost]
  decide

-- Process 0 goes on running at 50: the ten ticks before that are in none of its times.
theorem not_conserved_repeat
    : ∃ c p, check decimal ["0\tR\t50\n".toList] = .ok c ∧ p ∈ c.processes
        ∧ p.waitingTime = some 0 ∧ p.cpuTime = some 0 ∧ p.ioTime = some 0
        ∧ p.turnaroundTime ≠ p.newTime + 0 + 0 + 0 := by
  have hhistories : histories (check decimal ["0\tR\t50\n".toList])
      = [(40, [(.P_RUNNING, 40), (.P_RUNNING, 50)])] := by
    decide +kernel
  obtain ⟨c, p, hcheck, hp, _, hrecords⟩ := process_of_histories hhistories
  have hspent : ∀ state, spent state p.records = 0 := by
    intro state
    rw [hrecords]
    by_cases hstate : PState.P_RUNNING = state <;> simp [spent, hstate]
  have hlost : lost p.records = 10 := by
    rw [hrecords]
    rfl
  refine ⟨c, p, hcheck, hp, ?_, ?_, ?_, ?_⟩
  . rw [Process.waitingTime, p.stateLastTime_eq (by decide), hspent]
  . rw [Process.cpuTime, p.stateLastTime_eq (by decide), hspent]
  . rw [Process.ioTime, p.stateLastTime_eq (by decide), hspent]
  . rw [p.turnaroundTime_eq, hspent, hspent, hspent, hlost]
    omega

end StatTimes
end OS
