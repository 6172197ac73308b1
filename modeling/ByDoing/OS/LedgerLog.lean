import ByDoing.OS.Ledger

namespace OS
namespace Ledger

-- The checker has read the log, and `idle_last` is why task 0 never writes one line twice in a row.
structure Readable (v : Ledger) : Prop where
  accepted : StatLog.Accepted v.log
  time_ge : 40 ≤ v.time
  times_le : ∀ line ∈ v.log, line.time ≤ v.time
  idle_last : ∀ line, v.log.getLast? = some line → line.pid = 0 →
    v.pid v.front = 0 ∧ (line.letter = .R ∨ line.letter = .J ∧ ∃ next, v.stage = .run next)
  child : ∀ child, v.stage = .forked child → v.pid child ≠ 0 ∧ v.letter child = some .N
  exited : v.stage = .exited → v.state v.current ≠ .TASK_RUNNING
  gone : v.Has v.current ∨ v.state v.current ≠ .TASK_RUNNING

def Sleeper (v : Ledger) (p : Page) : Prop :=
  v.Has p ∧ v.pid p ≠ 0 ∧ (v.state p).asleep ∧ (p = v.front → ∃ next, v.stage = .run next)

theorem Sleeper.undisturbed {v : Ledger} {p : Page} (h : v.Sleeper p) (horder : Orderly v)
    : v.Undisturbed p := by
  obtain ⟨hp, _, _, hcurrent⟩ := h
  intro q hq hpid
  have heq := horder.inj q p hq hp hpid
  subst heq
  exact ⟨rfl, hcurrent⟩

def Acceptable (v : Ledger) : Event → Prop
  | .tick time => v.time ≤ time
  | .expire time => v.time ≤ time
  | .wake p => v.Sleeper p
  | .fork _ _ pid => lastLetter v.log pid = none
  | _ => True

theorem lastLetter_of_getLast? {log : List LogLine} {line : LogLine} (h : log.getLast? = some line)
    : lastLetter log line.pid = some line.letter := by
  obtain ⟨lines, rfl⟩ := List.getLast?_eq_some_iff.mp h
  rw [lastLetter_append, if_pos rfl]

theorem Readable.fine_later {v : Ledger} (h : Readable v) {p : Page} {old letter : Letter}
    (hzero : v.pid p ≠ 0) (hold : v.letter p = some old) (hexit : old ≠ .E) (hne : old ≠ letter)
    (hnew : letter ≠ .N)
    : StatLog.Fine v.log { pid := v.pid p, letter, time := v.time } := by
  have htime := h.time_ge
  constructor
  . intro hlast
    have heq := lastLetter_of_getLast? hlast
    rw [show lastLetter v.log (v.pid p) = some old from hold, Option.some.injEq] at heq
    exact hne heq
  . dsimp only
    omega
  . exact h.times_le
  . intro heq
    exact absurd heq hzero
  . intro _ heq
    exact absurd heq hnew
  . intro _ _
    exact ⟨old, hold, hexit, hne⟩

theorem Readable.fine_new {v : Ledger} (h : Readable v) {pid : Nat} (hzero : pid ≠ 0)
    (hnone : lastLetter v.log pid = none)
    : StatLog.Fine v.log { pid, letter := .N, time := v.time } := by
  have htime := h.time_ge
  constructor
  . intro hlast
    have heq := lastLetter_of_getLast? hlast
    dsimp only at heq
    rw [hnone] at heq
    simp at heq
  . dsimp only
    omega
  . exact h.times_le
  . intro heq
    exact absurd heq hzero
  . intro _ _
    exact hnone
  . intro _ hletter
    exact absurd rfl hletter

theorem Readable.fine_idle {v : Ledger} (h : Readable v) {letter : Letter}
    (hlast : v.log.getLast? ≠ some { pid := 0, letter, time := v.time }) (hletter : letter = .J ∨ letter = .R)
    : StatLog.Fine v.log { pid := 0, letter, time := v.time } := by
  have htime := h.time_ge
  constructor
  . exact hlast
  . dsimp only
    omega
  . exact h.times_le
  . intro _
    refine ⟨?_, ?_, htime⟩
    . rcases hletter with heq | heq <;> simp [heq]
    . rcases hletter with heq | heq <;> simp [heq]
  . intro hne
    exact absurd rfl hne
  . intro hne
    exact absurd rfl hne

theorem Readable.write {v w : Ledger} (h : Readable v) (hlog : w.log = v.log) (htime : w.time = v.time)
    {p : Page} {letter : Letter} (hfine : StatLog.Fine v.log { pid := w.pid p, letter, time := v.time })
    (hidle : w.pid p = 0 →
      w.pid w.front = 0 ∧ (letter = .R ∨ letter = .J ∧ ∃ next, w.stage = .run next))
    (hchild : ∀ child, w.stage = .forked child →
      w.pid child ≠ 0 ∧ (w.write p letter).letter child = some .N)
    (hexited : w.stage = .exited → w.state w.current ≠ .TASK_RUNNING)
    (hgone : w.Has w.current ∨ w.state w.current ≠ .TASK_RUNNING)
    : Readable (w.write p letter) := by
  have hline : (w.write p letter).log = v.log ++ [{ pid := w.pid p, letter, time := v.time }] := by
    simp only [write_log, hlog, htime]
  constructor
  . rw [hline]
    exact h.accepted.append hfine
  . rw [write_time, htime]
    exact h.time_ge
  . intro line hmem
    rw [hline, List.mem_append, List.mem_singleton] at hmem
    rw [write_time, htime]
    rcases hmem with hmem | hmem
    . exact h.times_le line hmem
    . rw [hmem]
  . intro line hlast hzero
    rw [hline, List.getLast?_append, List.getLast?_singleton, Option.some_or, Option.some.injEq] at hlast
    subst hlast
    exact hidle hzero
  . exact hchild
  . exact hexited
  . exact hgone

theorem Readable.tick {v : Ledger} (h : Readable v) {time : Int} (hle : v.time ≤ time)
    : Readable (v.setTime time) := by
  refine ⟨h.accepted, ?_, ?_, h.idle_last, h.child, h.exited, h.gone⟩
  . exact Int.le_trans h.time_ge hle
  . intro line hmem
    exact Int.le_trans (h.times_le line hmem) hle

theorem Readable.silent {v w : Ledger} (h : Readable v) (hlog : w.log = v.log) (htime : w.time = v.time)
    (hfront : w.pid w.front = v.pid v.front)
    (hrun : ∀ next, v.stage = .run next → w.stage = .run next)
    (hchild : ∀ child, w.stage = .forked child → v.stage = .forked child ∧ w.pid child = v.pid child)
    (hexited : w.stage = .exited → w.state w.current ≠ .TASK_RUNNING)
    (hgone : w.Has w.current ∨ w.state w.current ≠ .TASK_RUNNING)
    : Readable w := by
  constructor
  . rw [hlog]
    exact h.accepted
  . rw [htime]
    exact h.time_ge
  . rw [hlog, htime]
    exact h.times_le
  . intro line hlast hzero
    rw [hlog] at hlast
    obtain ⟨hpid, hletter⟩ := h.idle_last line hlast hzero
    refine ⟨hfront ▸ hpid, hletter.imp_right ?_⟩
    intro ⟨hj, next, hnext⟩
    exact ⟨hj, next, hrun next hnext⟩
  . intro child hstage
    obtain ⟨hforked, hpid⟩ := hchild child hstage
    unfold letter
    rw [hlog, hpid]
    exact h.child child hforked
  . exact hexited
  . exact hgone

theorem Truthful.letter_sleeper {v : Ledger} (h : Truthful v) (horder : Orderly v) {p : Page}
    (hp : v.Sleeper p)
    : v.letter p = some .W := by
  obtain ⟨hhas, hzero, hasleep, _⟩ := hp
  have hforked : v.stage ≠ .forked p := by
    intro hstage
    exact hasleep.ne_running (horder.child p hstage).right.right
  rw [(h p hhas hzero).resolve_left hforked]
  unfold expected
  rw [if_neg (fun hand => hasleep.ne_running hand.right.left), hasleep.letterOf]

theorem Truthful.letter_current {v : Ledger} (h : Truthful v) (hhas : v.Has v.current)
    (hzero : v.pid v.current ≠ 0) (hrunning : v.state v.current = .TASK_RUNNING)
    (hstage : v.stage = .running ∨ ∃ next, v.stage = .ready next)
    : v.letter v.current = some .R := by
  have hfront : v.front = v.current := by
    rcases hstage with hstage | ⟨next, hstage⟩ <;> simp [front, hstage]
  have hrun : ∀ next, v.stage ≠ .run next := by
    rcases hstage with hstage | ⟨next, hstage⟩ <;> simp [hstage]
  have hforked : v.stage ≠ .forked v.current := by
    rcases hstage with hstage | ⟨next, hstage⟩ <;> simp [hstage]
  rw [(h v.current hhas hzero).resolve_left hforked]
  unfold expected
  rw [if_pos ⟨hfront.symm, hrunning, hrun⟩]

theorem Readable.wake {v : Ledger} (h : Readable v) (horder : Orderly v) (htrue : Truthful v) {p : Page}
    (hp : v.Sleeper p)
    : Readable (v.apply (.wake p)) := by
  obtain ⟨hhas, hzero, hasleep, hfront⟩ := id hp
  have hletter := htrue.letter_sleeper horder hp
  refine @Readable.write v (v.setState p .TASK_RUNNING) h rfl rfl p .J ?_ ?_ ?_ ?_ ?_
  . exact h.fine_later hzero hletter (by simp) (by simp) (by simp)
  . intro heq
    exact absurd heq hzero
  . intro child hstage
    obtain ⟨hchild, hnew⟩ := h.child child hstage
    refine ⟨hchild, ?_⟩
    have hne : v.pid p ≠ v.pid child := by
      intro heq
      unfold letter at hletter hnew
      rw [heq, hnew] at hletter
      simp at hletter
    rw [letter_write, if_neg (by exact hne)]
    exact hnew
  . intro hstage
    have hexited : v.stage = .exited := hstage
    have hne : v.current ≠ p := by
      intro heq
      obtain ⟨next, hnext⟩ := hfront (by simp [front, hexited, heq])
      rw [hexited] at hnext
      simp at hnext
    rw [setState_current, setState_state, Function.update_of_ne hne]
    exact h.exited hstage
  . by_cases heq : v.current = p
    . left
      exact heq ▸ hhas
    . rw [setState_current, setState_state, Function.update_of_ne heq]
      exact h.gone

theorem Readable.stops {v : Ledger} (h : Readable v) (horder : Orderly v) (htrue : Truthful v)
    (hstage : v.stage = .running) (hzero : v.pid v.current ≠ 0) {state : TaskState} {letter : Letter}
    {stage : Stage} (hstate : state ≠ .TASK_RUNNING) (hletter : letterOf state = some letter)
    (hforked : ∀ child, stage ≠ .forked child)
    : Readable (((v.setState v.current state).setStage stage).write v.current letter) := by
  have hold := htrue.letter_current (horder.in_table (.inl hstage)) hzero
    (horder.running (.inl hstage) hzero) (.inl hstage)
  have hne : Letter.R ≠ letter ∧ letter ≠ .N := by
    cases state <;> simp [letterOf] at hletter hstate <;> simp [← hletter]
  refine @Readable.write v ((v.setState v.current state).setStage stage) h rfl rfl v.current letter
    ?_ ?_ ?_ ?_ ?_
  . exact h.fine_later hzero hold (by simp) hne.left hne.right
  . intro heq
    exact absurd heq hzero
  . intro child heq
    exact absurd heq (hforked child)
  . intro _
    simpa using hstate
  . right
    simpa using hstate

theorem Readable.preempt {v : Ledger} (h : Readable v) (htrue : Truthful v) {next : Slot}
    (hstage : v.stage = .ready next) (hrunning : v.state v.current = .TASK_RUNNING)
    : Readable ((v.setStage (.run next)).write v.current .J) := by
  have hhas := h.gone.resolve_right (fun hne => hne hrunning)
  refine @Readable.write v (v.setStage (.run next)) h rfl rfl v.current .J ?_ ?_ ?_ ?_ ?_
  . rw [setStage_pid]
    by_cases hzero : v.pid v.current = 0
    . rw [hzero]
      refine h.fine_idle ?_ (.inl rfl)
      intro hlast
      have hletter := (h.idle_last _ hlast rfl).right
      simp [hstage] at hletter
    . have hold := htrue.letter_current hhas hzero hrunning (.inr ⟨next, hstage⟩)
      exact h.fine_later hzero hold (by simp) (by simp) (by simp)
  . intro hzero
    exact ⟨hzero, .inr ⟨rfl, next, rfl⟩⟩
  . simp
  . simp
  . exact .inl hhas

theorem Readable.give {v : Ledger} (h : Readable v) (horder : Orderly v) (htrue : Truthful v) {next : Slot}
    {p : Page} (hstage : v.stage = .run next) (hp : v.task next = some p)
    : Readable ((v.setStage (.given next)).write p .R) := by
  obtain ⟨p', hp', hne, hrunning⟩ := horder.next next (.inr (.inl hstage))
  rw [hp, Option.some.injEq] at hp'
  subst hp'
  refine @Readable.write v (v.setStage (.given next)) h rfl rfl p .R ?_ ?_ ?_ ?_ ?_
  . rw [setStage_pid]
    by_cases hzero : v.pid p = 0
    . rw [hzero]
      refine h.fine_idle ?_ (.inr rfl)
      intro hlast
      have hcurrent := (h.idle_last _ hlast rfl).left
      rw [front_of_stage (by simp [hstage])] at hcurrent
      exact hne (horder.current_pid p ⟨next, hp⟩ (hzero.trans hcurrent.symm))
    . have hold := (htrue p ⟨next, hp⟩ hzero).resolve_left (by simp [hstage])
      rw [expected_of_run hstage, hrunning hzero] at hold
      exact h.fine_later hzero hold (by simp) (by simp) (by simp)
  . intro hzero
    rw [@front_of_given (v.setStage (.given next)) next p rfl hp]
    exact ⟨hzero, .inl rfl⟩
  . simp
  . simp
  . exact h.gone

theorem Readable.fork {v : Ledger} (h : Readable v) {p : Page} {nr : Slot} {pid : Nat}
    (he : v.Enabled (.fork p nr pid)) (hnone : lastLetter v.log pid = none)
    : Readable (v.apply (.fork p nr pid)) := by
  obtain ⟨hstage, _, hfree, _, hcurrent, hzero, _⟩ := he
  refine @Readable.write v
    ((((v.setPid p pid).setState p .TASK_RUNNING).setSlot nr (some p)).setStage (.forked p)) h rfl rfl p .N
    ?_ ?_ ?_ ?_ ?_
  . have hfine := h.fine_new hzero hnone
    simpa using hfine
  . intro heq
    simp only [setStage_pid, setSlot_pid, setState_pid, setPid_pid, Function.update_self] at heq
    exact absurd heq hzero
  . intro child hchild
    simp only [setStage_stage, Stage.forked.injEq] at hchild
    subst hchild
    refine ⟨by simpa using hzero, ?_⟩
    rw [letter_write, if_pos rfl]
  . simp
  . rcases h.gone with hhas | hne
    . exact .inl (has_update_of_free hfree hhas)
    . right
      simpa [Ne.symm hcurrent] using hne

theorem Readable.apply {v : Ledger} {e : Event} (h : Readable v) (horder : Orderly v) (htrue : Truthful v)
    (he : v.Enabled e) (hok : v.Acceptable e)
    : Readable (v.apply e) := by
  cases e with
  | quiet => exact h
  | tick time => exact h.tick hok
  | expire time =>
    dsimp only [Enabled] at he
    exact (h.tick hok).silent rfl rfl (by simp [Ledger.apply, front, he]) (by simp [he])
      (by simp [Ledger.apply]) (by simp [Ledger.apply]) h.gone
  | schedule =>
    dsimp only [Enabled] at he
    refine h.silent rfl rfl ?_ ?_ (by simp [Ledger.apply]) (by simp [Ledger.apply]) h.gone
    . rcases he with he | he <;> simp [Ledger.apply, front, he]
    . rcases he with he | he <;> simp [he]
  | wake p => exact h.wake horder htrue hok
  | sleep state =>
    obtain ⟨hstage, hzero, hasleep⟩ := he
    exact h.stops horder htrue hstage hzero hasleep.ne_running hasleep.letterOf (by simp)
  | exit =>
    obtain ⟨hstage, hzero⟩ := he
    exact h.stops horder htrue hstage hzero (by simp) rfl (by simp)
  | idle =>
    obtain ⟨hstage, _⟩ := he
    exact h.silent rfl rfl (by simp [Ledger.apply, front, hstage]) (by simp [hstage])
      (by simp [Ledger.apply]) (by simp [Ledger.apply]) (.inr (by simp [Ledger.apply]))
  | select next =>
    obtain ⟨hstage, _⟩ := he
    exact h.silent rfl rfl (by simp [Ledger.apply, front, hstage]) (by simp [hstage])
      (by simp [Ledger.apply]) (by simp [Ledger.apply]) h.gone
  | reselect p =>
    obtain ⟨hstage, hp, hpid, _⟩ := he
    exact h.silent rfl rfl (by simp [Ledger.apply, front, hstage, hpid]) (by simp [hstage])
      (by simp [Ledger.apply]) (by simp [Ledger.apply]) (.inl hp)
  | preempt =>
    obtain ⟨⟨next, hstage⟩, hrunning⟩ := he
    simp only [Ledger.apply, hstage]
    exact h.preempt htrue hstage hrunning
  | pass =>
    obtain ⟨⟨next, hstage⟩, hrunning⟩ := he
    simp only [Ledger.apply, hstage]
    exact h.silent rfl rfl (by simp [front, hstage]) (by simp [hstage]) (by simp) (by simp) h.gone
  | give p =>
    obtain ⟨next, hstage, hp⟩ := he
    simp only [Ledger.apply, hstage]
    exact h.give horder htrue hstage hp
  | switch p =>
    obtain ⟨next, hstage, hp⟩ := he
    have hfront := front_of_given hstage hp
    refine h.silent rfl rfl ?_ (by simp [hstage]) (by simp [Ledger.apply]) (by simp [Ledger.apply])
      (.inl ⟨next, hp⟩)
    rw [hfront]
    rfl
  | fork p nr pid => exact h.fork he hok
  | childReady =>
    obtain ⟨child, hstage⟩ := he
    obtain ⟨hzero, hnew⟩ := h.child child hstage
    simp only [Ledger.apply, hstage]
    refine @Readable.write v (v.setStage .running) h rfl rfl child .J ?_ ?_ (by simp) (by simp) h.gone
    . exact h.fine_later hzero hnew (by simp) (by simp) (by simp)
    . intro heq
      exact absurd heq hzero
  | release i =>
    obtain ⟨_, hstage⟩ := he
    have hrun : ∀ next, v.stage ≠ .run next := by
      intro next heq
      simp [heq] at hstage
    refine h.silent rfl rfl ?_ ?_ (by simp [Ledger.apply]) (by simp [Ledger.apply]) ?_
    . rcases hstage with hexited | ⟨hrunning, _⟩
      . simp [Ledger.apply, front, hexited]
      . simp [Ledger.apply, front, hrunning]
    . intro next heq
      exact absurd heq (hrun next)
    . rcases hstage with hexited | ⟨hrunning, hne⟩
      . exact .inr (h.exited hexited)
      . exact .inl (has_update_of_other hne (horder.in_table (.inl hrunning)))
  | scrap p pid state =>
    obtain ⟨hnew, hcurrent⟩ := he
    have hself : (v.apply (.scrap p pid state)).state v.current = v.state v.current :=
      Function.update_of_ne (Ne.symm hcurrent) _ _
    refine h.silent rfl rfl (Function.update_of_ne (front_ne hnew hcurrent) _ _) (fun _ hstage => hstage) ?_ ?_ ?_
    . intro child hstage
      have hne : child ≠ p := by
        intro heq
        exact hnew (heq ▸ (horder.child child hstage).left)
      exact ⟨hstage, Function.update_of_ne hne _ _⟩
    . intro hstage
      exact fun hrunning => h.exited hstage (hself ▸ hrunning)
    . exact h.gone.imp_right (fun hne hrunning => hne (hself ▸ hrunning))

end Ledger
end OS
