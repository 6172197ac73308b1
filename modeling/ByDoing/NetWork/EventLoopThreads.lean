import ByDoing.Lib.Run
import ByDoing.NetWork.EventLoop
import ByDoing.NetWork.PollDispatcher

/-!
This module contains an event loop that its owner runs while other threads enqueue channel operations.
A section under the mutex is one step. `writing` are the threads that have released the mutex in
`event_loop_do_channel_event` and have not yet written their byte, `unread` the number of bytes in the
socket pair. The owner is outside of `event_loop_run`, in `dispatch` (where `handleWakeup` may already
have run), between the return of `dispatch` and the drain of the run loop, or in
`event_loop_do_channel_event` between its own section and its own drain.
-/

namespace NetWork

inductive Owner where
  | outside
  | dispatch (woken : Bool)
  | returned
  | drain (callback : Option Bool)
  deriving Repr, DecidableEq

namespace Owner

def caller : Owner → Option (Option Bool)
  | outside => some none
  | dispatch woken => some (some woken)
  | _ => none

def resume : Option Bool → Owner
  | none => outside
  | some woken => dispatch woken

end Owner

structure Threads (δ : Type) where
  loop : EventLoop δ
  owner : Owner
  writing : List Nat
  unread : Nat
  enqueued : List Pending

inductive ThreadsAct (δ : Type) where
  | enqueue (thread : Nat) (pending : Pending)
  | wakeup (thread : Nat)
  | ownEnqueue (pending : Pending)
  | ownDrain (around : Surroundings δ)
  | run
  | handleWakeup
  | dispatchReturns
  | runDrain (around : Surroundings δ)

namespace Threads

variable {δ : Type}

def init (data : δ) : Threads δ :=
  { loop := EventLoop.eventLoopInit data, owner := .outside, writing := [], unread := 0, enqueued := [] }

def enqueue (s : Threads δ) (pending : Pending) : Except Ending (Threads δ) :=
  match s.loop.enqueue pending with
  | .error e => .error e
  | .ok loop => .ok { s with loop, enqueued := s.enqueued ++ [pending] }

def drain (around : Surroundings δ) (s : Threads δ) : Except Ending (Threads δ) :=
  match s.loop.eventLoopHandlePendingChannel around with
  | .error e => .error e
  | .ok loop => .ok { s with loop }

-- `none` is a step that cannot be taken now, an error a step that ends the process.
def step (s : Threads δ) : ThreadsAct δ → Option (Except Ending (Threads δ))
  | .enqueue thread pending =>
    if thread ∈ s.writing then
      none
    else
      some ({ s with writing := thread :: s.writing }.enqueue pending)
  | .wakeup thread =>
    if thread ∈ s.writing then
      some (.ok { s with writing := s.writing.erase thread, unread := s.unread + 1 })
    else
      none
  | .ownEnqueue pending =>
    match s.owner.caller with
    | none => none
    | some callback => some ({ s with owner := .drain callback }.enqueue pending)
  | .ownDrain around =>
    match s.owner with
    | .drain callback => some ({ s with owner := Owner.resume callback }.drain around)
    | _ => none
  | .run =>
    match s.owner with
    | .outside => some (.ok { s with owner := .dispatch false })
    | _ => none
  | .handleWakeup =>
    match s.owner, s.unread with
    | .dispatch _, unread + 1 => some (.ok { s with owner := .dispatch true, unread })
    | _, _ => none
  | .dispatchReturns =>
    match s.owner with
    | .dispatch _ => some (.ok { s with owner := .returned })
    | _ => none
  | .runDrain around =>
    match s.owner with
    | .returned => some ({ s with owner := .dispatch false }.drain around)
    | _ => none

def next (s : Threads δ) (a : ThreadsAct δ) : Option (Threads δ) :=
  match step s a with
  | some (.ok s') => some s'
  | _ => none

def waiting (s : Threads δ) : List Pending :=
  s.enqueued.drop s.loop.applied.length

def Fits (s : Threads δ) : ThreadsAct δ → Prop
  | .ownDrain around | .runDrain around => Run.AllOk around.handle around.Fits s.loop.channelLoop s.waiting
  | _ => True

def PendingInv (s : Threads δ) : Prop :=
  ∃ nodes pending, s.loop.Holds nodes pending ∧ s.loop.applied ++ pending = s.enqueued

theorem init_pendingInv (data : δ) : (init data).PendingInv := by
  refine ⟨[], [], EventLoop.eventLoopInit_holds data, ?_⟩
  rfl

variable {s s' : Threads δ} {a : ThreadsAct δ}

theorem waiting_of_append {pending : List Pending} (h : s.loop.applied ++ pending = s.enqueued)
    : s.waiting = pending := by
  unfold waiting
  rw [← h, List.drop_left]

theorem enqueue_pendingInv (h : s.PendingInv) (p : Pending)
    : ∃ s', s.enqueue p = .ok s' ∧ s'.PendingInv
        ∧ s'.owner = s.owner ∧ s'.writing = s.writing ∧ s'.unread = s.unread := by
  obtain ⟨nodes, pending, hholds, happlied⟩ := h
  obtain ⟨loop, henqueue, hholds', heq⟩ := EventLoop.enqueue_spec hholds p
  unfold enqueue
  rw [henqueue]
  refine ⟨_, rfl, ⟨_, _, hholds', ?_⟩, rfl, rfl, rfl⟩
  dsimp only
  rw [heq, ← happlied, List.append_assoc]

theorem drain_cases (around : Surroundings δ) (h : s.PendingInv)
    : (∃ s', s.drain around = .ok s' ∧ Run.AllOk around.handle around.Fits s.loop.channelLoop s.waiting
        ∧ s'.PendingInv ∧ s'.loop.applied = s'.enqueued ∧ s'.loop.pendingHead = none)
      ∨ (¬ Run.AllOk around.handle around.Fits s.loop.channelLoop s.waiting
        ∧ ∃ e, e ≠ .fault .assertFailed ∧ s.drain around = .error e) := by
  obtain ⟨nodes, pending, hholds, happlied⟩ := h
  rw [waiting_of_append happlied]
  unfold drain
  obtain ⟨loop, hdrain, hholds', heq, hfits⟩ | ⟨hfits, e, he, hdrain⟩ :=
    EventLoop.eventLoopHandlePendingChannel_cases around hholds
  . rw [hdrain]
    rw [happlied] at heq
    refine .inl ⟨_, rfl, hfits, ⟨[], [], hholds', ?_⟩, heq, hholds'.chain.left⟩
    rw [List.append_nil]
    exact heq
  . rw [hdrain]
    exact .inr ⟨hfits, e, he, rfl⟩

def WillDrain : Owner → Prop
  | .dispatch woken => woken = true
  | .returned => True
  | .drain _ => True
  | .outside => False

def NotStranded (s : Threads δ) : Prop :=
  s.loop.pendingHead ≠ none → 0 < s.unread ∨ (∃ thread, thread ∈ s.writing) ∨ WillDrain s.owner

theorem notStranded_of_drained (h : s.loop.pendingHead = none) : s.NotStranded := by
  intro hne
  contradiction

def Drains (around : Surroundings δ) (a : ThreadsAct δ) : Prop :=
  a = .ownDrain around ∨ a = .runDrain around

theorem step_cases {res : Except Ending (Threads δ)} (h : step s a = some res)
    : (∃ (t : Threads δ) (p : Pending), res = t.enqueue p ∧ t.loop = s.loop ∧ t.enqueued = s.enqueued
          ∧ (∀ around, ¬ Drains around a) ∧ (t.writing ≠ [] ∨ WillDrain t.owner))
      ∨ (∃ (t : Threads δ) (around : Surroundings δ), res = t.drain around ∧ t.loop = s.loop
          ∧ t.enqueued = s.enqueued ∧ Drains around a)
      ∨ (∃ (t : Threads δ), res = .ok t ∧ t.loop = s.loop ∧ t.enqueued = s.enqueued
          ∧ (∀ around, ¬ Drains around a) ∧ (s.NotStranded → t.NotStranded)) := by
  cases a with
  | enqueue thread pending =>
    dsimp only [step] at h
    split at h
    . simp at h
    . rw [Option.some.injEq] at h
      exact .inl ⟨_, pending, h.symm, rfl, rfl, by simp [Drains], .inl (by simp)⟩
  | wakeup thread =>
    dsimp only [step] at h
    split at h
    . rw [Option.some.injEq] at h
      refine .inr (.inr ⟨_, h.symm, rfl, rfl, by simp [Drains], ?_⟩)
      intro _ _
      exact .inl (Nat.succ_pos _)
    . simp at h
  | ownEnqueue pending =>
    dsimp only [step] at h
    split at h
    . simp at h
    . rw [Option.some.injEq] at h
      exact .inl ⟨_, pending, h.symm, rfl, rfl, by simp [Drains], .inr trivial⟩
  | ownDrain around =>
    dsimp only [step] at h
    split at h
    . rw [Option.some.injEq] at h
      exact .inr (.inl ⟨_, around, h.symm, rfl, rfl, .inl rfl⟩)
    . simp at h
  | run =>
    dsimp only [step] at h
    split at h
    . next howner =>
      rw [Option.some.injEq] at h
      refine .inr (.inr ⟨_, h.symm, rfl, rfl, by simp [Drains], ?_⟩)
      intro hs hne
      simpa [WillDrain, howner] using hs hne
    . simp at h
  | handleWakeup =>
    dsimp only [step] at h
    split at h
    . rw [Option.some.injEq] at h
      refine .inr (.inr ⟨_, h.symm, rfl, rfl, by simp [Drains], ?_⟩)
      intro _ _
      exact .inr (.inr rfl)
    . simp at h
  | dispatchReturns =>
    dsimp only [step] at h
    split at h
    . rw [Option.some.injEq] at h
      refine .inr (.inr ⟨_, h.symm, rfl, rfl, by simp [Drains], ?_⟩)
      intro _ _
      exact .inr (.inr trivial)
    . simp at h
  | runDrain around =>
    dsimp only [step] at h
    split at h
    . rw [Option.some.injEq] at h
      exact .inr (.inl ⟨_, around, h.symm, rfl, rfl, .inr rfl⟩)
    . simp at h

theorem pendingInv_of_eq {t : Threads δ} (h : s.PendingInv) (hloop : t.loop = s.loop)
    (henqueued : t.enqueued = s.enqueued)
    : t.PendingInv := by
  unfold PendingInv
  rw [hloop, henqueued]
  exact h

theorem next_eq_some (h : next s a = some s') : step s a = some (.ok s') := by
  unfold next at h
  split at h
  . next hstep =>
    cases h
    exact hstep
  . simp at h

theorem next_inv (s s' : Threads δ) (a : ThreadsAct δ) (hinv : s.PendingInv ∧ s.NotStranded)
    (h : next s a = some s')
    : s'.PendingInv ∧ s'.NotStranded := by
  obtain ⟨t, p, hres, hloop, henqueued, _, hsees⟩
      | ⟨t, around, hres, hloop, henqueued, _⟩ | ⟨t, hres, hloop, henqueued, _, hkeep⟩ :=
    step_cases (next_eq_some h)
  . obtain ⟨t', ht', hinv', howner, hwriting, hunread⟩ :=
      enqueue_pendingInv (pendingInv_of_eq hinv.left hloop henqueued) p
    rw [ht'] at hres
    cases hres
    refine ⟨hinv', ?_⟩
    intro _
    right
    rw [howner, hwriting]
    cases hsees with
    | inl hwriting' =>
      left
      exact List.exists_mem_of_ne_nil _ hwriting'
    | inr howner' =>
      right
      exact howner'
  . obtain ⟨t', ht', _, hinv', _, hhead⟩ | ⟨_, e, _, he⟩ :=
      drain_cases around (pendingInv_of_eq hinv.left hloop henqueued)
    . rw [ht'] at hres
      cases hres
      exact ⟨hinv', notStranded_of_drained hhead⟩
    . rw [he] at hres
      cases hres
  . cases hres
    exact ⟨pendingInv_of_eq hinv.left hloop henqueued, hkeep hinv.right⟩

theorem inv_of_reaches {ok : Threads δ → ThreadsAct δ → Prop} {data : δ} (h : Run.Reaches next ok (init data) s)
    : s.PendingInv ∧ s.NotStranded := by
  apply h.invariant (fun s => s.PendingInv ∧ s.NotStranded)
  . refine ⟨init_pendingInv data, ?_⟩
    apply notStranded_of_drained
    rfl
  . intro s s' a hinv _ hnext
    exact next_inv s s' a hinv hnext

structure PendingOk (s : Threads δ) : Prop where
  applied_in_order : ∃ nodes pending,
    Linked.Chain s.loop.cells s.loop.pendingHead nodes pending
      ∧ s.loop.pendingTail = nodes.getLast?
      ∧ s.loop.applied ++ pending = s.enqueued
  head_eq_none_iff : s.loop.pendingHead = none ↔ s.loop.pendingTail = none
  assertion : ∀ a, step s a ≠ some (.error (.fault .assertFailed))
  ends : ∀ a e, step s a = some (.error e) → ∃ around, Drains around a
  drained : ∀ a around, Drains around a → step s a ≠ none →
    ((∃ s', step s a = some (.ok s') ∧ s'.loop.applied = s'.enqueued) ↔ s.Fits a)

theorem fits_of_drains {around : Surroundings δ} (h : Drains around a)
    : s.Fits a ↔ Run.AllOk around.handle around.Fits s.loop.channelLoop s.waiting := by
  cases h with
  | inl heq =>
    subst heq
    rfl
  | inr heq =>
    subst heq
    rfl

theorem eq_of_drains {around around' : Surroundings δ} (h : Drains around a) (h' : Drains around' a)
    : around = around' := by
  cases h with
  | inl heq =>
    subst heq
    simpa [Drains] using h'
  | inr heq =>
    subst heq
    simpa [Drains] using h'

theorem waiting_of_eq {t : Threads δ} (hloop : t.loop = s.loop) (henqueued : t.enqueued = s.enqueued)
    : t.waiting = s.waiting := by
  unfold waiting
  rw [hloop, henqueued]

theorem ends_of_step {e : Ending} (hinv : s.PendingInv) (h : step s a = some (.error e))
    : e ≠ .fault .assertFailed ∧ ∃ around, Drains around a := by
  obtain ⟨t, p, hres, hloop, henqueued, _⟩ | ⟨t, around, hres, hloop, henqueued, hdrains⟩ | ⟨t, hres, _⟩ :=
    step_cases h
  . obtain ⟨t', ht', _⟩ := enqueue_pendingInv (pendingInv_of_eq hinv hloop henqueued) p
    rw [ht'] at hres
    cases hres
  . obtain ⟨t', ht', _⟩ | ⟨_, e', he', hdrain⟩ := drain_cases around (pendingInv_of_eq hinv hloop henqueued)
    . rw [ht'] at hres
      cases hres
    . rw [hdrain] at hres
      cases hres
      exact ⟨he', around, hdrains⟩
  . cases hres

theorem drained_iff_fits {around : Surroundings δ} (hinv : s.PendingInv) (hdrains : Drains around a)
    (henabled : step s a ≠ none)
    : (∃ s', step s a = some (.ok s') ∧ s'.loop.applied = s'.enqueued) ↔ s.Fits a := by
  rw [fits_of_drains hdrains]
  obtain ⟨res, hstep⟩ := Option.ne_none_iff_exists'.mp henabled
  obtain ⟨_, _, _, _, _, hno, _⟩ | ⟨t, around', hres, hloop, henqueued, hdrains'⟩ | ⟨_, _, _, _, hno, _⟩ :=
    step_cases hstep
  . exact absurd hdrains (hno around)
  . rw [← eq_of_drains hdrains hdrains'] at hres
    rw [hstep, hres, ← hloop, ← waiting_of_eq hloop henqueued]
    obtain ⟨t', ht', hfits, _, happlied, _⟩ | ⟨hfits, e, _, hdrain⟩ :=
      drain_cases around (pendingInv_of_eq hinv hloop henqueued)
    . rw [ht']
      exact iff_of_true ⟨t', rfl, happlied⟩ hfits
    . rw [hdrain]
      exact iff_of_false nofun hfits
  . exact absurd hdrains (hno around)

-- The dispatcher is `poll`, and the channel at `c` a connection with the descriptor `c`.
def pollAround : Surroundings (List PollFd) where
  dispatcher := Poll.pollDispatcher
  memory := .roomy
  channels := PollLoop.connections

-- Two threads enqueue while the owner waits in `dispatch`.
def twoEnqueues (type : ElementType) : List (ThreadsAct (List PollFd)) :=
  [.run, .enqueue 1 (type, 4), .enqueue 2 (.add, 5)]

def wakeups : List (ThreadsAct (List PollFd)) :=
  [.wakeup 1, .wakeup 2, .handleWakeup, .dispatchReturns]

theorem fits_add {loop : ChannelLoop (List PollFd)} {c : ChannelPtr} (hc : (pollAround.channels c).fd < 134217728)
    : pollAround.Fits loop (.add, c) := by
  refine ⟨?_, fun _ => nofun⟩
  intro _
  exact ChannelLoop.mapFits_of_lt hc

theorem notStranded_of_reaches (data : δ) (s : Threads δ)
    (h : Run.Reaches next (fun _ _ => True) (init data) s)
    : s.NotStranded :=
  (inv_of_reaches h).right

theorem notStranded_twoEnqueues
    : ∃ s, Run.Reaches next (fun _ _ => True) (init Poll.pollInit) s ∧ s.loop.pendingHead ≠ none ∧ s.NotStranded := by
  have hexec : ∃ s, Run.exec next (init Poll.pollInit) (twoEnqueues .add) = some s ∧ s.loop.pendingHead ≠ none := by
    refine ⟨_, rfl, ?_⟩
    decide
  obtain ⟨s, hexec, hhead⟩ := hexec
  have hreach := Run.Reaches.of_exec (Run.allOk_of_forall fun _ _ => trivial) hexec
  exact ⟨s, hreach, hhead, notStranded_of_reaches Poll.pollInit s hreach⟩

def HasReturned : Owner → Prop
  | .returned => True
  | .drain _ => True
  | _ => False

-- `handleWakeup` runs inside of `dispatch`: the byte is gone before `dispatch` has returned.
theorem not_hasReturned_of_handleWakeup
    : ¬ ∀ s : Threads (List PollFd), Run.Reaches next (fun _ _ => True) (init Poll.pollInit) s →
        s.loop.pendingHead ≠ none →
          0 < s.unread ∨ (∃ thread, thread ∈ s.writing) ∨ HasReturned s.owner := by
  intro h
  have hexec : ∃ s, Run.exec next (init Poll.pollInit) [.run, .enqueue 1 (.add, 4), .wakeup 1, .handleWakeup] = some s
      ∧ s.loop.pendingHead ≠ none ∧ s.unread = 0 ∧ s.writing = [] ∧ s.owner = .dispatch true := by
    refine ⟨_, rfl, ?_, rfl, rfl, rfl⟩
    decide
  obtain ⟨s, hexec, hhead, hunread, hwriting, howner⟩ := hexec
  have hdisj := h s (Run.Reaches.of_exec (Run.allOk_of_forall fun _ _ => trivial) hexec) hhead
  simp [hunread, hwriting, howner, HasReturned] at hdisj

end Threads
end NetWork
