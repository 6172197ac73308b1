import ByDoing.Lib.Linked
import ByDoing.Lib.Run
import ByDoing.NetWork.EventDispatcher

namespace NetWork

abbrev Pending := ElementType × ChannelPtr

structure Surroundings (δ : Type) where
  dispatcher : EventDispatcher δ
  memory : MapMemory
  channels : ChannelPtr → Channel

inductive Ending where
  | fault (e : LoopFault)
  | exit
  deriving Repr, DecidableEq

structure EventLoop (δ : Type) where
  channelLoop : ChannelLoop δ
  isHandlePending : Bool
  cells : List (Linked.Cell Pending)
  pendingHead : Option Nat
  pendingTail : Option Nat
  applied : List Pending

variable {δ : Type}

namespace Surroundings

def handle (around : Surroundings δ) (loop : ChannelLoop δ) (p : Pending) : Option (ChannelLoop δ) :=
  loop.next around.dispatcher around.memory around.channels p.fst p.snd

def Fits (around : Surroundings δ) (loop : ChannelLoop δ) (p : Pending) : Prop :=
  loop.Fits around.memory around.channels p.fst p.snd
    ∧ loop.Accepts around.dispatcher around.memory around.channels p.fst p.snd

theorem handle_ne_none_iff (around : Surroundings δ) (loop : ChannelLoop δ) (p : Pending)
    : around.handle loop p ≠ none ↔ around.Fits loop p := by
  rw [Option.ne_none_iff_exists']
  unfold handle Fits
  rw [← ChannelLoop.handlePending_eq_some_iff]
  simp only [ChannelLoop.next_eq_some_iff]

end Surroundings

namespace EventLoop

def eventLoopInit (data : δ) : EventLoop δ :=
  {
    channelLoop := { channelMap := [], eventDispatcherData := data }
    isHandlePending := false
    cells := []
    pendingHead := none
    pendingTail := none
    applied := []
  }

namespace eventLoopHandlePendingChannel

def go (around : Surroundings δ) (fuel : Nat) (link : Option Nat) (loop : EventLoop δ)
    : Except Ending (EventLoop δ) :=
  match link, fuel with
  | none, _ => .ok loop
  | some _, 0 => .error (.fault .endless)
  | some p, fuel + 1 =>
    match loop.cells[p]? with
    | none => .error (.fault .nullPointer)
    | some cell =>
      match loop.channelLoop.handlePending around.dispatcher around.memory around.channels cell.val.fst cell.val.snd with
      | .error e => .error (.fault e)
      | .ok none => .error .exit
      | .ok (some channelLoop) =>
        go around fuel cell.next { loop with channelLoop, applied := loop.applied ++ [cell.val] }

end eventLoopHandlePendingChannel

def eventLoopHandlePendingChannel (around : Surroundings δ) (loop : EventLoop δ) : Except Ending (EventLoop δ) :=
  let loop := { loop with isHandlePending := true }
  match eventLoopHandlePendingChannel.go around loop.cells.length loop.pendingHead loop with
  | .error e => .error e
  | .ok loop => .ok { loop with pendingHead := none, pendingTail := none, isHandlePending := false }

def eventLoopChannelBufferNolock (loop : EventLoop δ) (pending : Pending) : Except Ending (EventLoop δ) :=
  let channelElement := loop.cells.length
  let cells := loop.cells ++ [⟨pending, none⟩]
  match loop.pendingHead, loop.pendingTail with
  | none, _ =>
    .ok { loop with cells, pendingHead := some channelElement, pendingTail := some channelElement }
  | some _, some tail =>
    .ok { loop with
      cells := Linked.setNext cells tail channelElement
      pendingTail := some channelElement
    }
  | some _, none => .error (.fault .nullPointer)

-- What `event_loop_do_channel_event` does under the lock.
def enqueue (loop : EventLoop δ) (pending : Pending) : Except Ending (EventLoop δ) :=
  if loop.isHandlePending then
    .error (.fault .assertFailed)
  else
    loop.eventLoopChannelBufferNolock pending

structure Holds (loop : EventLoop δ) (nodes : List Nat) (pending : List Pending) : Prop where
  chain : Linked.Chain loop.cells loop.pendingHead nodes pending
  tail_eq : loop.pendingTail = nodes.getLast?
  not_handling : loop.isHandlePending = false

theorem eventLoopInit_holds (data : δ) : (eventLoopInit data).Holds [] [] := by
  constructor
  . exact ⟨rfl, rfl⟩
  . rfl
  . rfl

variable {loop : EventLoop δ} {nodes : List Nat} {pending : List Pending}

theorem Holds.head_eq_none_iff (h : loop.Holds nodes pending)
    : loop.pendingHead = none ↔ loop.pendingTail = none := by
  rw [h.chain.nil_iff, h.tail_eq, List.getLast?_eq_none_iff]

theorem enqueue_spec (h : loop.Holds nodes pending) (p : Pending)
    : ∃ loop', loop.enqueue p = .ok loop'
        ∧ loop'.Holds (nodes ++ [loop.cells.length]) (pending ++ [p])
        ∧ loop'.applied = loop.applied := by
  have hchain := h.chain
  have htail := h.tail_eq
  unfold enqueue eventLoopChannelBufferNolock
  rw [h.not_handling]
  cases hhead : loop.pendingHead with
  | none =>
    have hnodes := hchain.nil_iff.mp hhead
    subst hnodes
    unfold Linked.Chain at hchain
    rw [hchain.right]
    refine ⟨_, rfl, ?_, rfl⟩
    constructor
    . apply Linked.Chain.singleton
    . rfl
    . rfl
  | some head =>
    have hne : nodes ≠ [] := by
      intro hnodes
      rw [hchain.nil_iff.mpr hnodes] at hhead
      simp at hhead
    have hlast := List.dropLast_append_getLast hne
    rw [List.getLast?_eq_some_getLast hne] at htail
    generalize nodes.getLast hne = tail at *
    rw [htail]
    rw [hhead, ← hlast] at hchain
    rw [← hlast]
    refine ⟨_, rfl, ?_, rfl⟩
    constructor
    . rw [List.append_assoc]
      exact hchain.snoc p
    . simp
    . rfl

theorem ne_assertFailed_of_handlePending {around : Surroundings δ} {channelLoop : ChannelLoop δ} {p : Pending}
    {e : LoopFault}
    (h : channelLoop.handlePending around.dispatcher around.memory around.channels p.fst p.snd = .error e)
    : e ≠ .assertFailed := by
  intro he
  subst he
  exact ChannelLoop.handlePending_ne_assertFailed h

namespace eventLoopHandlePendingChannel

theorem go_cases (around : Surroundings δ) {fuel : Nat} {link : Option Nat}
    (hchain : Linked.Chain loop.cells link nodes pending) (hfuel : nodes.length ≤ fuel)
    : (∃ channelLoop, Run.exec around.handle loop.channelLoop pending = some channelLoop
        ∧ go around fuel link loop = .ok { loop with channelLoop, applied := loop.applied ++ pending })
      ∨ (Run.exec around.handle loop.channelLoop pending = none
        ∧ ∃ e, e ≠ .fault .assertFailed ∧ go around fuel link loop = .error e) := by
  induction nodes generalizing fuel link loop pending with
  | nil =>
    obtain ⟨rfl, rfl⟩ := hchain
    refine .inl ⟨loop.channelLoop, rfl, ?_⟩
    rw [List.append_nil]
    unfold go
    rfl
  | cons p nodes ih =>
    obtain ⟨rfl, v, next, rest, hcell, rfl, hrest⟩ := hchain
    cases fuel with
    | zero => cases hfuel
    | succ fuel =>
      rw [List.length_cons] at hfuel
      unfold go Run.exec Surroundings.handle ChannelLoop.next
      rw [hcell]
      dsimp only
      cases hhandle : loop.channelLoop.handlePending around.dispatcher around.memory around.channels v.fst v.snd with
      | error e =>
        refine .inr ⟨rfl, .fault e, ?_, rfl⟩
        intro he
        exact ne_assertFailed_of_handlePending hhandle (Ending.fault.inj he)
      | ok res =>
        cases res with
        | none =>
          refine .inr ⟨rfl, .exit, ?_, rfl⟩
          intro he
          cases he
        | some channelLoop =>
          have hnext := @ih { loop with channelLoop, applied := loop.applied ++ [v] } rest fuel next hrest (by omega)
          rw [List.append_assoc] at hnext
          exact hnext

end eventLoopHandlePendingChannel

theorem eventLoopHandlePendingChannel_cases (around : Surroundings δ) (h : loop.Holds nodes pending)
    : (∃ loop', loop.eventLoopHandlePendingChannel around = .ok loop' ∧ loop'.Holds [] []
        ∧ loop'.applied = loop.applied ++ pending ∧ Run.AllOk around.handle around.Fits loop.channelLoop pending)
      ∨ (¬ Run.AllOk around.handle around.Fits loop.channelLoop pending
        ∧ ∃ e, e ≠ .fault .assertFailed ∧ loop.eventLoopHandlePendingChannel around = .error e) := by
  have hchain : Linked.Chain { loop with isHandlePending := true }.cells loop.pendingHead nodes pending := h.chain
  unfold eventLoopHandlePendingChannel
  rw [← Run.exec_ne_none_iff around.handle_ne_none_iff]
  obtain ⟨channelLoop, hexec, hgo⟩ | ⟨hexec, e, he, hgo⟩ :=
    eventLoopHandlePendingChannel.go_cases around hchain hchain.length_le
  . dsimp only at hexec hgo ⊢
    rw [hgo, hexec]
    exact .inl ⟨_, rfl, ⟨⟨rfl, rfl⟩, rfl, rfl⟩, rfl, nofun⟩
  . dsimp only at hexec hgo ⊢
    rw [hgo]
    exact .inr ⟨fun hne => hne hexec, e, he, rfl⟩

end EventLoop
end NetWork
