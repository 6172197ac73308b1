import ByDoing.Lib.Run
import ByDoing.NetWork.EventDispatcher

/-!
This module contains the server of `tcp_server.c` with its event loops over the dispatcher of `epoll_dispatcher.c`.
Loop 0 is the one of the accepting thread, and each other loop has a thread of its own. A connection and its
channel have the same number. The accepting thread publishes a connection in `tcp_connection_new` and sets its
`data` in a later step, and the other threads may take any steps in between. The listening descriptor and those
of the socket pairs are `other` descriptors.
-/

namespace NetWork

def EPOLLIN : BitVec 32 := 0x001
def EPOLLOUT : BitVec 32 := 0x004

inductive Descriptor where
  | connection (c : ChannelPtr)
  | other
  deriving Repr, DecidableEq

-- What `epoll_wait` watches.
abbrev Interest := Nat → Option (Descriptor × BitVec 32)

namespace Epoll

def epollEvents (events : BitVec 32) : BitVec 32 :=
  (if events &&& EVENT_READ != 0 then EPOLLIN else 0) ||| (if events &&& EVENT_WRITE != 0 then EPOLLOUT else 0)

-- The process ends if `epoll_ctl` fails.
def epollAdd (descriptors : Nat → Option Descriptor) (interest : Interest) (channel1 : Channel) : Option Interest :=
  let fd := channel1.fd.toNat
  match descriptors fd, interest fd with
  | some descriptor, none =>
    some (Function.update interest fd (some (descriptor, epollEvents channel1.events)))
  | _, _ => none

def epollDel (interest : Interest) (channel1 : Channel) : Option Interest :=
  let fd := channel1.fd.toNat
  match interest fd with
  | some _ => some (Function.update interest fd none)
  | none => none

def epollUpdate (interest : Interest) (channel1 : Channel) : Option Interest :=
  let fd := channel1.fd.toNat
  match interest fd with
  | some (descriptor, _) => some (Function.update interest fd (some (descriptor, epollEvents channel1.events)))
  | none => none

def epollDispatcher (descriptors : Nat → Option Descriptor) : EventDispatcher Interest where
  add := epollAdd descriptors
  del := epollDel
  update := epollUpdate

end Epoll

structure ServerConnection where
  fd : Int
  eventLoop : Nat
  -- What `malloc` left there is `none`.
  data : Option Nat
  deriving Repr, DecidableEq

structure ServerLoop where
  loop : ChannelLoop Interest
  pending : List (ElementType × ChannelPtr)

/--
`acceptor` is the connection that the accepting thread has published and whose `data` it has still to set. `called`
are the calls of `messageCallBack` with the `data` of the connection at the call.
-/
structure TcpServer where
  threadNumber : Nat
  position : Nat
  data : Nat
  connections : List ServerConnection
  loops : Nat → ServerLoop
  descriptors : Nat → Option Descriptor
  acceptor : Option ChannelPtr
  called : List (ChannelPtr × Option Nat)

/--
The answers of the system come with the step: the descriptor that `accept` returns, the number that `readv` returns,
and what `realloc` does.
-/
inductive ServerAct where
  | establish (fd : Int) (memory : MapMemory)
  | setData
  | drain (l : Nat) (memory : MapMemory)
  | readable (l fd : Nat) (n : Int) (memory : MapMemory)
  | hangUp (l fd : Nat)

namespace TcpServer

def init (threadNumber data : Nat) (isOpen : Nat → Bool) : TcpServer :=
  {
    threadNumber
    position := 0
    data
    connections := []
    loops := fun _ => { loop := { channelMap := [], eventDispatcherData := fun _ => none }, pending := [] }
    descriptors := fun fd => if isOpen fd then some .other else none
    acceptor := none
    called := []
  }

def channels (s : TcpServer) (c : ChannelPtr) : Channel :=
  match s.connections[c]? with
  | none => { fd := -1, events := 0, data := .tcpConnection }
  | some connection => { fd := connection.fd, events := EVENT_READ, data := .tcpConnection }

def threadPoolGetLoop (s : TcpServer) : Nat × Nat :=
  if 0 < s.threadNumber then
    (s.position + 1, if s.threadNumber ≤ s.position + 1 then 0 else s.position + 1)
  else
    (0, s.position)

def setLoop (s : TcpServer) (l : Nat) (loop : ServerLoop) : TcpServer :=
  { s with loops := Function.update s.loops l loop }

def handle (s : TcpServer) (memory : MapMemory) (loop : ChannelLoop Interest) (p : ElementType × ChannelPtr)
    : Option (ChannelLoop Interest) :=
  loop.next (Epoll.epollDispatcher s.descriptors) memory s.channels p.fst p.snd

def eventLoopHandlePendingChannel (s : TcpServer) (l : Nat) (memory : MapMemory) : Option TcpServer :=
  match Run.exec (s.handle memory) (s.loops l).loop (s.loops l).pending with
  | none => none
  | some loop => some (s.setLoop l { loop, pending := [] })

-- `own` says that the loop belongs to the thread that calls.
def eventLoopDoChannelEvent (s : TcpServer) (l : Nat) (type : ElementType) (c : ChannelPtr) (own : Bool)
    (memory : MapMemory)
    : Option TcpServer :=
  let s := s.setLoop l { s.loops l with pending := (s.loops l).pending ++ [(type, c)] }
  if own then s.eventLoopHandlePendingChannel l memory else some s

-- `handle_connection_established` up to the return of `tcp_connection_new`.
def handleConnectionEstablished (s : TcpServer) (fd : Int) (memory : MapMemory) : Option TcpServer :=
  let (l, position) := s.threadPoolGetLoop
  let c := s.connections.length
  let s := { s with
    position
    connections := s.connections ++ [{ fd, eventLoop := l, data := none : ServerConnection }]
    descriptors :=
      if 0 ≤ fd then Function.update s.descriptors fd.toNat (some (.connection c)) else s.descriptors
    acceptor := some c
  }
  s.eventLoopDoChannelEvent l .add c (l == 0) memory

def handleRead (s : TcpServer) (l : Nat) (c : ChannelPtr) (n : Int) (memory : MapMemory) : Option TcpServer :=
  match s.connections[c]? with
  | none => none
  | some connection =>
    if 0 < n then
      some { s with called := s.called ++ [(c, connection.data)] }
    else
      s.eventLoopDoChannelEvent connection.eventLoop .remove c (connection.eventLoop == l) memory

-- With `EPOLLIN`; the channel of a connection has `handle_read` as its callback.
def channelEventActivate (s : TcpServer) (l fd : Nat) (n : Int) (memory : MapMemory) : Option TcpServer :=
  match (s.loops l).loop.channelMap[fd]? with
  | none => some s
  | some none => none
  | some (some c) => if (fd : Int) = (s.channels c).fd then s.handleRead l c n memory else none

-- `close` also takes the descriptor out of the interest of every `epoll`.
def close (s : TcpServer) (fd : Nat) : TcpServer :=
  { s with
    descriptors := Function.update s.descriptors fd none
    loops := fun l =>
      { s.loops l with
        loop := { (s.loops l).loop with
          eventDispatcherData := Function.update (s.loops l).loop.eventDispatcherData fd none
        }
      }
  }

def IsFree (s : TcpServer) (l : Nat) : Prop :=
  l = 0 → s.acceptor = none

instance decidableIsFree (s : TcpServer) (l : Nat) : Decidable (s.IsFree l) :=
  inferInstanceAs (Decidable (l = 0 → s.acceptor = none))

def Watches (s : TcpServer) (l fd : Nat) : Prop :=
  (s.loops l).loop.eventDispatcherData fd ≠ none

instance decidableWatches (s : TcpServer) (l fd : Nat) : Decidable (s.Watches l fd) :=
  inferInstanceAs (Decidable ((s.loops l).loop.eventDispatcherData fd ≠ none))

def step (s : TcpServer) : ServerAct → Option TcpServer
  | .establish fd memory =>
    if s.acceptor = none ∧ (fd = -1 ∨ (0 ≤ fd ∧ s.descriptors fd.toNat = none)) then
      s.handleConnectionEstablished fd memory
    else
      none
  | .setData =>
    match s.acceptor with
    | none => none
    | some c =>
      some { s with
        connections := s.connections.modify c fun connection => { connection with data := some s.data }
        acceptor := none
      }
  | .drain l memory => if s.IsFree l then s.eventLoopHandlePendingChannel l memory else none
  | .readable l fd n memory =>
    if s.IsFree l ∧ s.Watches l fd then s.channelEventActivate l fd n memory else none
  | .hangUp l fd => if s.IsFree l ∧ s.Watches l fd then some (s.close fd) else none

variable {s s' : TcpServer}

theorem eventLoopHandlePendingChannel_eq_some {l : Nat} {memory : MapMemory}
    (h : s.eventLoopHandlePendingChannel l memory = some s')
    : ∃ loop, Run.exec (s.handle memory) (s.loops l).loop (s.loops l).pending = some loop
      ∧ s' = s.setLoop l { loop, pending := [] } := by
  unfold eventLoopHandlePendingChannel at h
  split at h
  . simp at h
  . next loop hexec =>
    rw [Option.some.injEq] at h
    exact ⟨loop, hexec, h.symm⟩

theorem eventLoopDoChannelEvent_loops {l : Nat} {type : ElementType} {c : ChannelPtr} {own : Bool}
    {memory : MapMemory} (h : s.eventLoopDoChannelEvent l type c own memory = some s')
    : ∃ loops, s' = { s with loops } := by
  unfold eventLoopDoChannelEvent at h
  dsimp only at h
  split at h
  . obtain ⟨loop, _, rfl⟩ := eventLoopHandlePendingChannel_eq_some h
    exact ⟨_, rfl⟩
  . rw [Option.some.injEq] at h
    exact ⟨_, h.symm⟩

theorem readable_eq_some {l fd : Nat} {n : Int} {memory : MapMemory} (h : s.step (.readable l fd n memory) = some s')
    : (s' = s ∧ (s.loops l).loop.entry fd = none)
      ∨ ∃ c connection, (s.loops l).loop.entry fd = some c ∧ s.connections[c]? = some connection
      ∧ connection.fd = fd
      ∧ ((0 < n ∧ s' = { s with called := s.called ++ [(c, connection.data)] })
        ∨ (n ≤ 0 ∧ s.eventLoopDoChannelEvent connection.eventLoop .remove c (connection.eventLoop == l) memory
          = some s')) := by
  unfold step at h
  dsimp only at h
  split at h
  . unfold channelEventActivate at h
    split at h
    . next hget =>
      rw [Option.some.injEq] at h
      refine .inl ⟨h.symm, ?_⟩
      unfold ChannelLoop.entry
      rw [hget]
      rfl
    . simp at h
    . next c hget =>
      split at h
      . next hfd =>
        unfold handleRead at h
        split at h
        . simp at h
        . next connection hconnection =>
          have hentry : (s.loops l).loop.entry fd = some c := by
            unfold ChannelLoop.entry
            rw [hget]
            rfl
          have hfd' : connection.fd = fd := by
            unfold channels at hfd
            rw [hconnection] at hfd
            exact hfd.symm
          refine .inr ⟨c, connection, hentry, hconnection, hfd', ?_⟩
          split at h
          . next hn =>
            rw [Option.some.injEq] at h
            exact .inl ⟨hn, h.symm⟩
          . next hn => exact .inr ⟨Int.not_lt.mp hn, h⟩
      . simp at h
  . simp at h

/--
`messageCallBack` has been called only for connections whose `data` was that of the server.
-/
def Initialised (s : TcpServer) : Prop :=
  ∀ call ∈ s.called, call.snd = some s.data

-- The bytes of a new connection are not read before its `data` is set.
def AfterData (s : TcpServer) : ServerAct → Prop
  | .readable l fd n _ => 0 < n → s.acceptor = none ∨ (s.loops l).loop.entry fd ≠ s.acceptor
  | _ => True

instance decidableAfterData (s : TcpServer) : (a : ServerAct) → Decidable (s.AfterData a)
  | .readable l fd n _ =>
    inferInstanceAs (Decidable (0 < n → s.acceptor = none ∨ (s.loops l).loop.entry fd ≠ s.acceptor))
  | .establish _ _ => isTrue trivial
  | .setData => isTrue trivial
  | .drain _ _ => isTrue trivial
  | .hangUp _ _ => isTrue trivial

structure DataInv (s : TcpServer) : Prop where
  unset : ∀ c connection, s.acceptor = some c → s.connections[c]? = some connection → connection.data = none
  set : ∀ c connection, s.acceptor ≠ some c → s.connections[c]? = some connection → connection.data = some s.data
  initialised : s.Initialised

theorem init_dataInv (threadNumber data : Nat) (isOpen : Nat → Bool) : (init threadNumber data isOpen).DataInv := by
  constructor
  . simp [init]
  . simp [init]
  . simp [init, Initialised]

theorem DataInv.establish (hinv : s.DataInv) {fd : Int} {memory : MapMemory}
    (h : s.step (.establish fd memory) = some s')
    : s'.DataInv := by
  unfold step at h
  dsimp only at h
  split at h
  . next hguard =>
    unfold handleConnectionEstablished at h
    obtain ⟨loops, rfl⟩ := eventLoopDoChannelEvent_loops h
    dsimp only at *
    constructor
    . intro c connection hc hconnection
      rw [Option.some.injEq] at hc
      subst hc
      rw [List.getElem?_concat_length, Option.some.injEq] at hconnection
      rw [← hconnection]
    . intro c connection hc hconnection
      have hlt : c < s.connections.length := by
        have hlt' := (List.getElem?_eq_some_iff.mp hconnection).fst
        rw [List.length_append, List.length_singleton] at hlt'
        have hne : c ≠ s.connections.length := fun heq => hc (congrArg some heq.symm)
        exact Nat.lt_of_le_of_ne (Nat.le_of_lt_succ hlt') hne
      rw [List.getElem?_append_left hlt] at hconnection
      apply hinv.set c connection _ hconnection
      rw [hguard.left]
      simp
    . exact hinv.initialised
  . simp at h

theorem DataInv.setData (hinv : s.DataInv) (h : s.step .setData = some s') : s'.DataInv := by
  unfold step at h
  dsimp only at h
  split at h
  . simp at h
  . next c hc =>
    rw [Option.some.injEq] at h
    subst h
    constructor
    . intro c' connection hc'
      simp at hc'
    . intro c' connection _ hconnection
      dsimp only at hconnection ⊢
      by_cases heq : c = c'
      . subst heq
        rw [List.getElem?_modify_eq] at hconnection
        obtain ⟨connection', _, rfl⟩ := Option.map_eq_some_iff.mp hconnection
        rfl
      . rw [List.getElem?_modify_ne _ _ heq] at hconnection
        apply hinv.set c' connection _ hconnection
        rw [hc]
        simpa using heq
    . exact hinv.initialised

theorem DataInv.step (hinv : s.DataInv) {a : ServerAct} (hafter : s.AfterData a) (h : s.step a = some s')
    : s'.DataInv := by
  cases a with
  | establish fd memory => exact hinv.establish h
  | setData => exact hinv.setData h
  | drain l memory =>
    unfold TcpServer.step at h
    dsimp only at h
    split at h
    . obtain ⟨loop, _, rfl⟩ := eventLoopHandlePendingChannel_eq_some h
      exact ⟨hinv.unset, hinv.set, hinv.initialised⟩
    . simp at h
  | readable l fd n memory =>
    cases readable_eq_some h with
    | inl hignored => exact hignored.left ▸ hinv
    | inr hread =>
      obtain ⟨c, connection, hentry, hconnection, _, ⟨hn, rfl⟩ | ⟨_, hremove⟩⟩ := hread
      . refine ⟨hinv.unset, hinv.set, ?_⟩
        intro call hcall
        cases List.mem_append.mp hcall with
        | inl hold => exact hinv.initialised call hold
        | inr hnew =>
          rw [List.mem_singleton.mp hnew]
          apply hinv.set c connection _ hconnection
          intro hc
          have hfree := hafter hn
          rw [hc, hentry] at hfree
          simp at hfree
      . obtain ⟨loops, rfl⟩ := eventLoopDoChannelEvent_loops hremove
        exact ⟨hinv.unset, hinv.set, hinv.initialised⟩
  | hangUp l fd =>
    unfold TcpServer.step at h
    dsimp only at h
    split at h
    . cases h
      exact ⟨hinv.unset, hinv.set, hinv.initialised⟩
    . simp at h

theorem DataInv.afterData (hinv : s.DataInv) {a : ServerAct} (h : s.step a = some s') (hinit : s'.Initialised)
    : s.AfterData a := by
  cases a with
  | readable l fd n memory =>
    intro hn
    cases hc : s.acceptor with
    | none => exact .inl rfl
    | some c =>
      right
      intro hentry
      cases readable_eq_some h with
      | inl hignored =>
        rw [hentry] at hignored
        simp at hignored
      | inr hread =>
        obtain ⟨c', connection, hentry', hconnection, _, ⟨_, rfl⟩ | ⟨hle, _⟩⟩ := hread
        . rw [hentry, Option.some.injEq] at hentry'
          subst hentry'
          have hdata := hinit (c, connection.data) (List.mem_append_right _ List.mem_cons_self)
          dsimp only at hdata
          rw [hinv.unset c connection hc hconnection] at hdata
          simp at hdata
        . omega
  | _ => trivial

/--
`messageCallBack` gets connections with the `data` of the server in every state that is reached by steps that come
after it, and a further step keeps this exactly if it does.
-/
theorem initialised_iff_afterData {threadNumber data : Nat} {isOpen : Nat → Bool} {s : TcpServer}
    (h : Run.Reaches TcpServer.step AfterData (init threadNumber data isOpen) s)
    : s.Initialised ∧ ∀ a s', s.step a = some s' → (s'.Initialised ↔ s.AfterData a) := by
  have hinv : s.DataInv := by
    apply h.invariant DataInv (init_dataInv threadNumber data isOpen)
    intro s s' a hinv hafter hstep
    exact hinv.step hafter hstep
  refine ⟨hinv.initialised, ?_⟩
  intro a s' hstep
  constructor
  . intro hinit
    exact hinv.afterData hstep hinit
  . intro hafter
    exact (hinv.step hafter hstep).initialised

theorem initialised_oneConnection
    : ∃ s, Run.Reaches TcpServer.step AfterData (init 1 7 fun _ => false) s ∧ s.called = [(0, some 7)]
      ∧ s.Initialised := by
  have hexec : (Run.exec TcpServer.step (init 1 7 fun _ => false)
      [.establish 5 .roomy, .drain 1 .roomy, .setData, .readable 1 5 3 .roomy]).map called
      = some [(0, some 7)] := by
    decide +kernel
  obtain ⟨s, hs, hcalled⟩ := Option.map_eq_some_iff.mp hexec
  have hreach : Run.Reaches TcpServer.step AfterData (init 1 7 fun _ => false) s := .of_exec (by decide +kernel) hs
  exact ⟨s, hreach, hcalled, (initialised_iff_afterData hreach).left⟩

-- The worker drains its loop and reads the first bytes before the accepting thread goes on.
theorem not_initialised_of_earlyRead
    : ∃ s, Run.Reaches TcpServer.step (fun _ _ => True) (init 1 7 fun _ => false) s ∧ ¬ s.Initialised := by
  have hexec : (Run.exec TcpServer.step (init 1 7 fun _ => false)
      [.establish 5 .roomy, .drain 1 .roomy, .readable 1 5 3 .roomy]).map called
      = some [(0, none)] := by
    decide +kernel
  obtain ⟨s, hs, hcalled⟩ := Option.map_eq_some_iff.mp hexec
  refine ⟨s, .of_exec (Run.allOk_of_forall fun _ _ => trivial) hs, ?_⟩
  intro hinit
  have hdata := hinit (0, none) (by rw [hcalled]; exact List.mem_cons_self)
  simp at hdata

end TcpServer
end NetWork
