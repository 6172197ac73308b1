import ByDoing.NetWork.Dispatch
import ByDoing.NetWork.PollDispatcher
import ByDoing.NetWork.TcpServer

namespace NetWork

def EPOLLERR : BitVec 32 := 0x008
def EPOLLHUP : BitVec 32 := 0x010
def MAXEVENTS : Nat := 128

structure PollAnswer where
  readyNumber : Int
  revents : Nat → BitVec 16

/--
`i` is the slot after the one that is being handled, and `write` the descriptor of that one if its event for writing
has still to be delivered.
-/
structure PollRound where
  i : Nat
  readyNumber : Int
  revents : Nat → BitVec 16
  write : Option Nat

namespace Poll

namespace pollDispatch

def go (revents : Nat → BitVec 16) : List PollFd → Nat → Int → Option (Int × BitVec 32 × PollRound)
  | [], _, _ => none
  | pollfd :: rest, i, readyNumber =>
    if pollfd.fd < 0 then
      go revents rest (i + 1) readyNumber
    else if 0 < (revents i).toInt then
      let round := { i := i + 1, readyNumber := readyNumber - 1, revents, write := none }
      if revents i &&& POLLRDNORM != 0 then
        let write := if revents i &&& POLLWRNORM != 0 then some pollfd.fd.toNat else none
        some (pollfd.fd, EVENT_READ, { round with write })
      else if revents i &&& POLLWRNORM != 0 then
        some (pollfd.fd, EVENT_WRITE, round)
      else if readyNumber - 1 ≤ 0 then
        none
      else
        go revents rest (i + 1) (readyNumber - 1)
    else
      go revents rest (i + 1) readyNumber

end pollDispatch

-- The process ends if `poll` fails.
def pollWait (_ : List PollFd) (answer : PollAnswer) : Option PollRound :=
  if answer.readyNumber < 0 then
    none
  else
    some { i := 0, readyNumber := answer.readyNumber, revents := answer.revents, write := none }

def pollDispatch (eventSet : List PollFd) (round : PollRound) : Option (Int × BitVec 32 × PollRound) :=
  match round.write with
  | some fd => some (fd, EVENT_WRITE, { round with write := none })
  | none =>
    if round.readyNumber ≤ 0 then
      none
    else
      pollDispatch.go round.revents (eventSet.drop round.i) round.i round.readyNumber

def pollLoop : Dispatcher Unit (List PollFd) PollRound PollAnswer where
  functions _ := pollDispatcher
  init := pollInit
  wait := pollWait
  advance eventSet round := (eventSet, pollDispatch eventSet round)
  close eventSet _ := eventSet

end Poll

abbrev EpollEvent := Nat × BitVec 32

structure EpollRound where
  events : List EpollEvent
  write : Option Nat

namespace Epoll

def close (interest : Interest) (fd : Nat) : Interest :=
  Function.update interest fd none

namespace epollDispatch

def go (interest : Interest) : List EpollEvent → Interest × Option (Int × BitVec 32 × EpollRound)
  | [] => (interest, none)
  | (fd, events) :: rest =>
    if events &&& EPOLLERR != 0 || events &&& EPOLLHUP != 0 then
      go (close interest fd) rest
    else if events &&& EPOLLIN != 0 then
      let write := if events &&& EPOLLOUT != 0 then some fd else none
      (interest, some (fd, EVENT_READ, { events := rest, write }))
    else if events &&& EPOLLOUT != 0 then
      (interest, some (fd, EVENT_WRITE, { events := rest, write := none }))
    else
      go interest rest

end epollDispatch

def epollWait (interest : Interest) (events : List EpollEvent) : Option EpollRound :=
  if events.length ≤ MAXEVENTS ∧ ∀ event ∈ events, (interest event.fst).isSome then
    some { events, write := none }
  else
    none

def epollDispatch (interest : Interest) (round : EpollRound) : Interest × Option (Int × BitVec 32 × EpollRound) :=
  match round.write with
  | some fd => (interest, some (fd, EVENT_WRITE, { round with write := none }))
  | none => epollDispatch.go interest round.events

def epollLoop : Dispatcher (Nat → Option Descriptor) Interest EpollRound (List EpollEvent) where
  functions := epollDispatcher
  init := fun _ => none
  wait := epollWait
  advance := epollDispatch
  close := close

end Epoll

namespace Poll

def Single (eventSet : List PollFd) : Prop :=
  ∀ fd, slots eventSet fd = [] ∨ ∃ slot, slots eventSet fd = [slot]

def Watched (eventSet : List PollFd) (fd : Nat) : Prop :=
  slots eventSet fd ≠ []

def Awaited (round : PollRound) (fd : Nat) : Prop :=
  round.write = some fd

theorem modifyFirst_of_slots_eq_nil {eventSet : List PollFd} {fd : Int} (hfd : 0 ≤ fd)
    (hnil : slots eventSet fd.toNat = []) (f : PollFd → PollFd)
    : Slots.modifyFirst (fun slot => slot.fd == fd) f eventSet = none := by
  apply Slots.modifyFirst_eq_none_iff.mpr
  intro slot hslot
  have hne := List.filter_eq_nil_iff.mp hnil slot hslot
  rw [Int.toNat_of_nonneg hfd] at hne
  simpa using hne

theorem pollDel_of_slots_eq_nil {eventSet : List PollFd} {c : Channel} (hfd : 0 ≤ c.fd)
    (hnil : slots eventSet c.fd.toNat = [])
    : pollDel eventSet c = eventSet := by
  unfold pollDel
  rw [modifyFirst_of_slots_eq_nil hfd hnil]
  rfl

theorem pollUpdate_of_slots_eq_nil {eventSet : List PollFd} {c : Channel} (hfd : 0 ≤ c.fd)
    (hnil : slots eventSet c.fd.toNat = [])
    : pollUpdate eventSet c = eventSet := by
  unfold pollUpdate
  rw [modifyFirst_of_slots_eq_nil hfd hnil]
  rfl

theorem slots_pollAdd {eventSet : List PollFd} {c : Channel} (hfd : 0 ≤ c.fd)
    (hnil : slots eventSet c.fd.toNat = []) (fd : Nat)
    : slots (pollAdd eventSet c) fd = slots eventSet fd
      ∨ (fd = c.fd.toNat ∧ ∃ slot, slots (pollAdd eventSet c) fd = [slot]) := by
  by_cases heq : fd = c.fd.toNat
  . by_cases hfree : ∃ slot ∈ eventSet, slot.fd < 0
    . right
      subst heq
      exact ⟨rfl, _, slots_pollAdd_self (Int.toNat_of_nonneg hfd).symm hnil hfree⟩
    . left
      rw [pollAdd_of_full hfree]
  . left
    apply slots_pollAdd_of_ne
    omega

theorem slots_pollDel {eventSet : List PollFd} {c : Channel} (hsingle : Single eventSet) (hfd : 0 ≤ c.fd) (fd : Nat)
    : slots (pollDel eventSet c) fd = if fd = c.fd.toNat then [] else slots eventSet fd := by
  split
  . next heq =>
    subst heq
    cases hsingle c.fd.toNat with
    | inl hnil => rw [pollDel_of_slots_eq_nil hfd hnil, hnil]
    | inr hone =>
      obtain ⟨slot, hone⟩ := hone
      exact slots_pollDel_self (Int.toNat_of_nonneg hfd).symm hone
  . apply slots_pollDel_of_ne
    omega

theorem slots_pollUpdate {eventSet : List PollFd} {c : Channel} (hsingle : Single eventSet) (hfd : 0 ≤ c.fd) (fd : Nat)
    : slots (pollUpdate eventSet c) fd = slots eventSet fd
      ∨ (∃ slot, slots eventSet fd = [slot]) ∧ ∃ slot, slots (pollUpdate eventSet c) fd = [slot] := by
  by_cases heq : fd = c.fd.toNat
  . subst heq
    cases hsingle c.fd.toNat with
    | inl hnil =>
      left
      rw [pollUpdate_of_slots_eq_nil hfd hnil]
    | inr hone =>
      right
      obtain ⟨slot, hone⟩ := hone
      exact ⟨⟨slot, hone⟩, _, slots_pollUpdate_self (Int.toNat_of_nonneg hfd).symm hone⟩
  . left
    apply slots_pollUpdate_of_ne
    omega

theorem pollDispatch.mem_of_go {revents : Nat → BitVec 16} {rest : List PollFd} {i : Nat} {readyNumber : Int}
    {fd : Int} {event : BitVec 32} {round : PollRound}
    (h : go revents rest i readyNumber = some (fd, event, round))
    : 0 ≤ fd ∧ (∃ slot ∈ rest, slot.fd = fd) ∧ ∀ write ∈ round.write, (write : Int) = fd := by
  fun_induction go revents rest i readyNumber with
  | case1 => simp at h
  | case2 _ _ _ _ _ ih | case6 _ _ _ _ _ _ _ _ _ ih | case7 _ _ _ _ _ _ ih =>
    obtain ⟨hfd, ⟨slot, hmem, hslot⟩, hwrite⟩ := ih h
    exact ⟨hfd, ⟨slot, List.mem_cons_of_mem _ hmem, hslot⟩, hwrite⟩
  | case3 pollfd rest i readyNumber hnonneg hready round' hread write =>
    rw [Option.some.injEq, Prod.mk.injEq, Prod.mk.injEq] at h
    obtain ⟨rfl, _, rfl⟩ := h
    refine ⟨Int.not_lt.mp hnonneg, ⟨pollfd, List.mem_cons_self, rfl⟩, ?_⟩
    grind
  | case4 pollfd rest i readyNumber hnonneg hready round' hread hwrite =>
    rw [Option.some.injEq, Prod.mk.injEq, Prod.mk.injEq] at h
    obtain ⟨rfl, _, rfl⟩ := h
    refine ⟨Int.not_lt.mp hnonneg, ⟨pollfd, List.mem_cons_self, rfl⟩, ?_⟩
    simp [round']
  | case5 => simp at h

theorem pollLoop_lawful : Dispatching.Lawful pollLoop Single Watched Awaited where
  init := by
    refine ⟨?_, ?_⟩
    . intro fd
      exact .inl (slots_pollInit fd)
    . intro fd hwatched
      exact hwatched (slots_pollInit fd)
  add := by
    intro _ eventSet c eventSet' hsingle hfd hnot hadd
    cases hadd
    have hslots := slots_pollAdd hfd (Classical.not_not.mp hnot)
    refine ⟨?_, ?_⟩
    . intro fd
      cases hslots fd with
      | inl heq => exact heq ▸ hsingle fd
      | inr hself => exact .inr hself.right
    . intro fd hwatched
      unfold Watched at hwatched ⊢
      cases hslots fd with
      | inl heq => exact .inr (heq ▸ hwatched)
      | inr hself => exact .inl hself.left
  del := by
    intro _ eventSet c eventSet' hsingle hfd hdel
    cases hdel
    have hslots := slots_pollDel hsingle hfd
    refine ⟨?_, ?_⟩
    . intro fd
      rw [hslots fd]
      split
      . exact .inl rfl
      . exact hsingle fd
    . intro fd hwatched
      unfold Watched at hwatched
      rw [hslots fd] at hwatched
      split at hwatched
      . contradiction
      . next hne => exact ⟨hne, hwatched⟩
  update := by
    intro _ eventSet c eventSet' hsingle hfd hupdate
    cases hupdate
    have hslots := slots_pollUpdate hsingle hfd
    refine ⟨?_, ?_⟩
    . intro fd
      cases hslots fd with
      | inl heq => exact heq ▸ hsingle fd
      | inr hself => exact .inr hself.right
    . intro fd hwatched
      unfold Watched at hwatched ⊢
      cases hslots fd with
      | inl heq => exact heq ▸ hwatched
      | inr hself =>
        obtain ⟨⟨slot, hslot⟩, _⟩ := hself
        simp [hslot]
  close := by
    intro eventSet _ hsingle
    exact ⟨hsingle, fun _ => id⟩
  wait := by
    intro eventSet answer round hwait fd hawaited
    simp only [pollLoop, pollWait, Option.ite_none_left_eq_some, Option.some.injEq] at hwait
    obtain ⟨_, rfl⟩ := hwait
    simp [Awaited] at hawaited
  advance := by
    intro eventSet _ hsingle
    exact ⟨hsingle, fun _ => id⟩
  activated := by
    intro eventSet round fd revents rest h
    simp only [pollLoop, pollDispatch] at h
    split at h
    . next write hwrite =>
      rw [Option.some.injEq, Prod.mk.injEq, Prod.mk.injEq] at h
      obtain ⟨rfl, _, rfl⟩ := h
      exact ⟨write, rfl, .inl hwrite, by simp [Awaited]⟩
    . split at h
      . simp at h
      . obtain ⟨hfd, ⟨slot, hmem, hslot⟩, hwrite⟩ := pollDispatch.mem_of_go h
        refine ⟨fd.toNat, (Int.toNat_of_nonneg hfd).symm, .inr ?_, ?_⟩
        . intro hnil
          apply List.filter_eq_nil_iff.mp hnil slot (List.mem_of_mem_drop hmem)
          rw [hslot, Int.toNat_of_nonneg hfd]
          apply beq_self_eq_true
        . intro fd' hfd'
          left
          have heq := hwrite fd' hfd'
          omega

end Poll

namespace Epoll

def Watched (interest : Interest) (fd : Nat) : Prop :=
  interest fd ≠ none

def Awaited (round : EpollRound) (fd : Nat) : Prop :=
  round.write = some fd ∨ fd ∈ round.events.map Prod.fst

theorem watched_of_update {interest : Interest} {fd fd' : Nat} {watch : Option (Descriptor × BitVec 32)}
    (h : Watched (Function.update interest fd watch) fd')
    : fd' = fd ∧ watch ≠ none ∨ fd' ≠ fd ∧ Watched interest fd' := by
  unfold Watched at h
  by_cases heq : fd' = fd
  . rw [heq, Function.update_self] at h
    exact .inl ⟨heq, h⟩
  . rw [Function.update_of_ne heq] at h
    exact .inr ⟨heq, h⟩

theorem epollDispatch.watched_of_go {interest : Interest} {events : List EpollEvent} {fd : Nat}
    (h : Watched (go interest events).fst fd)
    : Watched interest fd := by
  fun_induction go interest events with
  | case1 | case3 | case4 => exact h
  | case2 interest fd' events rest _ ih =>
    cases watched_of_update (ih h) with
    | inl hself => exact absurd rfl hself.right
    | inr hother => exact hother.right
  | case5 _ _ _ _ _ _ _ ih => exact ih h

theorem epollDispatch.mem_of_go {interest : Interest} {events : List EpollEvent} {fd : Int} {event : BitVec 32}
    {round : EpollRound} (h : (go interest events).snd = some (fd, event, round))
    : ∃ n : Nat, fd = n ∧ n ∈ events.map Prod.fst
      ∧ ∀ n', Awaited round n' → n' = n ∨ n' ∈ events.map Prod.fst := by
  fun_induction go interest events with
  | case1 => simp at h
  | case2 _ _ _ _ _ ih | case5 _ _ _ _ _ _ _ ih =>
    obtain ⟨n, hfd, hmem, hround⟩ := ih h
    refine ⟨n, hfd, List.mem_cons_of_mem _ hmem, ?_⟩
    intro n' hn'
    cases hround n' hn' with
    | inl heq => exact .inl heq
    | inr hmem' => exact .inr (List.mem_cons_of_mem _ hmem')
  | case3 interest n _ rest _ _ write =>
    rw [Option.some.injEq, Prod.mk.injEq, Prod.mk.injEq] at h
    obtain ⟨rfl, _, rfl⟩ := h
    refine ⟨n, rfl, List.mem_cons_self, ?_⟩
    intro n' hn'
    cases hn' with
    | inl hwrite => grind
    | inr hmem => exact .inr (List.mem_cons_of_mem _ hmem)
  | case4 interest n _ rest =>
    rw [Option.some.injEq, Prod.mk.injEq, Prod.mk.injEq] at h
    obtain ⟨rfl, _, rfl⟩ := h
    refine ⟨n, rfl, List.mem_cons_self, ?_⟩
    intro n' hn'
    cases hn' with
    | inl hwrite => simp at hwrite
    | inr hmem => exact .inr (List.mem_cons_of_mem _ hmem)

theorem epollLoop_lawful : Dispatching.Lawful epollLoop (fun _ => True) Watched Awaited where
  init := by
    refine ⟨trivial, ?_⟩
    intro fd hwatched
    exact hwatched rfl
  add := by
    intro descriptors interest c interest' _ _ _ hadd
    refine ⟨trivial, ?_⟩
    intro fd hwatched
    simp only [epollLoop, epollDispatcher, epollAdd] at hadd
    split at hadd
    . cases hadd
      cases watched_of_update hwatched with
      | inl hself => exact .inl hself.left
      | inr hother => exact .inr hother.right
    . simp at hadd
  del := by
    intro descriptors interest c interest' _ _ hdel
    refine ⟨trivial, ?_⟩
    intro fd hwatched
    simp only [epollLoop, epollDispatcher, epollDel] at hdel
    split at hdel
    . cases hdel
      cases watched_of_update hwatched with
      | inl hself => exact absurd rfl hself.right
      | inr hother => exact hother
    . simp at hdel
  update := by
    intro descriptors interest c interest' _ _ hupdate
    refine ⟨trivial, ?_⟩
    intro fd hwatched
    simp only [epollLoop, epollDispatcher, epollUpdate] at hupdate
    split at hupdate
    . next hself =>
      cases hupdate
      cases watched_of_update hwatched with
      | inl heq =>
        unfold Watched
        rw [heq.left, hself]
        simp
      | inr hother => exact hother.right
    . simp at hupdate
  close := by
    intro interest fd _
    refine ⟨trivial, ?_⟩
    intro fd' hwatched
    cases watched_of_update hwatched with
    | inl hself => exact absurd rfl hself.right
    | inr hother => exact hother.right
  wait := by
    intro interest events round hwait fd hawaited
    simp only [epollLoop, epollWait] at hwait
    split at hwait
    . next hreported =>
      cases hwait
      cases hawaited with
      | inl hwrite => simp at hwrite
      | inr hmem =>
        obtain ⟨event, hevent, rfl⟩ := List.mem_map.mp hmem
        exact Option.isSome_iff_ne_none.mp (hreported.right event hevent)
    . simp at hwait
  advance := by
    intro interest round _
    refine ⟨trivial, ?_⟩
    intro fd hwatched
    simp only [epollLoop, epollDispatch] at hwatched
    split at hwatched
    . exact hwatched
    . exact epollDispatch.watched_of_go hwatched
  activated := by
    intro interest round fd revents rest h
    simp only [epollLoop, epollDispatch] at h
    split at h
    . next write hwrite =>
      rw [Option.some.injEq, Prod.mk.injEq, Prod.mk.injEq] at h
      obtain ⟨rfl, _, rfl⟩ := h
      refine ⟨write, rfl, .inl (.inl hwrite), ?_⟩
      intro n' hn'
      right
      right
      simpa [Awaited] using hn'
    . obtain ⟨n, hfd, hmem, hround⟩ := epollDispatch.mem_of_go h
      refine ⟨n, hfd, .inl (.inr hmem), ?_⟩
      intro n' hn'
      cases hround n' hn' with
      | inl heq => exact .inl heq
      | inr hmem' => exact .inr (.inr hmem')

end Epoll

namespace Dispatching

open Poll Epoll

def Safe {ε δ ρ α : Type} (D : Dispatcher ε δ ρ α) (s : Dispatching δ ρ) (a : DispatchAct ε α) : Prop :=
  ∀ e, step D s a ≠ .error e

/--
In a run of fitting steps no step reads beside the map or follows a missing channel, and one more step does so
exactly if it does not fit.
-/
theorem safe_iff_fits (channels : ChannelPtr → Channel)
    : (∀ s, Run.Reaches (next pollLoop) (Fits pollLoop) (init pollLoop channels) s
        → ∀ a, Safe pollLoop s a ↔ s.Fits pollLoop a)
      ∧ ∀ s, Run.Reaches (next epollLoop) (Fits epollLoop) (init epollLoop channels) s
        → ∀ a, Safe epollLoop s a ↔ s.Fits epollLoop a := by
  constructor
  . intro s hreach
    apply step_ne_error_iff pollLoop_lawful
    exact pollLoop_lawful.inv_of_reaches hreach
  . intro s hreach
    apply step_ne_error_iff epollLoop_lawful
    exact epollLoop_lawful.inv_of_reaches hreach

section Examples

variable {ε δ ρ α : Type}

def oneEntry (channels : ChannelPtr → Channel) (data : δ) : Dispatching δ ρ :=
  {
    loop := { channelMap := (List.replicate 32 none).set 7 (some 7), eventDispatcherData := data }
    channels
    round := none
    removed := fun _ => false
  }

theorem next_oneEntry {D : Dispatcher ε δ ρ α} {environment : ε} {channels : ChannelPtr → Channel} {data : δ}
    (hfd : (channels 7).fd = 7) (hadd : (D.functions environment).add D.init (channels 7) = some data)
    : next D (init D channels) (.handle environment .roomy .add 7) = some (oneEntry channels data) := by
  have hmap : ChannelLoop.mapMakeSpace .roomy [] 7 = .ok (some (List.replicate 32 none)) := rfl
  have hpending : (init D channels).loop.handlePending (D.functions environment) .roomy channels .add 7
      = .ok (some (@oneEntry δ ρ channels data).loop) := by
    unfold ChannelLoop.handlePending ChannelLoop.eventLoopHandlePendingAdd
    simp [hfd, init, oneEntry, hmap, hadd]
  have hnote : (init D channels).note (@oneEntry δ ρ channels data).loop = fun _ => false := by
    funext fd
    simp [note, init, ChannelLoop.entry]
  have hstep : step D (init D channels) (.handle environment .roomy .add 7)
      = .ok (some { init D channels with
        loop := (@oneEntry δ ρ channels data).loop
        removed := (init D channels).note (@oneEntry δ ρ channels data).loop }) := by
    have hchannels : (init D channels).channels = channels := rfl
    unfold step
    dsimp only
    rw [hchannels, hpending]
  unfold next
  rw [hstep, hnote]
  rfl

end Examples

def sockets (_ : Nat) : Option Descriptor :=
  some .other

def oneInterest : Interest :=
  Function.update (fun _ => none) 7 (some (.other, EPOLLIN))

theorem reaches_oneInterest {ok : Dispatching Interest EpollRound → DispatchAct _ _ → Prop}
    (hok : ok (init epollLoop PollLoop.connections) (.handle sockets .roomy .add 7))
    : Run.Reaches (next epollLoop) ok (init epollLoop PollLoop.connections)
      (oneEntry PollLoop.connections oneInterest) := by
  apply Run.Reaches.tail .refl hok
  apply next_oneEntry
  . rfl
  . rfl

-- A connection that is closed in the callback for its own event.
theorem safe_of_closed
    : ∃ s, Run.Reaches (next epollLoop) (Fits epollLoop) (init epollLoop PollLoop.connections) s ∧ s.round.isSome
      ∧ Safe epollLoop s (.handle sockets .roomy .remove 7) := by
  have hround : ∃ s, next epollLoop (oneEntry PollLoop.connections oneInterest) (.dispatch [(7, EPOLLIN)]) = some s
      ∧ s.round.isSome ∧ s.loop.entry 7 = some 7 ∧ s.channels 7 = PollLoop.connections 7 := by
    refine ⟨_, rfl, ?_⟩
    exact ⟨rfl, rfl, rfl⟩
  obtain ⟨s, hnext, hsome, hentry, hchannel⟩ := hround
  have hreach : Run.Reaches (next epollLoop) (Fits epollLoop) (init epollLoop PollLoop.connections) s := by
    have hfits : Fits epollLoop (init epollLoop PollLoop.connections) (.handle sockets .roomy .add 7) := by
      intro _
      apply ChannelLoop.mapFits_of_lt
      decide
    apply Run.Reaches.tail (reaches_oneInterest hfits) _ hnext
    trivial
  refine ⟨s, hreach, hsome, ?_⟩
  apply ((safe_iff_fits PollLoop.connections).right s hreach _).mpr
  intro _ _
  have hfd : (s.channels 7).fd.toNat = 7 := by rw [hchannel]; rfl
  rw [hfd, hentry]
  simp

-- The channel at `c` is one for the descriptor `c`, for reading and writing.
def duplex (c : ChannelPtr) : Channel :=
  { fd := c, events := EVENT_READ ||| EVENT_WRITE, data := .tcpConnection }

-- In a round of `epoll` the callback of 7 removes 8, and in one of `poll` the callback for reading removes 7 itself.
theorem not_safe_of_removed
    : (∃ s, Run.Reaches (next epollLoop) (fun _ _ => True) (init epollLoop PollLoop.connections) s
        ∧ ¬ Safe epollLoop s .callbackReturns)
      ∧ ∃ s, Run.Reaches (next pollLoop) (fun _ _ => True) (init pollLoop duplex) s
        ∧ ¬ Safe pollLoop s .callbackReturns := by
  constructor
  . have hround : ∃ s, Run.exec (next epollLoop) (oneEntry PollLoop.connections oneInterest)
        [.handle sockets .roomy .add 8, .dispatch [(7, EPOLLIN), (8, EPOLLIN)],
          .handle sockets .roomy .remove 8] = some s
        ∧ step epollLoop s .callbackReturns = .error .nullPointer := by
      refine ⟨_, rfl, ?_⟩
      rfl
    obtain ⟨s, hexec, hstep⟩ := hround
    refine ⟨s, (reaches_oneInterest trivial).trans (.of_exec ?_ hexec), ?_⟩
    . apply Run.allOk_of_forall
      intro _ _
      trivial
    . intro hsafe
      exact hsafe .nullPointer hstep
  . have hfirst : next pollLoop _ _ = some (oneEntry duplex (pollAdd pollInit (duplex 7))) :=
      @next_oneEntry _ _ _ _ pollLoop () duplex _ rfl rfl
    have hround : ∃ s, Run.exec (next pollLoop) (oneEntry duplex (pollAdd pollInit (duplex 7)))
        [.dispatch ⟨1, fun i => if i = 0 then POLLRDNORM ||| POLLWRNORM else 0⟩, .handle () .roomy .remove 7] = some s
        ∧ step pollLoop s .callbackReturns = .error .nullPointer := by
      refine ⟨_, rfl, ?_⟩
      rfl
    obtain ⟨s, hexec, hstep⟩ := hround
    refine ⟨s, .trans (.tail .refl trivial hfirst) (.of_exec ?_ hexec), ?_⟩
    . apply Run.allOk_of_forall
      intro _ _
      trivial
    . intro hsafe
      exact hsafe .nullPointer hstep

end Dispatching
end NetWork
