import ByDoing.NetWork.WriteEvents

namespace NetWork

namespace Poll

def mask (eventSet : List PollFd) (fd : Nat) : Option Bool :=
  (slots eventSet fd).head?.map fun slot => slot.events &&& POLLWRNORM != 0

theorem pollEvents_write (c : Channel)
    : (pollEvents c.events &&& POLLWRNORM != 0) = c.channelWriteEventIsEnabled := by
  unfold pollEvents Channel.channelWriteEventIsEnabled
  cases c.events &&& EVENT_READ != 0 <;> cases c.events &&& EVENT_WRITE != 0 <;> decide

theorem mask_of_slots {eventSet : List PollFd} {c : Channel} {fd : Nat}
    (h : slots eventSet fd = [⟨fd, pollEvents c.events⟩])
    : mask eventSet fd = some c.channelWriteEventIsEnabled := by
  unfold mask
  rw [h, List.head?_cons, Option.map_some, pollEvents_write]

theorem pollLoop_masked : Library.Masked pollLoop Single mask where
  add_init := by
    intro _ c eventSet hfd hadd
    cases hadd
    apply mask_of_slots
    apply slots_pollAdd_self (Int.toNat_of_nonneg hfd).symm (slots_pollInit _)
    exact ⟨⟨-1, 0⟩, List.mem_replicate.mpr ⟨by decide, rfl⟩, by decide⟩
  add := by
    intro _ c eventSet eventSet' hnonneg hadd fd hne
    cases hadd
    unfold mask
    rw [slots_pollAdd_of_ne (by omega)]
  del := by
    intro _ c eventSet eventSet' hnonneg hdel fd hne
    cases hdel
    unfold mask
    rw [slots_pollDel_of_ne (by omega)]
  update := by
    intro _ c eventSet eventSet' hnonneg hupdate fd hne
    cases hupdate
    unfold mask
    rw [slots_pollUpdate_of_ne (by omega)]
  update_self := by
    intro _ c eventSet eventSet' hsingle hnonneg hmask hupdate
    cases hupdate
    cases hsingle c.fd.toNat with
    | inl hnil =>
      unfold mask at hmask
      simp [hnil] at hmask
    | inr hone =>
      obtain ⟨slot, hone⟩ := hone
      exact mask_of_slots (slots_pollUpdate_self (Int.toNat_of_nonneg hnonneg).symm hone)
  close := by
    intro eventSet fd fd' _
    rfl

end Poll

namespace Epoll

def mask (interest : Interest) (fd : Nat) : Option Bool :=
  (interest fd).map fun watch => watch.snd &&& EPOLLOUT != 0

theorem epollEvents_write (c : Channel)
    : (epollEvents c.events &&& EPOLLOUT != 0) = c.channelWriteEventIsEnabled := by
  unfold epollEvents Channel.channelWriteEventIsEnabled
  cases c.events &&& EVENT_READ != 0 <;> cases c.events &&& EVENT_WRITE != 0 <;> decide

theorem mask_update_self (interest : Interest) (c : Channel) (fd : Nat) (descriptor : Descriptor)
    : mask (Function.update interest fd (some (descriptor, epollEvents c.events))) fd
      = some c.channelWriteEventIsEnabled := by
  unfold mask
  rw [Function.update_self, Option.map_some, epollEvents_write]

theorem mask_update_of_ne {interest : Interest} {fd fd' : Nat} {watch : Option (Descriptor × BitVec 32)}
    (h : fd' ≠ fd)
    : mask (Function.update interest fd watch) fd' = mask interest fd' := by
  unfold mask
  rw [Function.update_of_ne h]

theorem epollLoop_masked : Library.Masked epollLoop (fun _ => True) mask where
  add_init := by
    intro descriptors c interest _ hadd
    simp only [epollLoop, epollDispatcher, epollAdd] at hadd
    split at hadd
    . cases hadd
      apply mask_update_self
    . simp at hadd
  add := by
    intro descriptors c interest interest' _ hadd fd hne
    simp only [epollLoop, epollDispatcher, epollAdd] at hadd
    split at hadd
    . cases hadd
      apply mask_update_of_ne hne
    . simp at hadd
  del := by
    intro descriptors c interest interest' _ hdel fd hne
    simp only [epollLoop, epollDispatcher, epollDel] at hdel
    split at hdel
    . cases hdel
      apply mask_update_of_ne hne
    . simp at hdel
  update := by
    intro descriptors c interest interest' _ hupdate fd hne
    simp only [epollLoop, epollDispatcher, epollUpdate] at hupdate
    split at hupdate
    . cases hupdate
      apply mask_update_of_ne hne
    . simp at hupdate
  update_self := by
    intro descriptors c interest interest' _ _ _ hupdate
    simp only [epollLoop, epollDispatcher, epollUpdate] at hupdate
    split at hupdate
    . cases hupdate
      apply mask_update_self
    . simp at hupdate
  close := by
    intro interest fd fd' hne
    apply mask_update_of_ne hne

end Epoll

namespace Library

open Dispatching

variable {ε δ ρ α : Type} {D : Dispatcher ε δ ρ α} {Ok : δ → Prop} {Watched : δ → Nat → Prop} {Awaited : ρ → Nat → Prop}
  {mask : δ → Nat → Option Bool} {s : Library δ} {c : ChannelPtr} {created : CreatedChannel} {l : Nat}

/--
The update of `c` goes to loop `l`, and whenever that loop has drained its pending list it watches the descriptor for
writing exactly if the channel asks for it.
-/
def Follows (D : Dispatcher ε δ ρ α) (mask : δ → Nat → Option Bool) (s : Library δ) (call : WriteCall) (c : ChannelPtr)
    (l : Nat)
    : Prop :=
  ∃ s', step D s (.channelWriteEvent call c) = some s'
    ∧ (s'.loops l).pending = (s.loops l).pending ++ [(.update, c)]
    ∧ ∀ t, Run.Reaches (step D) (fun _ _ => True) s' t → (t.loops l).pending = []
      → (mask (t.loops l).loop.eventDispatcherData (t.channels c).fd.toNat = some true
        ↔ (t.channels c).channelWriteEventIsEnabled = true)

theorem exists_channelWriteEvent (hcreated : s.created[c]? = some created) (hdata : created.data = .eventLoop l)
    (call : WriteCall)
    : ∃ s', step D s (.channelWriteEvent call c) = some s'
      ∧ (s'.loops l).pending = (s.loops l).pending ++ [(.update, c)] := by
  unfold step
  dsimp only
  rw [hcreated]
  dsimp only
  rw [hdata]
  refine ⟨_, rfl, ?_⟩
  unfold eventLoopChannelBufferNolock setLoop
  dsimp only
  rw [Function.update_self]

theorem eventLoop_of_channelWriteEvent {call : WriteCall} {s' : Library δ} (hcreated : s.created[c]? = some created)
    (h : step D s (.channelWriteEvent call c) = some s')
    : ∃ l, created.data = .eventLoop l := by
  unfold step at h
  dsimp only at h
  rw [hcreated] at h
  dsimp only at h
  split at h
  . next l hdata => exact ⟨l, hdata⟩
  . simp at h

theorem follows_iff (hD : Lawful D Ok Watched Awaited) (hM : Masked D Ok mask) (hinv : s.Inv Ok Watched mask)
    (hcreated : s.created[c]? = some created) (hentry : (s.loops l).loop.entry created.fd.toNat = some c)
    (call : WriteCall)
    : s.Follows D mask call c l ↔ ∃ l', created.data = .eventLoop l' := by
  constructor
  . intro h
    obtain ⟨s', hstep, _⟩ := h
    exact eventLoop_of_channelWriteEvent hcreated hstep
  . intro h
    obtain ⟨l', hdata⟩ := h
    have hl : l' = l := by
      obtain ⟨created', hcreated', hl⟩ := (hinv.loops l).entered _ _ hentry
      rw [hcreated, Option.some.injEq] at hcreated'
      subst hcreated'
      rw [hdata] at hl
      exact hl
    subst hl
    obtain ⟨s', hstep, hpending'⟩ := @exists_channelWriteEvent _ _ _ _ D s c created l' hcreated hdata call
    refine ⟨s', hstep, hpending', ?_⟩
    . intro t hreach hpending
      have hreg : s.Registered c l' created.fd := ⟨created, hcreated, hdata, rfl, hentry⟩
      have hboth : t.Inv Ok Watched mask ∧ t.Registered c l' created.fd := by
        apply hreach.invariant fun t => t.Inv Ok Watched mask ∧ t.Registered c l' created.fd
        . exact ⟨hinv.step hD hM hstep, hreg.step hD hM hinv hstep⟩
        . intro t t' a hbefore _ ht'
          exact ⟨hbefore.left.step hD hM ht', hbefore.right.step hD hM hbefore.left ht'⟩
      obtain ⟨hinv', wakeup, hw, hdata', hfd, hentry'⟩ := hboth
      rw [← hfd] at hentry'
      obtain ⟨_, henabled⟩ := (hinv'.loops l').watched c wakeup hw hdata' hentry'
      rw [hpending] at henabled
      have hmask := henabled (by simp)
      rw [channels_of_created hw]
      unfold CreatedChannel.channel at *
      dsimp only at *
      rw [hmask, Option.some.injEq]

/--
The calls do what they should exactly for the channels of `event_loop_init_with_name`.
-/
theorem follows_iff_eventLoop (call : WriteCall) (c : ChannelPtr) (created : CreatedChannel) (l : Nat)
    : (∀ s, Run.Reaches (step Poll.pollLoop) (fun _ _ => True) (init Poll.pollLoop) s
        → s.created[c]? = some created → (s.loops l).loop.entry created.fd.toNat = some c
        → (s.Follows Poll.pollLoop Poll.mask call c l ↔ ∃ l', created.data = .eventLoop l'))
      ∧ ∀ s, Run.Reaches (step Epoll.epollLoop) (fun _ _ => True) (init Epoll.epollLoop) s
        → s.created[c]? = some created → (s.loops l).loop.entry created.fd.toNat = some c
        → (s.Follows Epoll.epollLoop Epoll.mask call c l ↔ ∃ l', created.data = .eventLoop l') := by
  constructor
  . intro s hreach hcreated hentry
    apply follows_iff Poll.pollLoop_lawful Poll.pollLoop_masked _ hcreated hentry
    exact inv_of_reaches Poll.pollLoop_lawful Poll.pollLoop_masked hreach
  . intro s hreach hcreated hentry
    apply follows_iff Epoll.epollLoop_lawful Epoll.epollLoop_masked _ hcreated hentry
    exact inv_of_reaches Epoll.epollLoop_lawful Epoll.epollLoop_masked hreach

open Poll

def firstWakeup : CreatedChannel :=
  { fd := 7, events := EVENT_READ, data := .eventLoop 0 }

def oneLoop : Library (List PollFd) :=
  {
    loopCount := 1
    loops := Function.update (init pollLoop).loops 0
      {
        loop :=
          {
            channelMap := (List.replicate 32 none).set 7 (some 0)
            eventDispatcherData := pollAdd pollInit firstWakeup.channel
          }
        pending := []
      }
    created := [firstWakeup]
  }

theorem eventLoopHandlePendingChannel_eq_some {environment : ε} {memory : MapMemory} {loop : ChannelLoop δ}
    (h : Run.exec (handle (D.functions environment) memory s.channels) (s.loops l).loop (s.loops l).pending = some loop)
    : s.eventLoopHandlePendingChannel D l environment memory = some (s.setLoop l { loop, pending := [] }) := by
  unfold eventLoopHandlePendingChannel
  rw [h]

theorem step_oneLoop
    : step pollLoop (init pollLoop) (.eventLoopInitWithName 7 () .roomy) = some oneLoop := by
  have hmap : ChannelLoop.mapMakeSpace .roomy [] 7 = .ok (some (List.replicate 32 none)) := rfl
  have hadd : handle pollDispatcher .roomy ((init pollLoop).create 7 (.eventLoop 0)).channels
      { channelMap := [], eventDispatcherData := pollInit } (.add, 0) = some (oneLoop.loops 0).loop := by
    have hchannel : ((init pollLoop).create 7 (.eventLoop 0)).channels 0 = firstWakeup.channel := rfl
    have hfd : firstWakeup.channel.fd = 7 := rfl
    apply ChannelLoop.next_eq_some_iff.mpr
    unfold ChannelLoop.handlePending ChannelLoop.eventLoopHandlePendingAdd
    simp only [hchannel]
    rw [if_neg (by decide), hfd, hmap]
    rfl
  have hexec : Run.exec (handle pollDispatcher .roomy ((init pollLoop).create 7 (.eventLoop 0)).channels)
      { channelMap := [], eventDispatcherData := pollInit } [(.add, 0)] = some (oneLoop.loops 0).loop := by
    unfold Run.exec
    rw [hadd]
    rfl
  unfold step
  dsimp only
  rw [if_neg (by decide)]
  refine (eventLoopHandlePendingChannel_eq_some hexec).trans ?_
  unfold setLoop
  dsimp only
  rw [Function.update_idem]
  rfl

theorem follows_of_wakeup
    : ∃ s : Library (List PollFd), Run.Reaches (step pollLoop) (fun _ _ => True) (init pollLoop) s
      ∧ s.Follows pollLoop Poll.mask .enable 0 0 := by
  have hreach : Run.Reaches (step pollLoop) (fun _ _ => True) (init pollLoop) oneLoop :=
    .tail .refl trivial step_oneLoop
  refine ⟨oneLoop, hreach, ?_⟩
  apply ((follows_iff_eventLoop .enable 0 firstWakeup 0).left oneLoop hreach rfl rfl).mpr
  exact ⟨0, rfl⟩

-- A connection that is registered in loop 0.
theorem not_follows_of_connection
    : ∃ s : Library (List PollFd), Run.Reaches (step pollLoop) (fun _ _ => True) (init pollLoop) s
      ∧ s.created[1]? = some { fd := 8, events := EVENT_READ, data := .tcpConnection 0 }
      ∧ (s.loops 0).loop.entry 8 = some 1 ∧ ¬ s.Follows pollLoop Poll.mask .enable 1 0 := by
  have hexec : ∃ s, Run.exec (step pollLoop) oneLoop
      [.tcpConnectionNew 0 8, .eventLoopHandlePendingChannel 0 () .roomy] = some s
      ∧ s.created[1]? = some { fd := 8, events := EVENT_READ, data := .tcpConnection 0 }
      ∧ (s.loops 0).loop.entry 8 = some 1 := by
    refine ⟨_, rfl, ?_⟩
    exact ⟨rfl, rfl⟩
  obtain ⟨s, hexec, hcreated, hentry⟩ := hexec
  refine ⟨s, .trans (.tail .refl trivial step_oneLoop) (.of_exec ?_ hexec), hcreated, hentry, ?_⟩
  . apply Run.allOk_of_forall
    intro _ _
    trivial
  . intro hfollows
    obtain ⟨s', hstep, _⟩ := hfollows
    obtain ⟨l, hdata⟩ := eventLoop_of_channelWriteEvent hcreated hstep
    simp at hdata

end Library
end NetWork
