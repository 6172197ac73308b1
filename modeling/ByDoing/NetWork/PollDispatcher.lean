import ByDoing.Lib.Run
import ByDoing.Lib.Slots
import ByDoing.NetWork.EventDispatcher

namespace NetWork

def INIT_POLL_SIZE : Nat := 1024

def POLLRDNORM : BitVec 16 := 0x0040
def POLLWRNORM : BitVec 16 := 0x0100

structure PollFd where
  fd : Int
  events : BitVec 16
  deriving Repr, DecidableEq

namespace Poll

def pollInit : List PollFd :=
  List.replicate INIT_POLL_SIZE ⟨-1, 0⟩

def pollEvents (events : BitVec 32) : BitVec 16 :=
  (if events &&& EVENT_READ != 0 then POLLRDNORM else 0) ||| (if events &&& EVENT_WRITE != 0 then POLLWRNORM else 0)

def pollAdd (eventSet : List PollFd) (channel1 : Channel) : List PollFd :=
  (Slots.modifyFirst (fun slot => slot.fd < 0)
    (fun _ => { fd := channel1.fd, events := pollEvents channel1.events }) eventSet).getD eventSet

def pollDel (eventSet : List PollFd) (channel1 : Channel) : List PollFd :=
  (Slots.modifyFirst (fun slot => slot.fd == channel1.fd) (fun slot => { slot with fd := -1 }) eventSet).getD eventSet

def pollUpdate (eventSet : List PollFd) (channel1 : Channel) : List PollFd :=
  (Slots.modifyFirst (fun slot => slot.fd == channel1.fd)
    (fun slot => { slot with events := pollEvents channel1.events }) eventSet).getD eventSet

def pollDispatcher : EventDispatcher (List PollFd) where
  add eventSet channel1 := some (pollAdd eventSet channel1)
  del eventSet channel1 := some (pollDel eventSet channel1)
  update eventSet channel1 := some (pollUpdate eventSet channel1)

def slots (eventSet : List PollFd) (fd : Nat) : List PollFd :=
  eventSet.filter fun slot => slot.fd == (fd : Int)

theorem slots_pollInit (fd : Nat) : slots pollInit fd = [] := by
  apply List.filter_eq_nil_iff.mpr
  intro slot hslot
  rw [(List.mem_replicate.mp hslot).right]
  simp only [beq_iff_eq]
  omega

theorem slots_pollAdd_of_ne {eventSet : List PollFd} {c : Channel} {fd : Nat} (h : c.fd ≠ fd)
    : slots (pollAdd eventSet c) fd = slots eventSet fd := by
  unfold pollAdd slots
  cases hmodify : Slots.modifyFirst _ _ eventSet with
  | none => rfl
  | some eventSet' =>
    apply Slots.filter_modifyFirst_of_not hmodify
    . intro slot hslot
      simp only [decide_eq_true_eq] at hslot
      simp only [beq_eq_false_iff_ne, ne_eq]
      omega
    . intro slot _
      simpa using h

theorem slots_pollAdd_self {eventSet : List PollFd} {c : Channel} {fd : Nat} (hfd : c.fd = fd)
    (hnone : slots eventSet fd = []) (hfree : ∃ slot ∈ eventSet, slot.fd < 0)
    : slots (pollAdd eventSet c) fd = [⟨fd, pollEvents c.events⟩] := by
  unfold pollAdd slots
  cases hmodify : Slots.modifyFirst _ _ eventSet with
  | none =>
    obtain ⟨slot, hmem, hslot⟩ := hfree
    have hused := Slots.modifyFirst_eq_none_iff.mp hmodify slot hmem
    simp [hslot] at hused
  | some eventSet' =>
    obtain ⟨slot, _, hslots⟩ := Slots.filter_modifyFirst_of_new hmodify hnone (by simp [hfd])
    rw [Option.getD_some, hslots, hfd]

theorem pollAdd_of_full {eventSet : List PollFd} (hfull : ¬ ∃ slot ∈ eventSet, slot.fd < 0) (c : Channel)
    : pollAdd eventSet c = eventSet := by
  unfold pollAdd
  rw [Slots.modifyFirst_eq_none_iff.mpr]
  . rfl
  . intro slot hmem
    exact decide_eq_false fun hslot => hfull ⟨slot, hmem, hslot⟩

theorem slots_pollDel_of_ne {eventSet : List PollFd} {c : Channel} {fd : Nat} (h : c.fd ≠ fd)
    : slots (pollDel eventSet c) fd = slots eventSet fd := by
  unfold pollDel slots
  cases hmodify : Slots.modifyFirst _ _ eventSet with
  | none => rfl
  | some eventSet' =>
    apply Slots.filter_modifyFirst_of_not hmodify
    . intro slot hslot
      rw [beq_iff_eq] at hslot
      simpa [hslot] using h
    . intro slot _
      simp only [beq_eq_false_iff_ne, ne_eq]
      omega

theorem slots_pollDel_self {eventSet : List PollFd} {c : Channel} {fd : Nat} {slot : PollFd} (hfd : c.fd = fd)
    (hone : slots eventSet fd = [slot])
    : slots (pollDel eventSet c) fd = [] := by
  unfold pollDel slots at *
  rw [hfd]
  cases hmodify : Slots.modifyFirst _ _ eventSet with
  | none =>
    have hnil := List.filter_eq_nil_iff.mpr fun slot hslot =>
      Bool.eq_false_iff.mp (Slots.modifyFirst_eq_none_iff.mp hmodify slot hslot)
    rw [hnil] at hone
    simp at hone
  | some eventSet' =>
    rw [Option.getD_some, Slots.filter_modifyFirst_self hmodify hone]
    apply List.filter_cons_of_neg
    simp only [beq_iff_eq]
    omega

theorem slots_pollUpdate_of_ne {eventSet : List PollFd} {c : Channel} {fd : Nat} (h : c.fd ≠ fd)
    : slots (pollUpdate eventSet c) fd = slots eventSet fd := by
  unfold pollUpdate slots
  cases hmodify : Slots.modifyFirst _ _ eventSet with
  | none => rfl
  | some eventSet' =>
    apply Slots.filter_modifyFirst_of_not hmodify
    . intro slot hslot
      rw [beq_iff_eq] at hslot
      simpa [hslot] using h
    . intro slot hslot
      rw [beq_iff_eq] at hslot
      simpa [hslot] using h

theorem slots_pollUpdate_self {eventSet : List PollFd} {c : Channel} {fd : Nat} {slot : PollFd} (hfd : c.fd = fd)
    (hone : slots eventSet fd = [slot])
    : slots (pollUpdate eventSet c) fd = [⟨fd, pollEvents c.events⟩] := by
  have hmem : slot ∈ slots eventSet fd := hone ▸ List.mem_singleton_self slot
  obtain ⟨hmem, hslot⟩ := List.mem_filter.mp hmem
  rw [beq_iff_eq] at hslot
  unfold pollUpdate slots at *
  rw [hfd]
  cases hmodify : Slots.modifyFirst _ _ eventSet with
  | none =>
    have hother := Slots.modifyFirst_eq_none_iff.mp hmodify slot hmem
    simp [hslot] at hother
  | some eventSet' =>
    rw [Option.getD_some, Slots.filter_modifyFirst_self hmodify hone, List.filter_cons_of_pos (by simpa using hslot),
      hslot]
    rfl

end Poll

inductive PollAct where
  | handle (memory : MapMemory) (type : ElementType) (channel : ChannelPtr)
  | setEvents (channel : ChannelPtr) (events : BitVec 32)

/--
An event loop with the channels. `asOf` are the events that the channel of a descriptor had when the dispatcher was
last called to add or update that descriptor.
-/
structure PollLoop where
  loop : ChannelLoop (List PollFd)
  channels : ChannelPtr → Channel
  asOf : Nat → BitVec 32

namespace PollLoop

open Poll

def init (channels : ChannelPtr → Channel) : PollLoop :=
  { loop := { channelMap := [], eventDispatcherData := pollInit }, channels, asOf := fun _ => 0 }

def note (s : PollLoop) (loop : ChannelLoop (List PollFd)) (type : ElementType) (c : ChannelPtr) : Nat → BitVec 32 :=
  match type, loop.entry (s.channels c).fd.toNat with
  | .add, some c₀ =>
    if 0 ≤ (s.channels c).fd ∧ s.loop.entry (s.channels c).fd.toNat = none then
      Function.update s.asOf (s.channels c).fd.toNat (s.channels c₀).events
    else
      s.asOf
  | .update, some c₀ =>
    if 0 ≤ (s.channels c).fd then Function.update s.asOf (s.channels c).fd.toNat (s.channels c₀).events else s.asOf
  | _, _ => s.asOf

def step (s : PollLoop) : PollAct → Option PollLoop
  | .handle memory type c =>
    match s.loop.next pollDispatcher memory s.channels type c with
    | none => none
    | some loop => some { s with loop, asOf := s.note loop type c }
  | .setEvents c events =>
    some { s with channels := Function.update s.channels c { s.channels c with events } }

structure InStep (s : PollLoop) (fd : Nat) : Prop where
  registered_iff : s.loop.entry fd ≠ none ↔ ∃ slot, slots s.loop.eventDispatcherData fd = [slot]
  events_eq : s.loop.entry fd ≠ none → slots s.loop.eventDispatcherData fd = [⟨fd, pollEvents (s.asOf fd)⟩]
  null_iff : s.loop.entry fd = none ↔ slots s.loop.eventDispatcherData fd = []

def Fits (s : PollLoop) : PollAct → Prop
  | .handle memory .add c =>
    s.loop.Fits memory s.channels .add c
      ∧ (s.loop.Registers memory s.channels c → ∃ slot ∈ s.loop.eventDispatcherData, slot.fd < 0)
  | .handle memory .remove c => s.loop.Fits memory s.channels .remove c
  | .handle memory .update c =>
    s.loop.Fits memory s.channels .update c
      ∧ ∀ c₀, 0 ≤ (s.channels c).fd → s.loop.entry (s.channels c).fd.toNat = some c₀ →
        pollEvents (s.channels c).events = pollEvents (s.channels c₀).events
  | .setEvents _ _ => True

structure Inv (s : PollLoop) : Prop where
  registered : ∀ fd c, s.loop.entry fd = some c →
    (s.channels c).fd = fd ∧ slots s.loop.eventDispatcherData fd = [⟨fd, pollEvents (s.asOf fd)⟩]
  null : ∀ fd, s.loop.entry fd = none → slots s.loop.eventDispatcherData fd = []

theorem init_inv (channels : ChannelPtr → Channel) : (init channels).Inv := by
  constructor
  . intro fd c h
    simp [init, ChannelLoop.entry] at h
  . intro fd _
    exact slots_pollInit fd

theorem Inv.inStep {s : PollLoop} (hinv : s.Inv) (fd : Nat) : s.InStep fd := by
  cases hentry : s.loop.entry fd with
  | none =>
    have hnil := hinv.null fd hentry
    constructor
    . simp [hentry, hnil]
    . simp [hentry]
    . simp [hentry, hnil]
  | some c =>
    have hslots := (hinv.registered fd c hentry).right
    constructor
    . simp [hentry, hslots]
    . intro _
      exact hslots
    . simp [hentry, hslots]

variable {s : PollLoop} {memory : MapMemory} {c : ChannelPtr}

theorem Inv.setEvents (hinv : s.Inv) (c : ChannelPtr) (events : BitVec 32)
    : Inv { s with channels := Function.update s.channels c { s.channels c with events } } := by
  have hfd : ∀ c', (Function.update s.channels c { s.channels c with events } c').fd = (s.channels c').fd := by
    intro c'
    by_cases hc : c' = c
    . subst hc
      rw [Function.update_self]
    . rw [Function.update_of_ne hc]
  constructor
  . intro fd c' hentry
    obtain ⟨heq, hslots⟩ := hinv.registered fd c' hentry
    exact ⟨(hfd c').trans heq, hslots⟩
  . exact hinv.null

theorem Inv.add (hinv : s.Inv) (hreg : s.loop.Registers memory s.channels c)
    : ∃ s', s.step (.handle memory .add c) = some s' ∧ s'.channels = s.channels
      ∧ s'.loop.entry = Function.update s.loop.entry (s.channels c).fd.toNat (some c)
      ∧ s'.loop.eventDispatcherData = pollAdd s.loop.eventDispatcherData (s.channels c)
      ∧ ((∃ slot ∈ s.loop.eventDispatcherData, slot.fd < 0) → s'.Inv) := by
  have hfd := Int.toNat_of_nonneg hreg.left
  have hnil := hinv.null _ hreg.right.right
  obtain ⟨hnone, _⟩ | ⟨loop, hadd, hdata, hentry, _⟩ :=
    @ChannelLoop.handlePendingAdd_of_registers _ pollDispatcher _ _ _ _ hreg
  . simp [pollDispatcher] at hnone
  . have hdata : loop.eventDispatcherData = pollAdd s.loop.eventDispatcherData (s.channels c) :=
      (Option.some.inj hdata).symm
    have hself : loop.entry (s.channels c).fd.toNat = some c := by
      rw [hentry, Function.update_self]
    have hnote : s.note loop .add c = Function.update s.asOf (s.channels c).fd.toNat (s.channels c).events := by
      unfold note
      rw [hself]
      dsimp only
      rw [if_pos ⟨hreg.left, hreg.right.right⟩]
    refine ⟨{ s with loop, asOf := s.note loop .add c }, ?_, rfl, hentry, hdata, ?_⟩
    . have hnext : s.loop.next pollDispatcher memory s.channels .add c = some loop :=
        ChannelLoop.next_eq_some_iff.mpr hadd
      unfold step
      dsimp only
      rw [hnext]
    . intro hfree
      constructor
      . intro fd c' hc'
        dsimp only at hc' ⊢
        by_cases heq : fd = (s.channels c).fd.toNat
        . subst heq
          rw [hself, Option.some.injEq] at hc'
          subst hc'
          refine ⟨hfd.symm, ?_⟩
          rw [hdata, slots_pollAdd_self hfd.symm hnil hfree, hnote, Function.update_self]
        . rw [hentry, Function.update_of_ne heq] at hc'
          obtain ⟨hfd', hslots⟩ := hinv.registered fd c' hc'
          refine ⟨hfd', ?_⟩
          rw [hdata, slots_pollAdd_of_ne (by omega), hslots, hnote, Function.update_of_ne heq]
      . intro fd hc'
        dsimp only at hc' ⊢
        have heq : fd ≠ (s.channels c).fd.toNat := by
          intro heq
          rw [heq, hself] at hc'
          simp at hc'
        rw [hentry, Function.update_of_ne heq] at hc'
        rw [hdata, slots_pollAdd_of_ne (by omega), hinv.null fd hc']

theorem Inv.add_ignored (hinv : s.Inv) (hfits : s.loop.Fits memory s.channels .add c)
    (hreg : ¬ s.loop.Registers memory s.channels c)
    : ∃ s', s.step (.handle memory .add c) = some s' ∧ s'.Inv := by
  obtain ⟨loop, hadd, hdata, hentry, _⟩ :=
    @ChannelLoop.handlePendingAdd_of_not_registers _ pollDispatcher _ _ _ _ hfits hreg
  have hnote : s.note loop .add c = s.asOf := by
    unfold note
    rw [hentry]
    cases hc : s.loop.entry (s.channels c).fd.toNat with
    | none => rfl
    | some c₀ =>
      dsimp only
      rw [if_neg (by simp)]
  refine ⟨{ s with loop, asOf := s.note loop .add c }, ?_, ?_, ?_⟩
  . have hnext : s.loop.next pollDispatcher memory s.channels .add c = some loop :=
      ChannelLoop.next_eq_some_iff.mpr hadd
    unfold step
    dsimp only
    rw [hnext]
  . dsimp only
    rw [hentry, hdata, hnote]
    exact hinv.registered
  . dsimp only
    rw [hentry, hdata]
    exact hinv.null

theorem Inv.remove {c₂ : ChannelPtr} (hinv : s.Inv) (hnonneg : 0 ≤ (s.channels c).fd)
    (hc₂ : s.loop.entry (s.channels c).fd.toNat = some c₂)
    : ∃ s', s.step (.handle memory .remove c) = some s' ∧ s'.Inv := by
  obtain ⟨hfd, hone⟩ := hinv.registered _ _ hc₂
  obtain ⟨hnone, _⟩ | ⟨loop, hremove, hdata, hentry, _⟩ :=
    @ChannelLoop.handlePendingRemove_of_entry _ pollDispatcher _ _ _ _ hnonneg hc₂
  . simp [pollDispatcher] at hnone
  . have hdata : loop.eventDispatcherData = pollDel s.loop.eventDispatcherData (s.channels c₂) :=
      (Option.some.inj hdata).symm
    refine ⟨{ s with loop, asOf := s.note loop .remove c }, ?_, ?_, ?_⟩
    . have hnext : s.loop.next pollDispatcher memory s.channels .remove c = some loop :=
        ChannelLoop.next_eq_some_iff.mpr hremove
      unfold step
      dsimp only
      rw [hnext]
    . intro fd c' hc'
      dsimp only at hc' ⊢
      have heq : fd ≠ (s.channels c).fd.toNat := by
        intro heq
        rw [heq, hentry, Function.update_self] at hc'
        simp at hc'
      rw [hentry, Function.update_of_ne heq] at hc'
      obtain ⟨hfd', hslots⟩ := hinv.registered fd c' hc'
      refine ⟨hfd', ?_⟩
      rw [hdata, slots_pollDel_of_ne (by omega), hslots]
      rfl
    . intro fd hc'
      dsimp only at hc' ⊢
      rw [hdata]
      by_cases heq : fd = (s.channels c).fd.toNat
      . rw [heq]
        exact slots_pollDel_self hfd hone
      . rw [hentry, Function.update_of_ne heq] at hc'
        rw [slots_pollDel_of_ne (by omega), hinv.null fd hc']

theorem Inv.update {c₀ : ChannelPtr} (hinv : s.Inv) (hnonneg : 0 ≤ (s.channels c).fd)
    (hc₀ : s.loop.entry (s.channels c).fd.toNat = some c₀)
    : ∃ s', s.step (.handle memory .update c) = some s' ∧ s'.loop.entry = s.loop.entry
      ∧ slots s'.loop.eventDispatcherData (s.channels c).fd.toNat
        = [⟨(s.channels c).fd.toNat, pollEvents (s.channels c).events⟩]
      ∧ s'.asOf (s.channels c).fd.toNat = (s.channels c₀).events
      ∧ (pollEvents (s.channels c).events = pollEvents (s.channels c₀).events → s'.Inv) := by
  have hfd := Int.toNat_of_nonneg hnonneg
  obtain ⟨hfd₀, hone⟩ := hinv.registered _ _ hc₀
  obtain ⟨hnone, _⟩ | ⟨loop, hupdate, hdata, hentry, _⟩ :=
    @ChannelLoop.handlePendingUpdate_of_entry _ pollDispatcher _ _ _ _ hnonneg hc₀
  . simp [pollDispatcher] at hnone
  . have hdata : loop.eventDispatcherData = pollUpdate s.loop.eventDispatcherData (s.channels c) :=
      (Option.some.inj hdata).symm
    have hnote : s.note loop .update c = Function.update s.asOf (s.channels c).fd.toNat (s.channels c₀).events := by
      unfold note
      rw [hentry, hc₀]
      dsimp only
      rw [if_pos hnonneg]
    have hself := hdata ▸ slots_pollUpdate_self hfd.symm hone
    refine ⟨{ s with loop, asOf := s.note loop .update c }, ?_, hentry, hself, ?_, ?_⟩
    . have hnext : s.loop.next pollDispatcher memory s.channels .update c = some loop :=
        ChannelLoop.next_eq_some_iff.mpr hupdate
      unfold step
      dsimp only
      rw [hnext]
    . dsimp only
      rw [hnote, Function.update_self]
    . intro hsame
      constructor
      . intro fd c' hc'
        dsimp only at hc' ⊢
        rw [hentry] at hc'
        obtain ⟨hfd', hslots⟩ := hinv.registered fd c' hc'
        refine ⟨hfd', ?_⟩
        by_cases heq : fd = (s.channels c).fd.toNat
        . subst heq
          rw [hself, hnote, Function.update_self, hsame]
        . rw [hdata, slots_pollUpdate_of_ne (by omega), hslots, hnote, Function.update_of_ne heq]
      . intro fd hc'
        dsimp only at hc' ⊢
        rw [hentry] at hc'
        have heq : fd ≠ (s.channels c).fd.toNat := by
          intro heq
          rw [heq, hc₀] at hc'
          simp at hc'
        rw [hdata, slots_pollUpdate_of_ne (by omega), hinv.null fd hc']

theorem Inv.update_ignored (hinv : s.Inv)
    (h : (s.channels c).fd < 0 ∨ ((s.channels c).fd.toNat < s.loop.channelMap.length
      ∧ s.loop.entry (s.channels c).fd.toNat = none))
    : ∃ s', s.step (.handle memory .update c) = some s' ∧ s'.Inv := by
  have hnote : s.note s.loop .update c = s.asOf := by
    unfold note
    cases h with
    | inl hneg =>
      cases s.loop.entry (s.channels c).fd.toNat with
      | none => rfl
      | some c₀ =>
        dsimp only
        rw [if_neg (by omega)]
    | inr hnull => rw [hnull.right]
  refine ⟨{ s with asOf := s.note s.loop .update c }, ?_, ?_⟩
  . have hnext : s.loop.next pollDispatcher memory s.channels .update c = some s.loop :=
      ChannelLoop.next_eq_some_iff.mpr (@ChannelLoop.handlePendingUpdate_of_null _ pollDispatcher _ _ _ h)
    unfold step
    dsimp only
    rw [hnext]
  . rw [hnote]
    exact hinv

theorem Inv.remove_ignored (hinv : s.Inv)
    (h : (s.channels c).fd < 0 ∨ s.loop.channelMap.length ≤ (s.channels c).fd.toNat)
    : ∃ s', s.step (.handle memory .remove c) = some s' ∧ s'.Inv := by
  refine ⟨{ s with asOf := s.note s.loop .remove c }, ?_, hinv.registered, hinv.null⟩
  have hnext : s.loop.next pollDispatcher memory s.channels .remove c = some s.loop :=
    ChannelLoop.next_eq_some_iff.mpr (@ChannelLoop.handlePendingRemove_of_outside _ pollDispatcher _ _ _ h)
  unfold step
  dsimp only
  rw [hnext]

theorem Inv.step_of_fits (hinv : s.Inv) {a : PollAct} (hfits : s.Fits a) : ∃ s', s.step a = some s' ∧ s'.Inv := by
  match a with
  | .setEvents c events => exact ⟨_, rfl, hinv.setEvents c events⟩
  | .handle memory .add c =>
    by_cases hreg : s.loop.Registers memory s.channels c
    . obtain ⟨s', hstep, _, _, _, hinv'⟩ := hinv.add hreg
      exact ⟨s', hstep, hinv' (hfits.right hreg)⟩
    . exact hinv.add_ignored hfits.left hreg
  | .handle memory .remove c =>
    by_cases hout : (s.channels c).fd < 0 ∨ s.loop.channelMap.length ≤ (s.channels c).fd.toNat
    . exact hinv.remove_ignored hout
    . rw [not_or, Int.not_lt, Nat.not_le] at hout
      obtain ⟨c₂, hc₂⟩ := Option.ne_none_iff_exists'.mp (hfits hout.left hout.right)
      exact hinv.remove hout.left hc₂
  | .handle memory .update c =>
    by_cases hneg : (s.channels c).fd < 0
    . exact hinv.update_ignored (.inl hneg)
    . have hnonneg := Int.not_lt.mp hneg
      cases hentry : s.loop.entry (s.channels c).fd.toNat with
      | none => exact hinv.update_ignored (.inr ⟨hfits.left hnonneg, hentry⟩)
      | some c₀ =>
        obtain ⟨s', hstep, _, _, _, hinv'⟩ := hinv.update hnonneg hentry
        exact ⟨s', hstep, hinv' (hfits.right c₀ hnonneg hentry)⟩

theorem fits_of_step_eq_some {type : ElementType} {s' : PollLoop} (hstep : s.step (.handle memory type c) = some s')
    : s.loop.Fits memory s.channels type c := by
  unfold step at hstep
  dsimp only at hstep
  split at hstep
  . cases hstep
  . next loop hnext => exact (ChannelLoop.handlePending_eq_some_iff.mp ⟨loop, ChannelLoop.next_eq_some_iff.mp hnext⟩).left

theorem Inv.fits_of_step (hinv : s.Inv) {a : PollAct} {s' : PollLoop} (hstep : s.step a = some s')
    (hinStep : ∀ fd, s'.InStep fd)
    : s.Fits a := by
  match a with
  | .setEvents c events => trivial
  | .handle memory .add c =>
    refine ⟨fits_of_step_eq_some hstep, ?_⟩
    intro hreg
    obtain ⟨s'', hadd, _, hentry, hdata, _⟩ := hinv.add hreg
    rw [hadd, Option.some.injEq] at hstep
    subst hstep
    -- Without a free slot the table stays as it is, and it has no slot for the new entry.
    apply Classical.byContradiction
    intro hfull
    rw [pollAdd_of_full hfull] at hdata
    obtain ⟨slot, hslot⟩ := (hinStep (s.channels c).fd.toNat).registered_iff.mp (by simp [hentry])
    rw [hdata, hinv.null _ hreg.right.right] at hslot
    simp at hslot
  | .handle memory .remove c => exact fits_of_step_eq_some hstep
  | .handle memory .update c =>
    refine ⟨fits_of_step_eq_some hstep, ?_⟩
    intro c₀ hnonneg hc₀
    obtain ⟨s'', hupdate, hentry, hslots, hasOf, _⟩ := hinv.update hnonneg hc₀
    rw [hupdate, Option.some.injEq] at hstep
    subst hstep
    have hevents := (hinStep (s.channels c).fd.toNat).events_eq (by simp [hentry, hc₀])
    rw [hslots, hasOf, List.cons.injEq, PollFd.mk.injEq] at hevents
    exact hevents.left.right

/--
Map and table agree about every descriptor in every state that is reached by steps that fit, and a further step
comes to its end and keeps them in step exactly if it fits.
-/
theorem inStep_iff_fits {channels : ChannelPtr → Channel} {s : PollLoop}
    (h : Run.Reaches step Fits (init channels) s)
    : (∀ fd, s.InStep fd) ∧ ∀ a, (∃ s', s.step a = some s' ∧ ∀ fd, s'.InStep fd) ↔ s.Fits a := by
  have hinv : s.Inv := by
    apply h.invariant Inv (init_inv channels)
    intro s s' a hinv hfits hstep
    obtain ⟨s'', hstep', hinv'⟩ := hinv.step_of_fits hfits
    rw [hstep, Option.some.injEq] at hstep'
    exact hstep' ▸ hinv'
  refine ⟨hinv.inStep, ?_⟩
  intro a
  constructor
  . intro ⟨s', hstep, hinStep⟩
    exact hinv.fits_of_step hstep hinStep
  . intro hfits
    obtain ⟨s', hstep, hinv'⟩ := hinv.step_of_fits hfits
    exact ⟨s', hstep, hinv'.inStep⟩

-- The channel at `c` is a connection with the descriptor `c`.
def connections (c : ChannelPtr) : Channel :=
  { fd := c, events := EVENT_READ, data := .tcpConnection }

theorem registers_roomy {channels : ChannelPtr → Channel} {loop : ChannelLoop (List PollFd)} {c : ChannelPtr}
    (hfd : 0 ≤ (channels c).fd) (hlt : (channels c).fd < 134217728)
    (hentry : loop.entry (channels c).fd.toNat = none)
    : loop.Registers .roomy channels c :=
  ⟨hfd, ChannelLoop.hasRoom_iff.mpr (ChannelLoop.mapMakeSpace_of_roomy (fun _ => nofun) (ChannelLoop.mapFits_of_lt hlt)),
    hentry⟩

theorem inStep_oneConnection
    : ∃ s, Run.Reaches step Fits (init connections) s ∧ s.loop.entry 7 = some 7 ∧ s.InStep 7 := by
  have hfits : (init connections).Fits (.handle .roomy .add 7) := by
    refine ⟨?_, ?_⟩
    . intro _
      apply ChannelLoop.mapFits_of_lt
      decide
    . intro _
      exact ⟨⟨-1, 0⟩, List.mem_replicate.mpr ⟨by decide, rfl⟩, by decide⟩
  have hreg : (init connections).loop.Registers .roomy connections 7 := by
    apply registers_roomy
    . decide
    . decide
    . rfl
  obtain ⟨s, hstep, _, hentry, _⟩ := (init_inv connections).add hreg
  have hreach : Run.Reaches step Fits (init connections) s := .tail .refl hfits hstep
  refine ⟨s, hreach, ?_, (inStep_iff_fits hreach).left 7⟩
  rw [hentry]
  exact Function.update_self _ _ _

def free (eventSet : List PollFd) : Nat :=
  eventSet.countP fun slot => slot.fd < 0

theorem free_pollAdd {eventSet : List PollFd} {c : Channel} (hfd : 0 ≤ c.fd) (hfree : ∃ slot ∈ eventSet, slot.fd < 0)
    : free (pollAdd eventSet c) + 1 = free eventSet := by
  unfold pollAdd free
  cases hmodify : Slots.modifyFirst _ _ eventSet with
  | none =>
    obtain ⟨slot, hmem, hslot⟩ := hfree
    have hused := Slots.modifyFirst_eq_none_iff.mp hmodify slot hmem
    simp [hslot] at hused
  | some eventSet' =>
    obtain ⟨xs, slot, ys, rfl, hslot, rfl⟩ := Slots.modifyFirst_eq_some hmodify
    rw [Option.getD_some, List.countP_append, List.countP_append, List.countP_cons, List.countP_cons, if_pos hslot,
      if_neg (by simpa using hfd)]
    omega

theorem exists_filled {n : Nat} (hn : n ≤ INIT_POLL_SIZE)
    : ∃ s, Run.Reaches step (fun _ _ => True) (init connections) s ∧ s.Inv ∧ s.channels = connections
      ∧ (∀ fd, n ≤ fd → s.loop.entry fd = none) ∧ free s.loop.eventDispatcherData = INIT_POLL_SIZE - n := by
  induction n with
  | zero =>
    refine ⟨init connections, .refl, init_inv connections, rfl, fun _ _ => rfl, ?_⟩
    exact List.countP_replicate.trans rfl
  | succ n ih =>
    obtain ⟨s, hreach, hinv, hchannels, hentry, hfree⟩ := ih (Nat.le_of_succ_le hn)
    have hfd : (s.channels n).fd = (n : Int) := by rw [hchannels]; rfl
    have hslot : ∃ slot ∈ s.loop.eventDispatcherData, slot.fd < 0 := by
      have hpos : 0 < free s.loop.eventDispatcherData := by omega
      obtain ⟨slot, hmem, hneg⟩ := List.countP_pos_iff.mp hpos
      exact ⟨slot, hmem, of_decide_eq_true hneg⟩
    have hreg : s.loop.Registers .roomy s.channels n := by
      unfold INIT_POLL_SIZE at hn
      apply registers_roomy
      . omega
      . omega
      . rw [hfd, Int.toNat_natCast]
        exact hentry n (Nat.le_refl n)
    obtain ⟨s', hstep, hchannels', hentry', hdata, hinv'⟩ := hinv.add hreg
    refine ⟨s', hreach.tail trivial hstep, hinv' hslot, hchannels'.trans hchannels, ?_, ?_⟩
    . intro fd hle
      rw [hentry', hfd, Int.toNat_natCast, Function.update_of_ne (by omega)]
      exact hentry fd (by omega)
    . have hcount := @free_pollAdd _ (s.channels n) (by omega) hslot
      rw [hdata]
      omega

-- The connection after the one that takes the last slot is in the map and not in the table.
theorem not_inStep_of_full
    : ∃ s, Run.Reaches step (fun _ _ => True) (init connections) s ∧ ¬ ∀ fd, s.InStep fd := by
  obtain ⟨s, hreach, hinv, hchannels, hentry, hfree⟩ := exists_filled (Nat.le_refl INIT_POLL_SIZE)
  have hfd : (s.channels INIT_POLL_SIZE).fd = (INIT_POLL_SIZE : Int) := by rw [hchannels]; rfl
  have hreg : s.loop.Registers .roomy s.channels INIT_POLL_SIZE := by
    apply registers_roomy
    . omega
    . rw [hfd]
      decide
    . rw [hfd, Int.toNat_natCast]
      exact hentry _ (Nat.le_refl _)
  obtain ⟨s', hstep, _⟩ := hinv.add hreg
  refine ⟨s', hreach.tail trivial hstep, ?_⟩
  intro hinStep
  obtain ⟨slot, hmem, hneg⟩ := (hinv.fits_of_step hstep hinStep).right hreg
  have hpos : 0 < free s.loop.eventDispatcherData := List.countP_pos_iff.mpr ⟨slot, hmem, decide_eq_true hneg⟩
  omega

end PollLoop
end NetWork
