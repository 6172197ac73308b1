import ByDoing.Lib.Run
import ByDoing.NetWork.EventDispatcher

/-!
This module contains the thread of an event loop that handles pending operations and runs dispatch rounds. Between
two steps the thread is either outside of a round or in a callback of one, and in both cases it may handle any
operation: `event_loop_do_channel_event` drains the pending list at once if the caller is the thread of the loop.
`.error` is an access to memory that is not there, and `.ok none` says that the process has ended in `error` or that
the step is none that can be taken.
-/

namespace NetWork

/--
The functions of an `event_dispatcher`. `wait` starts a round with the answer of the system, and `advance` runs the
loop of the round up to its next call of `channel_event_activate`. `ε` is what `epoll_ctl` depends on.
-/
structure Dispatcher (ε δ ρ α : Type) where
  functions : ε → EventDispatcher δ
  init : δ
  wait : δ → α → Option ρ
  advance : δ → ρ → δ × Option (Int × BitVec 32 × ρ)
  close : δ → Nat → δ

inductive DispatchAct (ε α : Type) where
  | handle (environment : ε) (memory : MapMemory) (type : ElementType) (channel : ChannelPtr)
  | dispatch (answer : α)
  | callbackReturns
  | close (fd : Nat)
  | setEvents (channel : ChannelPtr) (events : BitVec 32)

/--
`removed` are the descriptors that have lost their entry since the round has begun.
-/
structure Dispatching (δ ρ : Type) where
  loop : ChannelLoop δ
  channels : ChannelPtr → Channel
  round : Option ρ
  removed : Nat → Bool

namespace Dispatching

-- The channel whose callbacks for `revents` are called.
def channelEventActivate {δ : Type} (channels : ChannelPtr → Channel) (loop : ChannelLoop δ) (fd : Int)
    (revents : BitVec 32)
    : Except LoopFault (Option (ChannelPtr × BitVec 32)) :=
  if fd < 0 then
    .ok none
  else
    match loop.channelMap[fd.toNat]? with
    | none => .ok none
    | some none => .error .nullPointer
    | some (some channel) => if fd = (channels channel).fd then .ok (some (channel, revents)) else .error .assertFailed

variable {ε δ ρ α : Type}

def init (D : Dispatcher ε δ ρ α) (channels : ChannelPtr → Channel) : Dispatching δ ρ :=
  {
    loop := { channelMap := [], eventDispatcherData := D.init }
    channels
    round := none
    removed := fun _ => false
  }

def setData (s : Dispatching δ ρ) (data : δ) : Dispatching δ ρ :=
  { s with loop := { s.loop with eventDispatcherData := data } }

def note (s : Dispatching δ ρ) (loop : ChannelLoop δ) (fd : Nat) : Bool :=
  (s.removed fd || (s.loop.entry fd).isSome) && (loop.entry fd).isNone

def goOn (D : Dispatcher ε δ ρ α) (s : Dispatching δ ρ) (round : ρ) : Except LoopFault (Option (Dispatching δ ρ)) :=
  match D.advance s.loop.eventDispatcherData round with
  | (data, none) => .ok (some { s.setData data with round := none })
  | (data, some (fd, revents, round)) =>
    match channelEventActivate s.channels s.loop fd revents with
    | .error e => .error e
    | .ok _ => .ok (some { s.setData data with round := some round })

def step (D : Dispatcher ε δ ρ α) (s : Dispatching δ ρ)
    : DispatchAct ε α → Except LoopFault (Option (Dispatching δ ρ))
  | .handle environment memory type c =>
    match s.loop.handlePending (D.functions environment) memory s.channels type c with
    | .error e => .error e
    | .ok none => .ok none
    | .ok (some loop) => .ok (some { s with loop, removed := s.note loop })
  | .dispatch answer =>
    match s.round, D.wait s.loop.eventDispatcherData answer with
    | none, some round => goOn D { s with removed := fun _ => false } round
    | _, _ => .ok none
  | .callbackReturns =>
    match s.round with
    | none => .ok none
    | some round => goOn D s round
  | .close fd => .ok (some (s.setData (D.close s.loop.eventDispatcherData fd)))
  | .setEvents c events =>
    .ok (some { s with channels := Function.update s.channels c { s.channels c with events } })

def next (D : Dispatcher ε δ ρ α) (s : Dispatching δ ρ) (a : DispatchAct ε α) : Option (Dispatching δ ρ) :=
  match step D s a with
  | .error _ => none
  | .ok s' => s'

-- The descriptor of the next call of `channel_event_activate`.
def upcoming (D : Dispatcher ε δ ρ α) (s : Dispatching δ ρ) : Option Int :=
  match s.round with
  | none => none
  | some round => (D.advance s.loop.eventDispatcherData round).snd.map Prod.fst

def Fits (D : Dispatcher ε δ ρ α) (s : Dispatching δ ρ) : DispatchAct ε α → Prop
  | .handle _ memory type c => s.loop.Fits memory s.channels type c
  | .callbackReturns => ∀ fd ∈ s.upcoming D, s.removed fd.toNat = false
  | _ => True

/--
What the two dispatchers have in common. `Watched` are the descriptors that the system may report an event of, and
`Awaited` those that a round has still an event for.
-/
structure Lawful (D : Dispatcher ε δ ρ α) (Ok : δ → Prop) (Watched : δ → Nat → Prop) (Awaited : ρ → Nat → Prop)
    : Prop where
  init : Ok D.init ∧ ∀ fd, ¬ Watched D.init fd
  add : ∀ {environment data c data'}, Ok data → 0 ≤ c.fd → ¬ Watched data c.fd.toNat
    → (D.functions environment).add data c = some data'
    → Ok data' ∧ ∀ fd, Watched data' fd → fd = c.fd.toNat ∨ Watched data fd
  del : ∀ {environment data c data'}, Ok data → 0 ≤ c.fd → (D.functions environment).del data c = some data'
    → Ok data' ∧ ∀ fd, Watched data' fd → fd ≠ c.fd.toNat ∧ Watched data fd
  update : ∀ {environment data c data'}, Ok data → 0 ≤ c.fd → (D.functions environment).update data c = some data'
    → Ok data' ∧ ∀ fd, Watched data' fd → Watched data fd
  close : ∀ {data} fd, Ok data → Ok (D.close data fd) ∧ ∀ fd', Watched (D.close data fd) fd' → Watched data fd'
  wait : ∀ {data answer round}, D.wait data answer = some round → ∀ fd, Awaited round fd → Watched data fd
  advance : ∀ {data} round, Ok data → Ok (D.advance data round).fst
    ∧ ∀ fd, Watched (D.advance data round).fst fd → Watched data fd
  activated : ∀ {data round fd revents rest}, (D.advance data round).snd = some (fd, revents, rest)
    → ∃ n : Nat, fd = n ∧ (Awaited round n ∨ Watched data n) ∧ ∀ n', Awaited rest n' → n' = n ∨ Awaited round n'

structure Sound (Ok : δ → Prop) (Watched : δ → Nat → Prop) (channels : ChannelPtr → Channel) (loop : ChannelLoop δ)
    : Prop where
  ok : Ok loop.eventDispatcherData
  registered : ∀ fd c, loop.entry fd = some c → (channels c).fd = fd
  watched : ∀ fd, Watched loop.eventDispatcherData fd → loop.entry fd ≠ none

structure Inv (Ok : δ → Prop) (Watched : δ → Nat → Prop) (Awaited : ρ → Nat → Prop) (s : Dispatching δ ρ)
    : Prop where
  sound : Sound Ok Watched s.channels s.loop
  awaited : ∀ round ∈ s.round, ∀ fd, Awaited round fd → s.loop.entry fd ≠ none ∨ s.removed fd = true
  removed : ∀ fd, s.removed fd = true → fd < s.loop.channelMap.length ∧ s.loop.entry fd = none

section Invariant

variable {D : Dispatcher ε δ ρ α} {Ok : δ → Prop} {Watched : δ → Nat → Prop} {Awaited : ρ → Nat → Prop}
  {s s' : Dispatching δ ρ} {channels : ChannelPtr → Channel} {loop loop' : ChannelLoop δ}

theorem Sound.init (hD : Lawful D Ok Watched Awaited) (channels : ChannelPtr → Channel)
    : Sound Ok Watched channels { channelMap := [], eventDispatcherData := D.init } := by
  constructor
  . exact hD.init.left
  . intro fd c hentry
    simp [ChannelLoop.entry] at hentry
  . intro fd hwatched
    exact absurd hwatched (hD.init.right fd)

theorem Sound.setData (h : Sound Ok Watched channels loop) {data : δ} (hok : Ok data)
    (hwatched : ∀ fd, Watched data fd → Watched loop.eventDispatcherData fd)
    : Sound Ok Watched channels { loop with eventDispatcherData := data } := by
  constructor
  . exact hok
  . exact h.registered
  . intro fd hfd
    exact h.watched fd (hwatched fd hfd)

theorem Sound.setChannels {channels' : ChannelPtr → Channel} (h : Sound Ok Watched channels loop)
    (hfd : ∀ fd c, loop.entry fd = some c → (channels' c).fd = (channels c).fd)
    : Sound Ok Watched channels' loop := by
  constructor
  . exact h.ok
  . intro fd c hentry
    rw [hfd fd c hentry]
    exact h.registered fd c hentry
  . exact h.watched

theorem Sound.effect (hD : Lawful D Ok Watched Awaited) (h : Sound Ok Watched channels loop) {environment : ε}
    {c : ChannelPtr} {type : ElementType} (heffect : ChannelLoop.Effect (D.functions environment) channels loop loop' c type)
    : Sound Ok Watched channels loop' := by
  cases heffect with
  | nothing hdata hentry =>
    constructor
    . rw [hdata]
      exact h.ok
    . rw [hentry]
      exact h.registered
    . rw [hdata, hentry]
      exact h.watched
  | add hnonneg hfd hcall hentry =>
    have hnot : ¬ Watched loop.eventDispatcherData (channels c).fd.toNat := by
      intro hwatched
      exact h.watched _ hwatched hfd
    obtain ⟨hok, hwatched⟩ := hD.add h.ok hnonneg hnot hcall
    refine ⟨hok, ?_, ?_⟩
    . intro fd c' hc'
      rw [hentry] at hc'
      by_cases heq : fd = (channels c).fd.toNat
      . rw [heq, Function.update_self, Option.some.injEq] at hc'
        subst hc'
        omega
      . rw [Function.update_of_ne heq] at hc'
        exact h.registered fd c' hc'
    . intro fd hfd'
      rw [hentry]
      by_cases heq : fd = (channels c).fd.toNat
      . rw [heq, Function.update_self]
        simp
      . rw [Function.update_of_ne heq]
        exact h.watched fd ((hwatched fd hfd').resolve_left heq)
  | del c₂ hnonneg hfd hcall hentry =>
    have hfd₂ := h.registered _ _ hfd
    obtain ⟨hok, hwatched⟩ := hD.del h.ok (by omega) hcall
    refine ⟨hok, ?_, ?_⟩
    . intro fd c' hc'
      rw [hentry] at hc'
      by_cases heq : fd = (channels c).fd.toNat
      . rw [heq, Function.update_self] at hc'
        simp at hc'
      . rw [Function.update_of_ne heq] at hc'
        exact h.registered fd c' hc'
    . intro fd hfd'
      obtain ⟨hne, hbefore⟩ := hwatched fd hfd'
      rw [hentry, Function.update_of_ne (by omega)]
      exact h.watched fd hbefore
  | update hnonneg hcall hentry =>
    obtain ⟨hok, hwatched⟩ := hD.update h.ok hnonneg hcall
    refine ⟨hok, ?_, ?_⟩
    . rw [hentry]
      exact h.registered
    . intro fd hfd
      rw [hentry]
      exact h.watched fd (hwatched fd hfd)

theorem init_inv (hD : Lawful D Ok Watched Awaited) (channels : ChannelPtr → Channel)
    : (init D channels).Inv Ok Watched Awaited := by
  constructor
  . exact Sound.init hD channels
  . intro round hround
    simp [init] at hround
  . intro fd hremoved
    simp [init] at hremoved

theorem Inv.setLoop (hinv : s.Inv Ok Watched Awaited) (hsound : Sound Ok Watched s.channels loop)
    (hlength : s.loop.channelMap.length ≤ loop.channelMap.length)
    : Inv Ok Watched Awaited { s with loop, removed := s.note loop } := by
  constructor
  . exact hsound
  . intro round hround fd hfd
    have hbefore := hinv.awaited round hround fd hfd
    dsimp only [note]
    cases hentry : loop.entry fd with
    | none =>
      right
      cases hbefore with
      | inl hsome => simp [Option.isSome_iff_ne_none.mpr hsome]
      | inr hremoved => simp [hremoved]
    | some c => simp
  . intro fd hremoved
    simp only [note, Bool.and_eq_true, Bool.or_eq_true, Option.isNone_iff_eq_none] at hremoved
    obtain ⟨hbefore, hnone⟩ := hremoved
    refine ⟨?_, hnone⟩
    apply Nat.lt_of_lt_of_le _ hlength
    cases hbefore with
    | inl hremoved => exact (hinv.removed fd hremoved).left
    | inr hsome =>
      obtain ⟨c, hc⟩ := Option.isSome_iff_exists.mp hsome
      exact s.loop.lt_of_entry hc

theorem channelEventActivate_ne_error_iff (hinv : s.Inv Ok Watched Awaited) {fd : Nat} (revents : BitVec 32)
    (hfd : s.loop.entry fd ≠ none ∨ s.removed fd = true)
    : (∀ e, channelEventActivate s.channels s.loop fd revents ≠ .error e) ↔ s.removed fd = false := by
  unfold channelEventActivate
  rw [if_neg (by omega), Int.toNat_natCast]
  cases hremoved : s.removed fd with
  | false =>
    rw [hremoved] at hfd
    obtain ⟨c, hc⟩ := Option.ne_none_iff_exists'.mp (hfd.resolve_right (by simp))
    have hget : s.loop.channelMap[fd]? = some (some c) := Option.join_eq_some_iff.mp hc
    rw [hget]
    simp [hinv.sound.registered fd c hc]
  | true =>
    obtain ⟨hlt, hnone⟩ := hinv.removed fd hremoved
    rw [s.loop.getElem?_of_entry_eq_none hlt hnone]
    simp

theorem Inv.activated (hD : Lawful D Ok Watched Awaited) (hinv : s.Inv Ok Watched Awaited) {round rest : ρ} {fd : Int}
    {revents : BitVec 32} (hawaited : ∀ fd, Awaited round fd → s.loop.entry fd ≠ none ∨ s.removed fd = true)
    (h : (D.advance s.loop.eventDispatcherData round).snd = some (fd, revents, rest))
    : ∃ n : Nat, fd = n ∧ (s.loop.entry n ≠ none ∨ s.removed n = true)
      ∧ ∀ n', Awaited rest n' → s.loop.entry n' ≠ none ∨ s.removed n' = true := by
  obtain ⟨n, hfd, hn, hrest⟩ := hD.activated h
  have hn : s.loop.entry n ≠ none ∨ s.removed n = true := by
    cases hn with
    | inl hn => exact hawaited n hn
    | inr hn => exact .inl (hinv.sound.watched n hn)
  refine ⟨n, hfd, hn, ?_⟩
  intro n' hn'
  cases hrest n' hn' with
  | inl heq => exact heq ▸ hn
  | inr hn' => exact hawaited n' hn'

theorem Inv.goOn (hD : Lawful D Ok Watched Awaited) (hinv : s.Inv Ok Watched Awaited) {round : ρ}
    (hawaited : ∀ fd, Awaited round fd → s.loop.entry fd ≠ none ∨ s.removed fd = true)
    (h : goOn D s round = .ok (some s'))
    : s'.Inv Ok Watched Awaited := by
  obtain ⟨hok, hwatched⟩ := hD.advance round hinv.sound.ok
  have hdata := hinv.sound.setData hok hwatched
  unfold Dispatching.goOn at h
  cases hadvance : D.advance s.loop.eventDispatcherData round with
  | mk data activation =>
    rw [hadvance] at h hdata
    cases activation with
    | none =>
      cases h
      exact ⟨hdata, by simp, hinv.removed⟩
    | some activation =>
      obtain ⟨fd, revents, rest⟩ := activation
      obtain ⟨n, _, _, hrest⟩ := hinv.activated hD hawaited (congrArg Prod.snd hadvance)
      dsimp only at h
      split at h
      . simp at h
      . cases h
        refine ⟨hdata, ?_, hinv.removed⟩
        intro round' hround' fd' hfd'
        cases hround'
        exact hrest fd' hfd'

theorem goOn_ne_error_iff (hD : Lawful D Ok Watched Awaited) (hinv : s.Inv Ok Watched Awaited) {round : ρ}
    (hawaited : ∀ fd, Awaited round fd → s.loop.entry fd ≠ none ∨ s.removed fd = true)
    : (∀ e, goOn D s round ≠ .error e)
      ↔ ∀ fd ∈ (D.advance s.loop.eventDispatcherData round).snd.map Prod.fst, s.removed fd.toNat = false := by
  unfold Dispatching.goOn
  cases hadvance : D.advance s.loop.eventDispatcherData round with
  | mk data activation =>
    cases activation with
    | none => simp
    | some activation =>
      obtain ⟨fd, revents, rest⟩ := activation
      obtain ⟨n, rfl, hn, _⟩ := hinv.activated hD hawaited (congrArg Prod.snd hadvance)
      have hiff := channelEventActivate_ne_error_iff hinv revents hn
      dsimp only
      cases hactivate : channelEventActivate s.channels s.loop n revents with
      | error e =>
        rw [hactivate] at hiff
        simpa using hiff
      | ok called =>
        rw [hactivate] at hiff
        simpa using hiff

theorem Inv.forget (hinv : s.Inv Ok Watched Awaited) (hround : s.round = none)
    : Inv Ok Watched Awaited { s with removed := fun _ => false } := by
  constructor
  . exact hinv.sound
  . intro round hsome
    rw [hround] at hsome
    simp at hsome
  . simp

theorem Inv.step (hD : Lawful D Ok Watched Awaited) (hinv : s.Inv Ok Watched Awaited) {a : DispatchAct ε α}
    (h : step D s a = .ok (some s'))
    : s'.Inv Ok Watched Awaited := by
  cases a with
  | handle environment memory type c =>
    unfold Dispatching.step at h
    dsimp only at h
    split at h
    . simp at h
    . simp at h
    . next loop hloop =>
      cases h
      obtain ⟨heffect, hlength⟩ := ChannelLoop.effect_of_handlePending hloop
      exact hinv.setLoop (hinv.sound.effect hD heffect) hlength
  | dispatch answer =>
    unfold Dispatching.step at h
    dsimp only at h
    split at h
    . next round hround hwait =>
      apply (hinv.forget hround).goOn hD _ h
      intro fd hfd
      exact .inl (hinv.sound.watched fd (hD.wait hwait fd hfd))
    . simp at h
  | callbackReturns =>
    unfold Dispatching.step at h
    dsimp only at h
    split at h
    . simp at h
    . next round hround => exact hinv.goOn hD (hinv.awaited round hround) h
  | close fd =>
    cases h
    obtain ⟨hok, hwatched⟩ := hD.close fd hinv.sound.ok
    exact ⟨hinv.sound.setData hok hwatched, hinv.awaited, hinv.removed⟩
  | setEvents c events =>
    cases h
    refine ⟨hinv.sound.setChannels ?_, hinv.awaited, hinv.removed⟩
    intro _ c' _
    dsimp only
    by_cases hc : c' = c
    . subst hc
      rw [Function.update_self]
    . rw [Function.update_of_ne hc]

theorem step_ne_error_iff (hD : Lawful D Ok Watched Awaited) (hinv : s.Inv Ok Watched Awaited) (a : DispatchAct ε α)
    : (∀ e, step D s a ≠ .error e) ↔ s.Fits D a := by
  cases a with
  | handle environment memory type c =>
    have hiff : (∀ e, s.loop.handlePending (D.functions environment) memory s.channels type c ≠ .error e)
        ↔ s.Fits D (.handle environment memory type c) :=
      ChannelLoop.handlePending_ne_error_iff
    rw [← hiff]
    unfold Dispatching.step
    dsimp only
    split <;> simp_all
  | dispatch answer =>
    unfold Dispatching.step Fits
    dsimp only
    split
    . next round hround hwait =>
      rw [goOn_ne_error_iff hD (hinv.forget hround)]
      . simp
      . intro fd hfd
        exact .inl (hinv.sound.watched fd (hD.wait hwait fd hfd))
    . simp
  | callbackReturns =>
    unfold Dispatching.step Fits upcoming
    dsimp only
    split
    . simp
    . next round hround => exact goOn_ne_error_iff hD hinv (hinv.awaited round hround)
  | close fd => simp [Dispatching.step, Fits]
  | setEvents c events => simp [Dispatching.step, Fits]

theorem Lawful.inv_of_reaches (hD : Lawful D Ok Watched Awaited) {channels : ChannelPtr → Channel}
    (h : Run.Reaches (next D) (Fits D) (Dispatching.init D channels) s)
    : s.Inv Ok Watched Awaited := by
  apply h.invariant (Dispatching.Inv Ok Watched Awaited) (init_inv hD channels)
  intro s s' a hinv _ hnext
  unfold next at hnext
  split at hnext
  . simp at hnext
  . next hstep => exact hinv.step hD (hnext ▸ hstep)

end Invariant

end Dispatching
end NetWork
