import ByDoing.NetWork.DispatchRounds

/-!
This module contains the channels that the library creates, in `event_loop_init_with_name`, `tcp_server_start` and
`tcp_connection_new`, and the event loops that these functions add them to. `channel_write_event_enable` and
`channel_write_event_disable` take the `data` of a channel for its event loop. A call from the thread of the loop is
followed by a drain of that thread, and before it the other threads may take any steps.
-/

namespace NetWork

/--
What the `data` of a channel points to, with the number of the `eventLoop` that it has or is.
-/
inductive CallbackObject where
  | eventLoop (l : Nat)
  | tcpServer (l : Nat)
  | tcpConnection (l : Nat)
  deriving Repr, DecidableEq

namespace CallbackObject

def loop : CallbackObject → Nat
  | .eventLoop l => l
  | .tcpServer l => l
  | .tcpConnection l => l

def kind : CallbackObject → CallbackData
  | .eventLoop _ => .eventLoop
  | .tcpServer _ => .tcpServer
  | .tcpConnection _ => .tcpConnection

end CallbackObject

structure CreatedChannel where
  fd : Int
  events : BitVec 32
  data : CallbackObject
  deriving Repr, DecidableEq

def CreatedChannel.channel (c : CreatedChannel) : Channel :=
  { fd := c.fd, events := c.events, data := c.data.kind }

inductive WriteCall where
  | enable
  | disable
  deriving Repr, DecidableEq

def WriteCall.apply (call : WriteCall) (c : Channel) : Channel × CallbackData :=
  match call with
  | .enable => c.channelWriteEventEnable
  | .disable => c.channelWriteEventDisable

structure LibraryLoop (δ : Type) where
  loop : ChannelLoop δ
  pending : List (ElementType × ChannelPtr)

structure Library (δ : Type) where
  loopCount : Nat
  loops : Nat → LibraryLoop δ
  created : List CreatedChannel

inductive LibraryAct (ε : Type) where
  | eventLoopInitWithName (fd : Nat) (environment : ε) (memory : MapMemory)
  | tcpServerStart (l : Nat) (fd : Int)
  | tcpConnectionNew (l : Nat) (fd : Int)
  | handleConnectionClosed (c : ChannelPtr)
  | channelWriteEvent (call : WriteCall) (c : ChannelPtr)
  | eventLoopHandlePendingChannel (l : Nat) (environment : ε) (memory : MapMemory)
  | close (fd : Nat)

namespace Library

variable {ε δ ρ α : Type}

def init (D : Dispatcher ε δ ρ α) : Library δ :=
  {
    loopCount := 0
    loops := fun _ => { loop := { channelMap := [], eventDispatcherData := D.init }, pending := [] }
    created := []
  }

def channels (s : Library δ) (c : ChannelPtr) : Channel :=
  match s.created[c]? with
  | none => { fd := -1, events := 0, data := .tcpConnection }
  | some created => created.channel

-- The descriptors `socketPair[1]` of the loops, which stay open.
def wakeups (s : Library δ) : List Int :=
  s.created.filterMap fun c =>
    match c.data with
    | .eventLoop _ => some c.fd
    | _ => none

def create (s : Library δ) (fd : Int) (data : CallbackObject) : Library δ :=
  { s with created := s.created ++ [{ fd, events := EVENT_READ, data }] }

def setLoop (s : Library δ) (l : Nat) (loop : LibraryLoop δ) : Library δ :=
  { s with loops := Function.update s.loops l loop }

def eventLoopChannelBufferNolock (s : Library δ) (l : Nat) (type : ElementType) (c : ChannelPtr) : Library δ :=
  s.setLoop l { s.loops l with pending := (s.loops l).pending ++ [(type, c)] }

def handle (dispatcher : EventDispatcher δ) (memory : MapMemory) (channels : ChannelPtr → Channel)
    (loop : ChannelLoop δ) (p : ElementType × ChannelPtr)
    : Option (ChannelLoop δ) :=
  loop.next dispatcher memory channels p.fst p.snd

def eventLoopHandlePendingChannel (D : Dispatcher ε δ ρ α) (s : Library δ) (l : Nat) (environment : ε)
    (memory : MapMemory)
    : Option (Library δ) :=
  match Run.exec (handle (D.functions environment) memory s.channels) (s.loops l).loop (s.loops l).pending with
  | none => none
  | some loop => some (s.setLoop l { loop, pending := [] })

def step (D : Dispatcher ε δ ρ α) (s : Library δ) : LibraryAct ε → Option (Library δ)
  | .eventLoopInitWithName fd environment memory =>
    if (fd : Int) ∈ s.wakeups then
      none
    else
      let l := s.loopCount
      let c := s.created.length
      let s := { s.create fd (.eventLoop l) with loopCount := l + 1 }
      let s := s.setLoop l { loop := { channelMap := [], eventDispatcherData := D.init }, pending := [(.add, c)] }
      s.eventLoopHandlePendingChannel D l environment memory
  | .tcpServerStart l fd =>
    if l < s.loopCount ∧ fd ∉ s.wakeups then
      some ((s.create fd (.tcpServer l)).eventLoopChannelBufferNolock l .add s.created.length)
    else
      none
  | .tcpConnectionNew l fd =>
    if l < s.loopCount ∧ fd ∉ s.wakeups then
      some ((s.create fd (.tcpConnection l)).eventLoopChannelBufferNolock l .add s.created.length)
    else
      none
  | .handleConnectionClosed c =>
    match s.created[c]? with
    | some { data := .tcpConnection l, .. } => some (s.eventLoopChannelBufferNolock l .remove c)
    | _ => none
  | .channelWriteEvent call c =>
    match s.created[c]? with
    | none => none
    | some created =>
      let s := { s with created := s.created.set c { created with events := (call.apply created.channel).fst.events } }
      match created.data with
      | .eventLoop l => some (s.eventLoopChannelBufferNolock l .update c)
      -- There is no event loop to lock and to append to.
      | _ => none
  | .eventLoopHandlePendingChannel l environment memory => s.eventLoopHandlePendingChannel D l environment memory
  | .close fd =>
    if (fd : Int) ∈ s.wakeups then
      none
    else
      some { s with
        loops := fun l =>
          { s.loops l with
            loop := { (s.loops l).loop with
              eventDispatcherData := D.close (s.loops l).loop.eventDispatcherData fd
            }
          }
      }

/--
`mask` says whether a descriptor is watched, and whether for writing.
-/
structure Masked (D : Dispatcher ε δ ρ α) (Ok : δ → Prop) (mask : δ → Nat → Option Bool) : Prop where
  add_init : ∀ {environment c data}, 0 ≤ c.fd → (D.functions environment).add D.init c = some data
    → mask data c.fd.toNat = some c.channelWriteEventIsEnabled
  add : ∀ {environment c data data'}, 0 ≤ c.fd → (D.functions environment).add data c = some data'
    → ∀ fd, fd ≠ c.fd.toNat → mask data' fd = mask data fd
  del : ∀ {environment c data data'}, 0 ≤ c.fd → (D.functions environment).del data c = some data'
    → ∀ fd, fd ≠ c.fd.toNat → mask data' fd = mask data fd
  update : ∀ {environment c data data'}, 0 ≤ c.fd → (D.functions environment).update data c = some data'
    → ∀ fd, fd ≠ c.fd.toNat → mask data' fd = mask data fd
  update_self : ∀ {environment c data data'}, Ok data → 0 ≤ c.fd → mask data c.fd.toNat ≠ none
    → (D.functions environment).update data c = some data'
    → mask data' c.fd.toNat = some c.channelWriteEventIsEnabled
  close : ∀ data fd fd', fd' ≠ fd → mask (D.close data fd) fd' = mask data fd'

section Handle

open Dispatching

variable {D : Dispatcher ε δ ρ α} {Ok : δ → Prop} {Watched : δ → Nat → Prop} {Awaited : ρ → Nat → Prop}
  {mask : δ → Nat → Option Bool} {environment : ε} {memory : MapMemory} {channels : ChannelPtr → Channel}
  {loop loop' : ChannelLoop δ} {p : ElementType × ChannelPtr}

theorem handle_of_ne (hM : Masked D Ok mask) (hsound : Sound Ok Watched channels loop) {fd : Nat}
    (hne : (channels p.snd).fd ≠ fd)
    (h : handle (D.functions environment) memory channels loop p = some loop')
    : loop'.entry fd = loop.entry fd ∧ mask loop'.eventDispatcherData fd = mask loop.eventDispatcherData fd := by
  obtain ⟨type, c⟩ := p
  unfold handle at h
  dsimp only at h hne
  cases ChannelLoop.Effect.of_next h with
  | nothing hdata hentry =>
    rw [hdata, hentry]
    exact ⟨rfl, rfl⟩
  | add hnonneg _ hcall hentry =>
    have hne : fd ≠ (channels c).fd.toNat := by omega
    rw [hentry, Function.update_of_ne hne]
    exact ⟨rfl, hM.add hnonneg hcall fd hne⟩
  | del c₂ hnonneg hc₂ hcall hentry =>
    have hfd₂ := hsound.registered _ _ hc₂
    have hne : fd ≠ (channels c).fd.toNat := by omega
    rw [hentry, Function.update_of_ne hne]
    exact ⟨rfl, hM.del (by omega) hcall fd (by omega)⟩
  | update hnonneg hcall hentry =>
    rw [hentry]
    exact ⟨rfl, hM.update hnonneg hcall fd (by omega)⟩

theorem handle_update_self (hM : Masked D Ok mask) (hsound : Sound Ok Watched channels loop) {fd : Nat}
    {w : ChannelPtr} (hfd : (channels w).fd = fd) (hentry : loop.entry fd = some w)
    (hmask : mask loop.eventDispatcherData fd ≠ none)
    (h : handle (D.functions environment) memory channels loop (.update, w) = some loop')
    : loop'.entry fd = some w
      ∧ mask loop'.eventDispatcherData fd = some (channels w).channelWriteEventIsEnabled := by
  have htoNat : (channels w).fd.toNat = fd := by omega
  have hupdate := @ChannelLoop.handlePendingUpdate_of_entry _ (D.functions environment) channels loop w w
    (by omega) (htoNat ▸ hentry)
  have h := ChannelLoop.next_eq_some_iff.mp h
  unfold ChannelLoop.handlePending at h
  dsimp only at h
  obtain ⟨_, hnone⟩ | ⟨loop'', hsome, hcall, hentry', _⟩ := hupdate
  . rw [hnone] at h
    simp at h
  . rw [hsome, Except.ok.injEq, Option.some.injEq] at h
    subst h
    refine ⟨hentry' ▸ hentry, ?_⟩
    rw [← htoNat] at hmask ⊢
    exact hM.update_self hsound.ok (by omega) hmask hcall

theorem sound_of_exec (hD : Lawful D Ok Watched Awaited) {ps : List (ElementType × ChannelPtr)}
    (hsound : Sound Ok Watched channels loop)
    (h : Run.exec (handle (D.functions environment) memory channels) loop ps = some loop')
    : Sound Ok Watched channels loop' := by
  induction ps generalizing loop with
  | nil =>
    cases h
    exact hsound
  | cons p ps ih =>
    unfold Run.exec at h
    split at h
    . next loop₁ hp => exact ih (hsound.effect hD (.of_next hp)) h
    . simp at h

theorem entry_of_exec {ps : List (ElementType × ChannelPtr)} {fd : Nat} {c : ChannelPtr}
    (h : Run.exec (handle (D.functions environment) memory channels) loop ps = some loop')
    (hentry : loop'.entry fd = some c)
    : loop.entry fd = some c ∨ (.add, c) ∈ ps := by
  induction ps generalizing loop with
  | nil =>
    cases h
    exact .inl hentry
  | cons p ps ih =>
    unfold Run.exec at h
    split at h
    . next loop₁ hp =>
      cases ih h with
      | inr hmem => exact .inr (List.mem_cons_of_mem p hmem)
      | inl hentry₁ =>
        obtain ⟨type, c'⟩ := p
        cases ChannelLoop.Effect.of_next hp with
        | nothing _ heq | update _ _ heq =>
          rw [heq] at hentry₁
          exact .inl hentry₁
        | add _ _ _ heq =>
          by_cases hfd : fd = (channels c').fd.toNat
          . rw [heq, hfd, Function.update_self, Option.some.injEq] at hentry₁
            subst hentry₁
            exact .inr List.mem_cons_self
          . rw [heq, Function.update_of_ne hfd] at hentry₁
            exact .inl hentry₁
        | del _ _ _ _ heq =>
          by_cases hfd : fd = (channels c').fd.toNat
          . rw [heq, hfd, Function.update_self] at hentry₁
            simp at hentry₁
          . rw [heq, Function.update_of_ne hfd] at hentry₁
            exact .inl hentry₁
    . simp at h

theorem exec_wakeup (hD : Lawful D Ok Watched Awaited) (hM : Masked D Ok mask) {ps : List (ElementType × ChannelPtr)}
    {fd : Nat} {w : ChannelPtr} (hsound : Sound Ok Watched channels loop) (hfd : (channels w).fd = fd)
    (hps : ∀ p ∈ ps, p = (.update, w) ∨ (channels p.snd).fd ≠ fd)
    (hentry : loop.entry fd = some w) (hmask : mask loop.eventDispatcherData fd ≠ none)
    (h : Run.exec (handle (D.functions environment) memory channels) loop ps = some loop')
    : loop'.entry fd = some w ∧ mask loop'.eventDispatcherData fd ≠ none
      ∧ ((.update, w) ∈ ps ∨ mask loop.eventDispatcherData fd = some (channels w).channelWriteEventIsEnabled
        → mask loop'.eventDispatcherData fd = some (channels w).channelWriteEventIsEnabled) := by
  induction ps generalizing loop with
  | nil =>
    cases h
    exact ⟨hentry, hmask, by simp⟩
  | cons p ps ih =>
    unfold Run.exec at h
    split at h
    . next loop₁ hp =>
      have hsound₁ := hsound.effect hD (.of_next hp)
      have hps' : ∀ q ∈ ps, q = (.update, w) ∨ (channels q.snd).fd ≠ fd := by
        intro q hq
        exact hps q (List.mem_cons_of_mem p hq)
      cases hps p List.mem_cons_self with
      | inl heq =>
        subst heq
        obtain ⟨hentry₁, hmask₁⟩ := handle_update_self hM hsound hfd hentry hmask hp
        obtain ⟨hentry', hmask', henabled⟩ := ih hsound₁ hps' hentry₁ (by simp [hmask₁]) h
        exact ⟨hentry', hmask', fun _ => henabled (.inr hmask₁)⟩
      | inr hne =>
        obtain ⟨hentry₁, hmask₁⟩ := handle_of_ne hM hsound hne hp
        rw [← hentry₁] at hentry
        rw [← hmask₁] at hmask
        obtain ⟨hentry', hmask', henabled⟩ := ih hsound₁ hps' hentry hmask h
        refine ⟨hentry', hmask', ?_⟩
        intro hor
        apply henabled
        cases hor with
        | inl hmem =>
          have hneq : p ≠ (.update, w) := by
            intro heq
            rw [heq] at hne
            exact hne hfd
          exact .inl ((List.mem_cons.mp hmem).resolve_left (Ne.symm hneq))
        | inr hbefore =>
          rw [hmask₁]
          exact .inr hbefore
    . simp at h

end Handle

structure LoopInv (Ok : δ → Prop) (Watched : δ → Nat → Prop) (mask : δ → Nat → Option Bool) (s : Library δ) (l : Nat)
    (loop : LibraryLoop δ)
    : Prop where
  sound : Dispatching.Sound Ok Watched s.channels loop.loop
  entered : ∀ fd c, loop.loop.entry fd = some c → ∃ created, s.created[c]? = some created ∧ created.data.loop = l
  pending : ∀ p ∈ loop.pending, ∃ created, s.created[p.snd]? = some created ∧ created.data.loop = l
    ∧ (created.data = .eventLoop l → p.fst = .update)
  watched : ∀ (w : ChannelPtr) (wakeup : CreatedChannel), s.created[w]? = some wakeup → wakeup.data = .eventLoop l
    → loop.loop.entry wakeup.fd.toNat = some w
    → mask loop.loop.eventDispatcherData wakeup.fd.toNat ≠ none
      ∧ ((.update, w) ∉ loop.pending
        → mask loop.loop.eventDispatcherData wakeup.fd.toNat = some wakeup.channel.channelWriteEventIsEnabled)

structure Inv (Ok : δ → Prop) (Watched : δ → Nat → Prop) (mask : δ → Nat → Option Bool) (s : Library δ) : Prop where
  inside : ∀ (c : ChannelPtr) (created : CreatedChannel), s.created[c]? = some created → created.data.loop < s.loopCount
  nonneg : ∀ (w : ChannelPtr) (wakeup : CreatedChannel) (l : Nat), s.created[w]? = some wakeup
    → wakeup.data = .eventLoop l → 0 ≤ wakeup.fd
  alone : ∀ (w : ChannelPtr) (wakeup : CreatedChannel) (l : Nat), s.created[w]? = some wakeup
    → wakeup.data = .eventLoop l → ∀ (c : ChannelPtr) (created : CreatedChannel), s.created[c]? = some created → created.data.loop = l
      → created.fd = wakeup.fd → c = w
  loops : ∀ l, LoopInv Ok Watched mask s l (s.loops l)

section Invariant

open Dispatching

variable {D : Dispatcher ε δ ρ α} {Ok : δ → Prop} {Watched : δ → Nat → Prop} {Awaited : ρ → Nat → Prop}
  {mask : δ → Nat → Option Bool} {s s' : Library δ} {l : Nat} {loop : LibraryLoop δ} {c : ChannelPtr}
  {created : CreatedChannel}

theorem channels_of_created (h : s.created[c]? = some created) : s.channels c = created.channel := by
  unfold channels
  rw [h]

theorem created_create {fd : Int} {data : CallbackObject} (h : (s.create fd data).created[c]? = some created)
    : s.created[c]? = some created ∨ (c = s.created.length ∧ created = { fd, events := EVENT_READ, data }) := by
  unfold create at h
  dsimp only at h
  by_cases hlt : c < s.created.length
  . rw [List.getElem?_append_left hlt] at h
    exact .inl h
  . have hlen := (List.getElem?_eq_some_iff.mp h).fst
    rw [List.length_append, List.length_singleton] at hlen
    have hc : c = s.created.length := Nat.le_antisymm (Nat.le_of_lt_succ hlen) (Nat.le_of_not_lt hlt)
    rw [hc, List.getElem?_concat_length, Option.some.injEq] at h
    exact .inr ⟨hc, h.symm⟩

theorem created_new (s : Library δ) (fd : Int) (data : CallbackObject)
    : (s.create fd data).created[s.created.length]? = some { fd, events := EVENT_READ, data } := by
  unfold create
  exact List.getElem?_concat_length

theorem created_of_created {fd : Int} {data : CallbackObject} (h : s.created[c]? = some created)
    : (s.create fd data).created[c]? = some created := by
  unfold create
  dsimp only
  rw [List.getElem?_append_left (List.getElem?_eq_some_iff.mp h).fst]
  exact h

theorem mem_wakeups (h : s.created[c]? = some created) (hdata : created.data = .eventLoop l)
    : created.fd ∈ s.wakeups := by
  unfold wakeups
  rw [List.mem_filterMap]
  refine ⟨created, List.mem_of_getElem? h, ?_⟩
  rw [hdata]

theorem LoopInv.of_created_eq (h : LoopInv Ok Watched mask s l loop) (heq : s'.created = s.created)
    : LoopInv Ok Watched mask s' l loop := by
  have hchannels : s'.channels = s.channels := by
    unfold channels
    rw [heq]
  constructor
  . rw [hchannels]
    exact h.sound
  . rw [heq]
    exact h.entered
  . rw [heq]
    exact h.pending
  . rw [heq]
    exact h.watched

theorem init_inv (hD : Lawful D Ok Watched Awaited) : (init D).Inv Ok Watched mask := by
  constructor
  . simp [init]
  . simp [init]
  . simp [init]
  . intro l
    constructor
    . exact Sound.init hD _
    . intro fd c hentry
      simp [init, ChannelLoop.entry] at hentry
    . simp [init]
    . simp [init]

theorem Inv.setLoop (hinv : s.Inv Ok Watched mask) (hloop : LoopInv Ok Watched mask s l loop)
    : (s.setLoop l loop).Inv Ok Watched mask := by
  constructor
  . exact hinv.inside
  . exact hinv.nonneg
  . exact hinv.alone
  . intro l'
    unfold Library.setLoop
    dsimp only
    by_cases heq : l' = l
    . subst heq
      rw [Function.update_self]
      exact hloop.of_created_eq rfl
    . rw [Function.update_of_ne heq]
      exact (hinv.loops l').of_created_eq rfl

theorem LoopInv.create (h : LoopInv Ok Watched mask s l loop) (fd : Int) (data : CallbackObject)
    : LoopInv Ok Watched mask (s.create fd data) l loop := by
  constructor
  . apply h.sound.setChannels
    intro fd' c hentry
    obtain ⟨created, hcreated, _⟩ := h.entered fd' c hentry
    rw [channels_of_created hcreated, channels_of_created (created_of_created hcreated)]
  . intro fd' c hentry
    obtain ⟨created, hcreated, hl⟩ := h.entered fd' c hentry
    exact ⟨created, created_of_created hcreated, hl⟩
  . intro p hp
    obtain ⟨created, hcreated, hrest⟩ := h.pending p hp
    exact ⟨created, created_of_created hcreated, hrest⟩
  . intro w wakeup hw hdata hentry
    cases created_create hw with
    | inl hw => exact h.watched w wakeup hw hdata hentry
    | inr hnew =>
      -- A channel that is new has no entry yet.
      obtain ⟨created, hcreated, _⟩ := h.entered _ _ hentry
      have hlt := (List.getElem?_eq_some_iff.mp hcreated).fst
      exact absurd hnew.left (Nat.ne_of_lt hlt)

theorem LoopInv.enqueue (h : LoopInv Ok Watched mask s l loop) {type : ElementType}
    (hcreated : s.created[c]? = some created) (hl : created.data.loop = l)
    (htype : created.data = .eventLoop l → type = .update)
    : LoopInv Ok Watched mask s l { loop with pending := loop.pending ++ [(type, c)] } := by
  constructor
  . exact h.sound
  . exact h.entered
  . intro p hp
    cases List.mem_append.mp hp with
    | inl hp => exact h.pending p hp
    | inr hp =>
      rw [List.mem_singleton] at hp
      subst hp
      exact ⟨created, hcreated, hl, htype⟩
  . intro w wakeup hw hdata hentry
    obtain ⟨hmask, henabled⟩ := h.watched w wakeup hw hdata hentry
    refine ⟨hmask, ?_⟩
    intro hnot
    apply henabled
    intro hmem
    exact hnot (List.mem_append_left _ hmem)

theorem Inv.enqueue (hinv : s.Inv Ok Watched mask) {type : ElementType} (hcreated : s.created[c]? = some created)
    (htype : ∀ l, created.data = .eventLoop l → type = .update)
    : (s.eventLoopChannelBufferNolock created.data.loop type c).Inv Ok Watched mask := by
  apply hinv.setLoop
  apply (hinv.loops created.data.loop).enqueue hcreated rfl
  exact htype created.data.loop

theorem Inv.create (hinv : s.Inv Ok Watched mask) {fd : Int} {data : CallbackObject} (hl : data.loop < s.loopCount)
    (hfd : fd ∉ s.wakeups) (hdata : ∀ l, data ≠ .eventLoop l)
    : (s.create fd data).Inv Ok Watched mask := by
  constructor
  . intro c created hcreated
    cases created_create hcreated with
    | inl hold => exact hinv.inside c created hold
    | inr hnew => exact hnew.right ▸ hl
  . intro w wakeup l hw hloop
    cases created_create hw with
    | inl hold => exact hinv.nonneg w wakeup l hold hloop
    | inr hnew =>
      rw [hnew.right] at hloop
      exact absurd hloop (hdata l)
  . intro w wakeup l hw hloop c created hcreated hl' heq
    cases created_create hw with
    | inr hnew =>
      rw [hnew.right] at hloop
      exact absurd hloop (hdata l)
    | inl hold =>
      cases created_create hcreated with
      | inl hold' => exact hinv.alone w wakeup l hold hloop c created hold' hl' heq
      | inr hnew =>
        rw [hnew.right] at heq
        have hmem := mem_wakeups hold hloop
        rw [← heq] at hmem
        exact absurd hmem hfd
  . intro l
    exact (hinv.loops l).create fd data

theorem Inv.createAndAdd (hinv : s.Inv Ok Watched mask) {fd : Int} {data : CallbackObject}
    (hl : data.loop < s.loopCount) (hfd : fd ∉ s.wakeups) (hdata : ∀ l, data ≠ .eventLoop l)
    : ((s.create fd data).eventLoopChannelBufferNolock data.loop .add s.created.length).Inv Ok Watched mask := by
  apply (hinv.create hl hfd hdata).enqueue (s.created_new fd data)
  intro l hloop
  exact absurd hloop (hdata l)

theorem Inv.pending_wakeup (hinv : s.Inv Ok Watched mask) {w : ChannelPtr} {wakeup : CreatedChannel}
    (hw : s.created[w]? = some wakeup) (hdata : wakeup.data = .eventLoop l)
    : ∀ p ∈ (s.loops l).pending, p = (.update, w) ∨ (s.channels p.snd).fd ≠ (wakeup.fd.toNat : Int) := by
  intro p hp
  obtain ⟨created, hcreated, hloop, htype⟩ := (hinv.loops l).pending p hp
  by_cases heq : p.snd = w
  . left
    rw [heq, hw, Option.some.injEq] at hcreated
    subst hcreated
    exact Prod.ext (htype hdata) heq
  . right
    intro hfd
    rw [channels_of_created hcreated, Int.toNat_of_nonneg (hinv.nonneg w wakeup l hw hdata)] at hfd
    exact heq (hinv.alone w wakeup l hw hdata p.snd created hcreated hloop hfd)

theorem Inv.exec (hD : Lawful D Ok Watched Awaited) (hM : Masked D Ok mask) (hinv : s.Inv Ok Watched mask)
    {environment : ε} {memory : MapMemory} {loop : ChannelLoop δ} {w : ChannelPtr} {wakeup : CreatedChannel}
    (hw : s.created[w]? = some wakeup) (hdata : wakeup.data = .eventLoop l)
    (hentry : (s.loops l).loop.entry wakeup.fd.toNat = some w)
    (h : Run.exec (handle (D.functions environment) memory s.channels) (s.loops l).loop (s.loops l).pending = some loop)
    : loop.entry wakeup.fd.toNat = some w
      ∧ mask loop.eventDispatcherData wakeup.fd.toNat = some wakeup.channel.channelWriteEventIsEnabled := by
  have hl := hinv.loops l
  have hfd : (s.channels w).fd = (wakeup.fd.toNat : Int) := by
    rw [channels_of_created hw, Int.toNat_of_nonneg (hinv.nonneg w wakeup l hw hdata)]
    rfl
  obtain ⟨hmask, henabled⟩ := hl.watched w wakeup hw hdata hentry
  obtain ⟨hentry', _, henabled'⟩ := exec_wakeup hD hM hl.sound hfd (hinv.pending_wakeup hw hdata) hentry hmask h
  rw [channels_of_created hw] at henabled'
  refine ⟨hentry', henabled' ?_⟩
  by_cases hmem : (.update, w) ∈ (s.loops l).pending
  . exact .inl hmem
  . exact .inr (henabled hmem)

theorem Inv.drain (hD : Lawful D Ok Watched Awaited) (hM : Masked D Ok mask) (hinv : s.Inv Ok Watched mask)
    {environment : ε} {memory : MapMemory}
    (h : s.eventLoopHandlePendingChannel D l environment memory = some s')
    : s'.Inv Ok Watched mask := by
  unfold eventLoopHandlePendingChannel at h
  split at h
  . simp at h
  . next loop hexec =>
    cases h
    have hl := hinv.loops l
    apply hinv.setLoop
    constructor
    . exact sound_of_exec hD hl.sound hexec
    . intro fd c hentry
      cases entry_of_exec hexec hentry with
      | inl hentry => exact hl.entered fd c hentry
      | inr hmem =>
        obtain ⟨created, hcreated, hloop, _⟩ := hl.pending _ hmem
        exact ⟨created, hcreated, hloop⟩
    . simp
    . intro w wakeup hw hdata hentry
      have hbefore : (s.loops l).loop.entry wakeup.fd.toNat = some w := by
        cases entry_of_exec hexec hentry with
        | inl hbefore => exact hbefore
        | inr hmem =>
          obtain ⟨created, hcreated, _, htype⟩ := hl.pending _ hmem
          rw [hw, Option.some.injEq] at hcreated
          subst hcreated
          have htype := htype hdata
          simp at htype
      obtain ⟨_, hmask⟩ := hinv.exec hD hM hw hdata hbefore hexec
      refine ⟨?_, fun _ => hmask⟩
      rw [hmask]
      simp

theorem created_setEvents {events : BitVec 32} {c' : ChannelPtr} {created' : CreatedChannel}
    (hcreated : s.created[c]? = some created)
    (h : (s.created.set c { created with events })[c']? = some created')
    : ∃ old, s.created[c']? = some old ∧ created'.fd = old.fd ∧ created'.data = old.data
      ∧ (c' ≠ c → created' = old) := by
  by_cases hc : c = c'
  . subst hc
    rw [List.getElem?_set_self (List.getElem?_eq_some_iff.mp hcreated).fst, Option.some.injEq] at h
    subst h
    exact ⟨created, hcreated, rfl, rfl, by simp⟩
  . rw [List.getElem?_set_ne hc] at h
    exact ⟨created', h, rfl, rfl, fun _ => rfl⟩

theorem exists_setEvents {events : BitVec 32} {c' : ChannelPtr} {old : CreatedChannel}
    (hcreated : s.created[c]? = some created) (h : s.created[c']? = some old)
    : ∃ created', (s.created.set c { created with events })[c']? = some created' ∧ created'.fd = old.fd
      ∧ created'.data = old.data := by
  by_cases hc : c = c'
  . subst hc
    rw [hcreated, Option.some.injEq] at h
    subst h
    exact ⟨_, List.getElem?_set_self (List.getElem?_eq_some_iff.mp hcreated).fst, rfl, rfl⟩
  . exact ⟨old, (List.getElem?_set_ne hc).trans h, rfl, rfl⟩

theorem Inv.setEvents (hinv : s.Inv Ok Watched mask) (hcreated : s.created[c]? = some created)
    (hpending : ∀ l, created.data = .eventLoop l → (.update, c) ∈ (s.loops l).pending) (events : BitVec 32)
    : Inv Ok Watched mask { s with created := s.created.set c { created with events } } := by
  constructor
  . intro c' created' hc'
    obtain ⟨old, hold, _, hdata, _⟩ := created_setEvents hcreated hc'
    rw [hdata]
    exact hinv.inside c' old hold
  . intro w wakeup l hw hl
    obtain ⟨old, hold, hfd, hdata, _⟩ := created_setEvents hcreated hw
    rw [hfd]
    exact hinv.nonneg w old l hold (hdata ▸ hl)
  . intro w wakeup l hw hl c' created' hc' hl' heq
    obtain ⟨old, hold, hfd, hdata, _⟩ := created_setEvents hcreated hw
    obtain ⟨old', hold', hfd', hdata', _⟩ := created_setEvents hcreated hc'
    exact hinv.alone w old l hold (hdata ▸ hl) c' old' hold' (hdata' ▸ hl') (by rw [← hfd', heq, hfd])
  . intro l
    have hl := hinv.loops l
    constructor
    . apply hl.sound.setChannels
      intro fd c' hentry
      obtain ⟨old, hold, _⟩ := hl.entered fd c' hentry
      obtain ⟨created', hc', hfd, _⟩ := @exists_setEvents _ s c created events c' old hcreated hold
      rw [channels_of_created hold]
      exact (congrArg Channel.fd (channels_of_created hc')).trans hfd
    . intro fd c' hentry
      obtain ⟨old, hold, hloop⟩ := hl.entered fd c' hentry
      obtain ⟨created', hc', _, hdata⟩ := @exists_setEvents _ s c created events c' old hcreated hold
      exact ⟨created', hc', hdata ▸ hloop⟩
    . intro p hp
      obtain ⟨old, hold, hloop, htype⟩ := hl.pending p hp
      obtain ⟨created', hc', _, hdata⟩ := @exists_setEvents _ s c created events p.snd old hcreated hold
      refine ⟨created', hc', hdata ▸ hloop, ?_⟩
      rw [hdata]
      exact htype
    . intro w wakeup hw hdata hentry
      obtain ⟨old, hold, hfd, hdata', hsame⟩ := created_setEvents hcreated hw
      rw [hfd] at hentry ⊢
      obtain ⟨hmask, henabled⟩ := hl.watched w old hold (hdata' ▸ hdata) hentry
      refine ⟨hmask, ?_⟩
      intro hnot
      have hne : w ≠ c := by
        intro heq
        subst heq
        rw [hcreated, Option.some.injEq] at hold
        subst hold
        exact hnot (hpending l (hdata' ▸ hdata))
      rw [hsame hne]
      exact henabled hnot

theorem Inv.close (hD : Lawful D Ok Watched Awaited) (hM : Masked D Ok mask) (hinv : s.Inv Ok Watched mask) {fd : Nat}
    (h : step D s (.close fd) = some s')
    : s'.Inv Ok Watched mask := by
  unfold step at h
  dsimp only at h
  split at h
  . simp at h
  . next hfd =>
    cases h
    constructor
    . exact hinv.inside
    . exact hinv.nonneg
    . exact hinv.alone
    . intro l
      have hl := hinv.loops l
      obtain ⟨hok, hwatched⟩ := hD.close fd hl.sound.ok
      constructor
      . exact hl.sound.setData hok hwatched
      . exact hl.entered
      . exact hl.pending
      . intro w wakeup hw hdata hentry
        have hne : wakeup.fd.toNat ≠ fd := by
          intro heq
          have hnonneg := hinv.nonneg w wakeup l hw hdata
          have hmem := mem_wakeups hw hdata
          rw [← heq, Int.toNat_of_nonneg hnonneg] at hfd
          exact hfd hmem
        dsimp only
        rw [hM.close _ fd _ hne]
        exact hl.watched w wakeup hw hdata hentry

theorem wakeup_loopInv (hD : Lawful D Ok Watched Awaited) (hM : Masked D Ok mask) (hinv : s.Inv Ok Watched mask)
    {fd : Nat} {environment : ε} {memory : MapMemory} {loop : ChannelLoop δ}
    (h : handle (D.functions environment) memory (s.create fd (.eventLoop s.loopCount)).channels
      { channelMap := [], eventDispatcherData := D.init } (.add, s.created.length) = some loop)
    : LoopInv Ok Watched mask (s.create fd (.eventLoop s.loopCount)) s.loopCount { loop, pending := [] } := by
  have hnew := s.created_new fd (.eventLoop s.loopCount)
  have hfd := channels_of_created hnew
  have heffect := ChannelLoop.Effect.of_next h
  constructor
  . exact (Sound.init hD _).effect hD heffect
  . intro fd' c hentry
    cases heffect with
    | nothing _ heq =>
      rw [heq] at hentry
      simp [ChannelLoop.entry] at hentry
    | add _ _ _ heq =>
      by_cases hfd' : fd' = ((s.create fd (.eventLoop s.loopCount)).channels s.created.length).fd.toNat
      . subst hfd'
        rw [heq, Function.update_self, Option.some.injEq] at hentry
        subst hentry
        exact ⟨_, hnew, rfl⟩
      . rw [heq, Function.update_of_ne hfd'] at hentry
        simp [ChannelLoop.entry] at hentry
  . simp
  . intro w wakeup hw hdata hentry
    cases created_create hw with
    | inl hold =>
      have hlt := hinv.inside w wakeup hold
      rw [hdata] at hlt
      exact absurd hlt (Nat.lt_irrefl _)
    | inr hnew' =>
      obtain ⟨hw', hwakeup⟩ := hnew'
      subst hwakeup
      cases heffect with
      | nothing _ heq =>
        rw [heq] at hentry
        simp [ChannelLoop.entry] at hentry
      | add hnonneg _ hcall _ =>
        have hmask := hM.add_init hnonneg hcall
        rw [hfd] at hmask
        refine ⟨?_, fun _ => hmask⟩
        intro hnone
        have hsome := hmask.symm.trans hnone
        simp at hsome

theorem Inv.initWithName (hD : Lawful D Ok Watched Awaited) (hM : Masked D Ok mask) (hinv : s.Inv Ok Watched mask)
    {fd : Nat} {environment : ε} {memory : MapMemory}
    (h : step D s (.eventLoopInitWithName fd environment memory) = some s')
    : s'.Inv Ok Watched mask := by
  unfold step at h
  dsimp only at h
  split at h
  . simp at h
  . next hwakeups =>
    unfold eventLoopHandlePendingChannel at h
    split at h
    . simp at h
    . next loop hexec =>
      cases h
      have hloop : LoopInv Ok Watched mask (s.create fd (.eventLoop s.loopCount)) s.loopCount
          { loop, pending := [] } := by
        unfold Library.setLoop at hexec
        dsimp only at hexec
        rw [Function.update_self] at hexec
        unfold Run.exec at hexec
        split at hexec
        . next loop' hhandle =>
          cases hexec
          exact wakeup_loopInv hD hM hinv hhandle
        . simp at hexec
      constructor
      . intro c created hcreated
        cases created_create hcreated with
        | inl hold => exact Nat.lt_succ_of_lt (hinv.inside c created hold)
        | inr hnew =>
          rw [hnew.right]
          exact Nat.lt_succ_self s.loopCount
      . intro w wakeup l hw hdata
        cases created_create hw with
        | inl hold => exact hinv.nonneg w wakeup l hold hdata
        | inr hnew =>
          rw [hnew.right]
          exact Int.natCast_nonneg fd
      . intro w wakeup l hw hdata c created hcreated hl heq
        cases created_create hw with
        | inl hold =>
          cases created_create hcreated with
          | inl hold' => exact hinv.alone w wakeup l hold hdata c created hold' hl heq
          | inr hnew =>
            rw [hnew.right] at heq
            have hmem := mem_wakeups hold hdata
            rw [← heq] at hmem
            exact absurd hmem hwakeups
        | inr hnew =>
          cases created_create hcreated with
          | inl hold' =>
            -- The loop is new, and so are its channels.
            have hlt := hinv.inside c created hold'
            rw [hnew.right] at hdata
            cases hdata
            exact absurd hl (Nat.ne_of_lt hlt)
          | inr hnew' => exact hnew'.left.trans hnew.left.symm
      . intro l
        unfold Library.setLoop
        dsimp only
        by_cases heq : l = s.loopCount
        . subst heq
          rw [Function.update_self]
          exact hloop.of_created_eq rfl
        . rw [Function.update_of_ne heq, Function.update_of_ne heq]
          exact ((hinv.loops l).create fd (.eventLoop s.loopCount)).of_created_eq rfl

theorem Inv.step (hD : Lawful D Ok Watched Awaited) (hM : Masked D Ok mask) (hinv : s.Inv Ok Watched mask)
    {a : LibraryAct ε} (h : step D s a = some s')
    : s'.Inv Ok Watched mask := by
  cases a with
  | eventLoopInitWithName fd environment memory => exact hinv.initWithName hD hM h
  | tcpServerStart l fd =>
    unfold Library.step at h
    dsimp only at h
    split at h
    . next hguard =>
      cases h
      apply @Inv.createAndAdd _ _ _ _ _ hinv fd (.tcpServer l) hguard.left hguard.right
      simp
    . simp at h
  | tcpConnectionNew l fd =>
    unfold Library.step at h
    dsimp only at h
    split at h
    . next hguard =>
      cases h
      apply @Inv.createAndAdd _ _ _ _ _ hinv fd (.tcpConnection l) hguard.left hguard.right
      simp
    . simp at h
  | handleConnectionClosed c =>
    unfold Library.step at h
    dsimp only at h
    split at h
    . next fd events l hcreated =>
      cases h
      exact hinv.enqueue hcreated (by simp)
    . simp at h
  | channelWriteEvent call c =>
    unfold Library.step at h
    dsimp only at h
    split at h
    . simp at h
    . next created hcreated =>
      split at h
      . next l hdata =>
        cases h
        have hinv' : (s.eventLoopChannelBufferNolock created.data.loop .update c).Inv Ok Watched mask :=
          hinv.enqueue hcreated fun _ _ => rfl
        rw [hdata] at hinv'
        apply hinv'.setEvents hcreated
        intro l' hl'
        rw [hdata] at hl'
        cases hl'
        unfold eventLoopChannelBufferNolock Library.setLoop
        simp [CallbackObject.loop]
      . simp at h
  | eventLoopHandlePendingChannel l environment memory => exact hinv.drain hD hM h
  | close fd => exact hinv.close hD hM h

theorem inv_of_reaches (hD : Lawful D Ok Watched Awaited) (hM : Masked D Ok mask) {ok : Library δ → LibraryAct ε → Prop}
    (h : Run.Reaches (Library.step D) ok (init D) s)
    : s.Inv Ok Watched mask := by
  apply h.invariant (Library.Inv Ok Watched mask) (init_inv hD)
  intro s s' a hinv _ hstep
  exact hinv.step hD hM hstep

def Registered (s : Library δ) (w : ChannelPtr) (l : Nat) (fd : Int) : Prop :=
  ∃ wakeup, s.created[w]? = some wakeup ∧ wakeup.data = .eventLoop l ∧ wakeup.fd = fd
    ∧ (s.loops l).loop.entry fd.toNat = some w

theorem Registered.of_loop_eq {w : ChannelPtr} {fd : Int} (h : s.Registered w l fd)
    (hcreated : ∀ wakeup, s.created[w]? = some wakeup → ∃ wakeup', s'.created[w]? = some wakeup'
      ∧ wakeup'.fd = wakeup.fd ∧ wakeup'.data = wakeup.data)
    (hloop : (s'.loops l).loop.entry = (s.loops l).loop.entry)
    : s'.Registered w l fd := by
  obtain ⟨wakeup, hw, hdata, hfd, hentry⟩ := h
  obtain ⟨wakeup', hw', hfd', hdata'⟩ := hcreated wakeup hw
  exact ⟨wakeup', hw', hdata'.trans hdata, hfd'.trans hfd, by rw [hloop]; exact hentry⟩

theorem entry_eventLoopChannelBufferNolock (s : Library δ) (l l' : Nat) (type : ElementType) (c : ChannelPtr)
    : ((s.eventLoopChannelBufferNolock l type c).loops l').loop = (s.loops l').loop := by
  unfold eventLoopChannelBufferNolock setLoop
  dsimp only
  by_cases heq : l' = l
  . subst heq
    rw [Function.update_self]
  . rw [Function.update_of_ne heq]

theorem Registered.step (hD : Lawful D Ok Watched Awaited) (hM : Masked D Ok mask) (hinv : s.Inv Ok Watched mask)
    {a : LibraryAct ε} {w : ChannelPtr} {fd : Int} (hreg : s.Registered w l fd) (h : step D s a = some s')
    : s'.Registered w l fd := by
  cases a with
  | eventLoopInitWithName fd' environment memory =>
    unfold Library.step eventLoopHandlePendingChannel at h
    dsimp only at h
    split at h
    . simp at h
    . split at h
      . simp at h
      . next loop hexec =>
        cases h
        have hne : l ≠ s.loopCount := by
          obtain ⟨wakeup, hw, hdata, _⟩ := hreg
          have hlt := hinv.inside w wakeup hw
          rw [hdata] at hlt
          exact Nat.ne_of_lt hlt
        apply hreg.of_loop_eq
        . intro wakeup hw
          exact ⟨wakeup, created_of_created hw, rfl, rfl⟩
        . unfold Library.setLoop
          dsimp only
          rw [Function.update_of_ne hne, Function.update_of_ne hne]
          rfl
  | tcpServerStart l' fd' =>
    unfold Library.step at h
    dsimp only at h
    split at h
    . cases h
      apply hreg.of_loop_eq
      . intro wakeup hw
        exact ⟨wakeup, created_of_created hw, rfl, rfl⟩
      . rw [entry_eventLoopChannelBufferNolock]
        rfl
    . simp at h
  | tcpConnectionNew l' fd' =>
    unfold Library.step at h
    dsimp only at h
    split at h
    . cases h
      apply hreg.of_loop_eq
      . intro wakeup hw
        exact ⟨wakeup, created_of_created hw, rfl, rfl⟩
      . rw [entry_eventLoopChannelBufferNolock]
        rfl
    . simp at h
  | handleConnectionClosed c =>
    unfold Library.step at h
    dsimp only at h
    split at h
    . cases h
      apply hreg.of_loop_eq
      . intro wakeup hw
        exact ⟨wakeup, hw, rfl, rfl⟩
      . rw [entry_eventLoopChannelBufferNolock]
    . simp at h
  | channelWriteEvent call c =>
    unfold Library.step at h
    dsimp only at h
    split at h
    . simp at h
    . next created hcreated =>
      split at h
      . cases h
        apply hreg.of_loop_eq
        . intro wakeup hw
          exact exists_setEvents hcreated hw
        . rw [entry_eventLoopChannelBufferNolock]
      . simp at h
  | eventLoopHandlePendingChannel l' environment memory =>
    unfold Library.step eventLoopHandlePendingChannel at h
    dsimp only at h
    split at h
    . simp at h
    . next loop hexec =>
      cases h
      by_cases heq : l = l'
      . subst heq
        obtain ⟨wakeup, hw, hdata, hfd, hentry⟩ := hreg
        subst hfd
        obtain ⟨hentry', _⟩ := hinv.exec hD hM hw hdata hentry hexec
        refine ⟨wakeup, hw, hdata, rfl, ?_⟩
        unfold Library.setLoop
        dsimp only
        rw [Function.update_self]
        exact hentry'
      . apply hreg.of_loop_eq
        . intro wakeup hw
          exact ⟨wakeup, hw, rfl, rfl⟩
        . unfold Library.setLoop
          dsimp only
          rw [Function.update_of_ne heq]
  | close fd' =>
    unfold Library.step at h
    dsimp only at h
    split at h
    . simp at h
    . cases h
      apply hreg.of_loop_eq
      . intro wakeup hw
        exact ⟨wakeup, hw, rfl, rfl⟩
      . rfl

end Invariant

end Library
end NetWork
