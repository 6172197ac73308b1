import Mathlib.Logic.Function.Basic
import ByDoing.NetWork.Channel
import ByDoing.NetWork.ChannelMap

/-!
This module contains the handlers of the pending operations in `event_loop.c`, over the functions of an
`event_dispatcher`. `channels` is what the pointers point to. `.error` is an access to memory that is not there or a
call that never returns, and `.ok none` says that the dispatcher has ended the process.
-/

namespace NetWork

inductive ElementType where
  | add
  | remove
  | update
  deriving Repr, DecidableEq

inductive LoopFault where
  | assertFailed
  | nullPointer
  | outOfBlock
  | overflow
  | endless
  deriving Repr, DecidableEq

abbrev ChannelPtr := Nat

structure EventDispatcher (δ : Type) where
  add : δ → Channel → Option δ
  del : δ → Channel → Option δ
  update : δ → Channel → Option δ

structure MapMemory where
  dm : DataModel
  grow : Int → Option (Nat → Option ChannelPtr)

def MapMemory.roomy : MapMemory where
  dm := .lp64
  grow _ := some fun _ => none

structure ChannelLoop (δ : Type) where
  channelMap : List (Option ChannelPtr)
  eventDispatcherData : δ

namespace ChannelLoop

def toMap (entries : List (Option ChannelPtr)) : ChannelMap ChannelPtr :=
  { entries, nentries := entries.length }

def MapFits (memory : MapMemory) (entries : List (Option ChannelPtr)) (slot : Int) : Prop :=
  ChannelMap.Fits (toMap entries) slot memory.dm.sizeOfPointer

-- After 33 evaluations of its condition the loop of `map_make_space` goes on for ever (`ChannelMap.endless_of_run`).
def mapMakeSpace (memory : MapMemory) (entries : List (Option ChannelPtr)) (slot : Int)
    : Except LoopFault (Option (List (Option ChannelPtr))) :=
  match ChannelMap.mapMakeSpace memory.dm memory.grow 33 (toMap entries) slot memory.dm.sizeOfPointer with
  | none => .error .endless
  | some (.error .overflow) => .error .overflow
  | some (.error .outOfBlock) => .error .outOfBlock
  | some (.ok out) => .ok (if out.ret = 0 then some out.map.entries else none)

variable {δ : Type}

def entry (loop : ChannelLoop δ) (fd : Nat) : Option ChannelPtr :=
  (loop.channelMap[fd]?).join

section Handlers

variable (dispatcher : EventDispatcher δ) (memory : MapMemory) (channels : ChannelPtr → Channel) (loop : ChannelLoop δ)

def eventLoopHandlePendingAdd (channel : ChannelPtr) : Except LoopFault (Option (ChannelLoop δ)) :=
  let fd := (channels channel).fd
  if fd < 0 then
    .ok (some loop)
  else
    match mapMakeSpace memory loop.channelMap fd with
    | .error e => .error e
    | .ok none => .ok (some loop)
    | .ok (some map) =>
      if map[fd.toNat]? = some none then
        match dispatcher.add loop.eventDispatcherData (channels channel) with
        | none => .ok none
        | some data => .ok (some { channelMap := map.set fd.toNat (some channel), eventDispatcherData := data })
      else
        .ok (some { loop with channelMap := map })

def eventLoopHandlePendingRemove (channel1 : ChannelPtr) : Except LoopFault (Option (ChannelLoop δ)) :=
  let fd := (channels channel1).fd
  if fd < 0 then
    .ok (some loop)
  else
    match loop.channelMap[fd.toNat]? with
    | none => .ok (some loop)
    -- `del` reads `channel2->fd`
    | some none => .error .nullPointer
    | some (some channel2) =>
      match dispatcher.del loop.eventDispatcherData (channels channel2) with
      | none => .ok none
      | some data => .ok (some { channelMap := loop.channelMap.set fd.toNat none, eventDispatcherData := data })

def eventLoopHandlePendingUpdate (channel : ChannelPtr) : Except LoopFault (Option (ChannelLoop δ)) :=
  let fd := (channels channel).fd
  if fd < 0 then
    .ok (some loop)
  else
    match loop.channelMap[fd.toNat]? with
    | none => .error .outOfBlock
    | some none => .ok (some loop)
    | some (some _) =>
      match dispatcher.update loop.eventDispatcherData (channels channel) with
      | none => .ok none
      | some data => .ok (some { loop with eventDispatcherData := data })

def handlePending (type : ElementType) (channel : ChannelPtr) : Except LoopFault (Option (ChannelLoop δ)) :=
  match type with
  | .add => eventLoopHandlePendingAdd dispatcher memory channels loop channel
  | .remove => eventLoopHandlePendingRemove dispatcher channels loop channel
  | .update => eventLoopHandlePendingUpdate dispatcher channels loop channel

def next (type : ElementType) (channel : ChannelPtr) : Option (ChannelLoop δ) :=
  match handlePending dispatcher memory channels loop type channel with
  | .ok loop' => loop'
  | .error _ => none

end Handlers

def Fits (memory : MapMemory) (channels : ChannelPtr → Channel) (loop : ChannelLoop δ) (type : ElementType)
    (c : ChannelPtr)
    : Prop :=
  let fd := (channels c).fd
  match type with
  | .add => 0 ≤ fd → MapFits memory loop.channelMap fd
  | .remove => 0 ≤ fd → fd.toNat < loop.channelMap.length → loop.entry fd.toNat ≠ none
  | .update => 0 ≤ fd → fd.toNat < loop.channelMap.length

section Map

variable {memory : MapMemory} {entries map : List (Option ChannelPtr)} {slot : Int}

theorem valid_toMap (h : (entries.length : Int) < 2147483648) : ChannelMap.Valid (toMap entries) :=
  ⟨Int.natCast_nonneg _, h, rfl⟩

theorem mapMakeSpace_of_lt (h : slot < entries.length) : mapMakeSpace memory entries slot = .ok (some entries) := by
  unfold mapMakeSpace
  rw [@ChannelMap.mapMakeSpace_of_lt _ _ _ (toMap entries) _ h]
  rfl

theorem mapMakeSpace_of_done {out : ChannelMap.Outcome ChannelPtr}
    (h : ChannelMap.mapMakeSpace memory.dm memory.grow 33 (toMap entries) slot memory.dm.sizeOfPointer = some (.ok out))
    : mapMakeSpace memory entries slot = .ok (if out.ret = 0 then some out.map.entries else none) := by
  unfold mapMakeSpace
  rw [h]

theorem exists_outcome {res : Option (List (Option ChannelPtr))} (h : mapMakeSpace memory entries slot = .ok res)
    : ∃ out, ChannelMap.mapMakeSpace memory.dm memory.grow 33 (toMap entries) slot memory.dm.sizeOfPointer
        = some (.ok out)
      ∧ res = if out.ret = 0 then some out.map.entries else none := by
  unfold mapMakeSpace at h
  split at h
  . cases h
  . cases h
  . cases h
  . next out hout =>
    cases h
    exact ⟨out, hout, rfl⟩

theorem mapFits_of_ok (hslot : 0 ≤ slot) {res : Option (List (Option ChannelPtr))}
    (h : mapMakeSpace memory entries slot = .ok res)
    : MapFits memory entries slot := by
  obtain ⟨out, hout, _⟩ := exists_outcome h
  by_cases hlt : slot < entries.length
  . exact .inl hlt
  . have hword := ChannelMap.lt_of_mapMakeSpace hout (Int.not_lt.mp hlt)
    exact ChannelMap.fits_of_mapMakeSpace (valid_toMap hword) hslot hout

theorem exists_done_of_mapFits (h : MapFits memory entries slot)
    : ∃ out, ChannelMap.mapMakeSpace memory.dm memory.grow 33 (toMap entries) slot memory.dm.sizeOfPointer
        = some (.ok out)
      ∧ (slot < entries.length ∨ ChannelMap.Done (toMap entries) slot memory.dm.sizeOfPointer out) := by
  by_cases hlt : slot < entries.length
  . exact ⟨_, @ChannelMap.mapMakeSpace_of_lt _ _ _ (toMap entries) _ hlt _ _, .inl hlt⟩
  . have hword := ChannelMap.lt_of_fits h (Int.not_lt.mp hlt)
    obtain ⟨out, hout, hdone⟩ := ChannelMap.mapMakeSpace_of_fits (valid_toMap hword) h
    exact ⟨out, hout, .inr hdone⟩

theorem mapMakeSpace_ne_error_iff (hslot : 0 ≤ slot)
    : (∀ e, mapMakeSpace memory entries slot ≠ .error e) ↔ MapFits memory entries slot := by
  constructor
  . intro h
    cases hmap : mapMakeSpace memory entries slot with
    | error e => exact absurd hmap (h e)
    | ok res => exact mapFits_of_ok hslot hmap
  . intro h e
    obtain ⟨out, hout, _⟩ := @exists_done_of_mapFits memory _ _ h
    rw [mapMakeSpace_of_done hout]
    exact nofun

theorem mapMakeSpace_eq_some (hslot : 0 ≤ slot) (h : mapMakeSpace memory entries slot = .ok (some map))
    : slot.toNat < map.length ∧ entries.length ≤ map.length ∧ ∀ i : Nat, (map[i]?).join = (entries[i]?).join := by
  by_cases hlt : slot < entries.length
  . rw [mapMakeSpace_of_lt hlt] at h
    cases h
    exact ⟨by omega, Nat.le_refl _, fun _ => rfl⟩
  . obtain ⟨out, hout, hdone⟩ := exists_done_of_mapFits (mapFits_of_ok hslot h)
    have hdone := hdone.resolve_left hlt
    rw [mapMakeSpace_of_done hout, Except.ok.injEq, Option.ite_none_right_eq_some, Option.some.injEq] at h
    obtain ⟨hret, rfl⟩ := h
    have hlength := (hdone.valid hret).length
    have hcovers := hdone.covers hret
    refine ⟨by omega, by omega, ?_⟩
    intro i
    by_cases hi : i < entries.length
    . rw [hdone.kept hret i (Int.ofNat_lt.mpr hi)]
      rfl
    . rw [List.getElem?_eq_none (Nat.le_of_not_lt hi)]
      by_cases hend : i < out.map.entries.length
      . rw [hdone.cleared hret i (Int.ofNat_le.mpr (Nat.le_of_not_lt hi)) (by omega)]
        rfl
      . rw [List.getElem?_eq_none (Nat.le_of_not_lt hend)]

theorem mapMakeSpace_of_roomy (hgrow : ∀ n, memory.grow n ≠ none) (h : MapFits memory entries slot)
    : ∃ map, mapMakeSpace memory entries slot = .ok (some map) := by
  obtain ⟨out, hout, _⟩ := @exists_done_of_mapFits memory _ _ h
  refine ⟨out.map.entries, ?_⟩
  rw [mapMakeSpace_of_done hout, if_pos (ChannelMap.ret_of_roomy hgrow hout)]

theorem mapFits_of_lt (h : slot < 134217728) : MapFits memory entries slot := by
  by_cases hlt : slot < entries.length
  . exact .inl hlt
  . exact ChannelMap.fits_of_lt (valid_toMap (by omega)) h

end Map

variable {dispatcher : EventDispatcher δ} {memory : MapMemory} {channels : ChannelPtr → Channel}
  {loop loop' : ChannelLoop δ} {c : ChannelPtr}

theorem next_eq_some_iff {type : ElementType}
    : next dispatcher memory channels loop type c = some loop'
        ↔ handlePending dispatcher memory channels loop type c = .ok (some loop') := by
  unfold next
  split
  . next heq => rw [heq, Except.ok.injEq]
  . next heq =>
    rw [heq]
    exact ⟨nofun, nofun⟩

theorem lt_of_entry (loop : ChannelLoop δ) {fd : Nat} {c : ChannelPtr} (h : loop.entry fd = some c)
    : fd < loop.channelMap.length := by
  have hget : loop.channelMap[fd]? = some (some c) := Option.join_eq_some_iff.mp h
  exact (List.getElem?_eq_some_iff.mp hget).fst

theorem getElem?_of_entry_eq_none (loop : ChannelLoop δ) {fd : Nat} (hlt : fd < loop.channelMap.length)
    (h : loop.entry fd = none)
    : loop.channelMap[fd]? = some none := by
  unfold entry at h
  rw [List.getElem?_eq_getElem hlt] at h ⊢
  exact congrArg some h

def HasRoom (memory : MapMemory) (entries : List (Option ChannelPtr)) (slot : Int) : Prop :=
  (mapMakeSpace memory entries slot).toOption.join.isSome

theorem hasRoom_iff {entries : List (Option ChannelPtr)} {slot : Int}
    : HasRoom memory entries slot ↔ ∃ map, mapMakeSpace memory entries slot = .ok (some map) := by
  unfold HasRoom
  cases mapMakeSpace memory entries slot with
  | error e => simp [Except.toOption]
  | ok res => cases res <;> simp [Except.toOption]

def Registers (memory : MapMemory) (channels : ChannelPtr → Channel) (loop : ChannelLoop δ) (c : ChannelPtr)
    : Prop :=
  0 ≤ (channels c).fd ∧ HasRoom memory loop.channelMap (channels c).fd
    ∧ loop.entry (channels c).fd.toNat = none

instance decidableRegisters (memory : MapMemory) (channels : ChannelPtr → Channel) (loop : ChannelLoop δ)
    (c : ChannelPtr)
    : Decidable (Registers memory channels loop c) :=
  inferInstanceAs (Decidable (_ ∧ (_ = true) ∧ _))

theorem entry_set {map : List (Option ChannelPtr)} {fd : Nat} (hfd : fd < map.length) (c : Option ChannelPtr) (i : Nat)
    : ((map.set fd c)[i]?).join = Function.update (fun i => (map[i]?).join) fd c i := by
  by_cases hi : i = fd
  . subst hi
    rw [List.getElem?_set_self hfd, Function.update_self]
    rfl
  . rw [List.getElem?_set_ne (Ne.symm hi), Function.update_of_ne hi]

theorem handlePendingAdd_of_registers (h : Registers memory channels loop c)
    : (dispatcher.add loop.eventDispatcherData (channels c) = none
        ∧ eventLoopHandlePendingAdd dispatcher memory channels loop c = .ok none)
      ∨ ∃ loop', eventLoopHandlePendingAdd dispatcher memory channels loop c = .ok (some loop')
        ∧ dispatcher.add loop.eventDispatcherData (channels c) = some loop'.eventDispatcherData
        ∧ loop'.entry = Function.update loop.entry (channels c).fd.toNat (some c)
        ∧ loop.channelMap.length ≤ loop'.channelMap.length := by
  obtain ⟨hfd, hspace, hentry⟩ := h
  obtain ⟨map, hmap⟩ := hasRoom_iff.mp hspace
  obtain ⟨hlt, hle, heq⟩ := mapMakeSpace_eq_some hfd hmap
  have hnone : map[(channels c).fd.toNat]? = some none := by
    have hjoin := heq (channels c).fd.toNat
    rw [List.getElem?_eq_getElem hlt] at hjoin ⊢
    exact congrArg some (hjoin.trans hentry)
  unfold eventLoopHandlePendingAdd
  dsimp only
  rw [if_neg (by omega), hmap]
  dsimp only
  rw [if_pos hnone]
  cases hadd : dispatcher.add loop.eventDispatcherData (channels c) with
  | none => exact .inl ⟨rfl, rfl⟩
  | some data =>
    refine .inr ⟨_, rfl, rfl, ?_, ?_⟩
    . funext i
      unfold entry
      dsimp only
      rw [entry_set hlt]
      unfold Function.update
      simp only [heq]
    . rw [List.length_set]
      exact hle

theorem handlePendingAdd_of_not_registers (hfits : loop.Fits memory channels .add c)
    (h : ¬ Registers memory channels loop c)
    : ∃ loop', eventLoopHandlePendingAdd dispatcher memory channels loop c = .ok (some loop')
      ∧ loop'.eventDispatcherData = loop.eventDispatcherData ∧ loop'.entry = loop.entry
      ∧ loop.channelMap.length ≤ loop'.channelMap.length := by
  unfold eventLoopHandlePendingAdd
  dsimp only
  split
  . exact ⟨loop, rfl, rfl, rfl, Nat.le_refl _⟩
  . next hneg =>
    have hfd := Int.not_lt.mp hneg
    cases hmap : mapMakeSpace memory loop.channelMap (channels c).fd with
    | error e => exact absurd hmap ((mapMakeSpace_ne_error_iff hfd).mpr (hfits hfd) e)
    | ok res =>
      cases res with
      | none => exact ⟨loop, rfl, rfl, rfl, Nat.le_refl _⟩
      | some map =>
        obtain ⟨_, hle, heq⟩ := mapMakeSpace_eq_some hfd hmap
        dsimp only
        split
        . next hnone =>
          exfalso
          apply h
          refine ⟨hfd, hasRoom_iff.mpr ⟨map, hmap⟩, ?_⟩
          unfold entry
          rw [← heq, hnone]
          rfl
        . exact ⟨_, rfl, rfl, funext heq, hle⟩

theorem handlePendingRemove_of_entry {c₂ : ChannelPtr} (hfd : 0 ≤ (channels c).fd)
    (h : loop.entry (channels c).fd.toNat = some c₂)
    : (dispatcher.del loop.eventDispatcherData (channels c₂) = none
        ∧ eventLoopHandlePendingRemove dispatcher channels loop c = .ok none)
      ∨ ∃ loop', eventLoopHandlePendingRemove dispatcher channels loop c = .ok (some loop')
        ∧ dispatcher.del loop.eventDispatcherData (channels c₂) = some loop'.eventDispatcherData
        ∧ loop'.entry = Function.update loop.entry (channels c).fd.toNat none
        ∧ loop'.channelMap.length = loop.channelMap.length := by
  have hget : loop.channelMap[(channels c).fd.toNat]? = some (some c₂) := Option.join_eq_some_iff.mp h
  unfold eventLoopHandlePendingRemove
  dsimp only
  rw [if_neg (by omega), hget]
  dsimp only
  cases hdel : dispatcher.del loop.eventDispatcherData (channels c₂) with
  | none => exact .inl ⟨rfl, rfl⟩
  | some data =>
    refine .inr ⟨_, rfl, rfl, ?_, List.length_set⟩
    funext i
    exact entry_set (loop.lt_of_entry h) none i

theorem handlePendingRemove_of_null (hfd : 0 ≤ (channels c).fd)
    (hlt : (channels c).fd.toNat < loop.channelMap.length) (h : loop.entry (channels c).fd.toNat = none)
    : eventLoopHandlePendingRemove dispatcher channels loop c = .error .nullPointer := by
  unfold eventLoopHandlePendingRemove
  dsimp only
  rw [if_neg (by omega), loop.getElem?_of_entry_eq_none hlt h]

theorem handlePendingRemove_of_outside
    (h : (channels c).fd < 0 ∨ loop.channelMap.length ≤ (channels c).fd.toNat)
    : eventLoopHandlePendingRemove dispatcher channels loop c = .ok (some loop) := by
  unfold eventLoopHandlePendingRemove
  dsimp only
  split
  . rfl
  . next hfd => rw [List.getElem?_eq_none (h.resolve_left hfd)]

theorem handlePendingUpdate_of_entry {c₀ : ChannelPtr} (hfd : 0 ≤ (channels c).fd)
    (h : loop.entry (channels c).fd.toNat = some c₀)
    : (dispatcher.update loop.eventDispatcherData (channels c) = none
        ∧ eventLoopHandlePendingUpdate dispatcher channels loop c = .ok none)
      ∨ ∃ loop', eventLoopHandlePendingUpdate dispatcher channels loop c = .ok (some loop')
        ∧ dispatcher.update loop.eventDispatcherData (channels c) = some loop'.eventDispatcherData
        ∧ loop'.entry = loop.entry ∧ loop'.channelMap = loop.channelMap := by
  have hget : loop.channelMap[(channels c).fd.toNat]? = some (some c₀) := Option.join_eq_some_iff.mp h
  unfold eventLoopHandlePendingUpdate
  dsimp only
  rw [if_neg (by omega), hget]
  dsimp only
  cases hupdate : dispatcher.update loop.eventDispatcherData (channels c) with
  | none => exact .inl ⟨rfl, rfl⟩
  | some data => exact .inr ⟨_, rfl, rfl, rfl, rfl⟩

theorem handlePendingUpdate_of_outside (hfd : 0 ≤ (channels c).fd)
    (h : loop.channelMap.length ≤ (channels c).fd.toNat)
    : eventLoopHandlePendingUpdate dispatcher channels loop c = .error .outOfBlock := by
  unfold eventLoopHandlePendingUpdate
  dsimp only
  rw [if_neg (by omega), List.getElem?_eq_none h]

theorem handlePendingUpdate_of_null
    (h : (channels c).fd < 0 ∨ ((channels c).fd.toNat < loop.channelMap.length
      ∧ loop.entry (channels c).fd.toNat = none))
    : eventLoopHandlePendingUpdate dispatcher channels loop c = .ok (some loop) := by
  unfold eventLoopHandlePendingUpdate
  dsimp only
  split
  . rfl
  . next hfd =>
    obtain ⟨hlt, hentry⟩ := h.resolve_left hfd
    rw [loop.getElem?_of_entry_eq_none hlt hentry]

inductive Effect (dispatcher : EventDispatcher δ) (channels : ChannelPtr → Channel) (loop loop' : ChannelLoop δ)
    (c : ChannelPtr)
    : ElementType → Prop where
  | nothing {type : ElementType} (data_eq : loop'.eventDispatcherData = loop.eventDispatcherData)
      (entry_eq : loop'.entry = loop.entry)
      : Effect dispatcher channels loop loop' c type
  | add (nonneg : 0 ≤ (channels c).fd) (entry_fd : loop.entry (channels c).fd.toNat = none)
      (call : dispatcher.add loop.eventDispatcherData (channels c) = some loop'.eventDispatcherData)
      (entry_eq : loop'.entry = Function.update loop.entry (channels c).fd.toNat (some c))
      : Effect dispatcher channels loop loop' c .add
  | del (c₂ : ChannelPtr) (nonneg : 0 ≤ (channels c).fd) (entry_fd : loop.entry (channels c).fd.toNat = some c₂)
      (call : dispatcher.del loop.eventDispatcherData (channels c₂) = some loop'.eventDispatcherData)
      (entry_eq : loop'.entry = Function.update loop.entry (channels c).fd.toNat none)
      : Effect dispatcher channels loop loop' c .remove
  | update (nonneg : 0 ≤ (channels c).fd)
      (call : dispatcher.update loop.eventDispatcherData (channels c) = some loop'.eventDispatcherData)
      (entry_eq : loop'.entry = loop.entry)
      : Effect dispatcher channels loop loop' c .update

def Accepts (dispatcher : EventDispatcher δ) (memory : MapMemory) (channels : ChannelPtr → Channel)
    (loop : ChannelLoop δ) (type : ElementType) (c : ChannelPtr)
    : Prop :=
  match type with
  | .add => Registers memory channels loop c → dispatcher.add loop.eventDispatcherData (channels c) ≠ none
  | .remove =>
    0 ≤ (channels c).fd → ∀ c₂, loop.entry (channels c).fd.toNat = some c₂ →
      dispatcher.del loop.eventDispatcherData (channels c₂) ≠ none
  | .update =>
    0 ≤ (channels c).fd → ∀ c₀, loop.entry (channels c).fd.toNat = some c₀ →
      dispatcher.update loop.eventDispatcherData (channels c) ≠ none

theorem handlePending_cases (dispatcher : EventDispatcher δ) (memory : MapMemory) (channels : ChannelPtr → Channel)
    (loop : ChannelLoop δ) (type : ElementType) (c : ChannelPtr)
    : (∃ e, handlePending dispatcher memory channels loop type c = .error e) ∧ ¬ loop.Fits memory channels type c
      ∨ handlePending dispatcher memory channels loop type c = .ok none ∧ loop.Fits memory channels type c
        ∧ ¬ loop.Accepts dispatcher memory channels type c
      ∨ ∃ loop', handlePending dispatcher memory channels loop type c = .ok (some loop')
        ∧ loop.Fits memory channels type c ∧ loop.Accepts dispatcher memory channels type c
        ∧ Effect dispatcher channels loop loop' c type
        ∧ loop.channelMap.length ≤ loop'.channelMap.length := by
  cases type with
  | add =>
    by_cases hfits : loop.Fits memory channels .add c
    . right
      by_cases hreg : Registers memory channels loop c
      . obtain ⟨hnone, hadd⟩ | ⟨loop', hadd, hcall, hentry, hle⟩ :=
          @handlePendingAdd_of_registers _ dispatcher _ _ _ _ hreg
        . exact .inl ⟨hadd, hfits, fun haccepts => haccepts hreg hnone⟩
        . refine .inr ⟨loop', hadd, hfits, ?_, .add hreg.left hreg.right.right hcall hentry, hle⟩
          intro _ hnone
          rw [hcall] at hnone
          cases hnone
      . obtain ⟨loop', hadd, hdata, hentry, hle⟩ := @handlePendingAdd_of_not_registers _ dispatcher _ _ _ _ hfits hreg
        exact .inr ⟨loop', hadd, hfits, fun h => absurd h hreg, .nothing hdata hentry, hle⟩
    . refine .inl ⟨?_, hfits⟩
      obtain ⟨hfd, hmap⟩ := Classical.not_imp.mp hfits
      have herror := mt (mapMakeSpace_ne_error_iff hfd).mp hmap
      obtain ⟨e, he⟩ := Classical.not_forall.mp herror
      refine ⟨e, ?_⟩
      unfold handlePending eventLoopHandlePendingAdd
      dsimp only
      rw [if_neg (by omega), Classical.not_not.mp he]
  | remove =>
    by_cases hout : (channels c).fd < 0 ∨ loop.channelMap.length ≤ (channels c).fd.toNat
    . refine .inr (.inr ⟨loop, handlePendingRemove_of_outside hout, ?_, ?_, .nothing rfl rfl, Nat.le_refl _⟩)
      . intro hfd hlt
        omega
      . intro hfd c₂ hc₂
        have hlt := loop.lt_of_entry hc₂
        omega
    . rw [not_or, Int.not_lt, Nat.not_le] at hout
      cases hentry : loop.entry (channels c).fd.toNat with
      | none =>
        refine .inl ⟨⟨_, handlePendingRemove_of_null hout.left hout.right hentry⟩, ?_⟩
        intro hfits
        exact hfits hout.left hout.right hentry
      | some c₂ =>
        have hfits : loop.Fits memory channels .remove c := by
          intro _ _
          rw [hentry]
          exact nofun
        right
        obtain ⟨hnone, hremove⟩ | ⟨loop', hremove, hcall, hentry', hlength⟩ :=
          @handlePendingRemove_of_entry _ dispatcher _ _ _ _ hout.left hentry
        . exact .inl ⟨hremove, hfits, fun haccepts => haccepts hout.left c₂ hentry hnone⟩
        . refine .inr ⟨loop', hremove, hfits, ?_, .del c₂ hout.left hentry hcall hentry', Nat.le_of_eq hlength.symm⟩
          intro _ c' hc'
          rw [hentry, Option.some.injEq] at hc'
          rw [← hc', hcall]
          exact nofun
  | update =>
    by_cases hneg : (channels c).fd < 0
    . refine .inr (.inr ⟨loop, handlePendingUpdate_of_null (.inl hneg), ?_, ?_, .nothing rfl rfl, Nat.le_refl _⟩)
      . intro hfd
        omega
      . intro hfd
        omega
    . have hnonneg := Int.not_lt.mp hneg
      by_cases hlt : (channels c).fd.toNat < loop.channelMap.length
      . right
        have hfits : loop.Fits memory channels .update c := fun _ => hlt
        cases hentry : loop.entry (channels c).fd.toNat with
        | none =>
          refine .inr ⟨loop, handlePendingUpdate_of_null (.inr ⟨hlt, hentry⟩), hfits, ?_, .nothing rfl rfl, Nat.le_refl _⟩
          intro _ c₀ hc₀
          rw [hentry] at hc₀
          cases hc₀
        | some c₀ =>
          obtain ⟨hnone, hupdate⟩ | ⟨loop', hupdate, hcall, hentry', hmap⟩ :=
            @handlePendingUpdate_of_entry _ dispatcher _ _ _ _ hnonneg hentry
          . exact .inl ⟨hupdate, hfits, fun haccepts => haccepts hnonneg c₀ hentry hnone⟩
          . refine .inr ⟨loop', hupdate, hfits, ?_, .update hnonneg hcall hentry', ?_⟩
            . intro _ _ _
              rw [hcall]
              exact nofun
            . rw [hmap]
      . refine .inl ⟨⟨_, handlePendingUpdate_of_outside hnonneg (Nat.le_of_not_lt hlt)⟩, ?_⟩
        intro hfits
        exact hlt (hfits hnonneg)

theorem handlePending_ne_error_iff {type : ElementType}
    : (∀ e, handlePending dispatcher memory channels loop type c ≠ .error e) ↔ loop.Fits memory channels type c := by
  obtain ⟨⟨e, herror⟩, hnot⟩ | ⟨hok, hfits, _⟩ | ⟨loop', hok, hfits, _⟩ :=
    handlePending_cases dispatcher memory channels loop type c
  . refine iff_of_false ?_ hnot
    intro h
    exact h e herror
  . refine iff_of_true ?_ hfits
    rw [hok]
    exact nofun
  . refine iff_of_true ?_ hfits
    rw [hok]
    exact nofun

theorem handlePending_eq_some_iff {type : ElementType}
    : (∃ loop', handlePending dispatcher memory channels loop type c = .ok (some loop'))
        ↔ loop.Fits memory channels type c ∧ loop.Accepts dispatcher memory channels type c := by
  obtain ⟨⟨e, herror⟩, hnot⟩ | ⟨hok, _, hnot⟩ | ⟨loop', hok, hfits, haccepts, _⟩ :=
    handlePending_cases dispatcher memory channels loop type c
  . refine iff_of_false ?_ (fun h => hnot h.left)
    rw [herror]
    exact nofun
  . refine iff_of_false ?_ (fun h => hnot h.right)
    rw [hok]
    exact nofun
  . exact iff_of_true ⟨loop', hok⟩ ⟨hfits, haccepts⟩

theorem effect_of_handlePending {type : ElementType}
    (h : handlePending dispatcher memory channels loop type c = .ok (some loop'))
    : Effect dispatcher channels loop loop' c type ∧ loop.channelMap.length ≤ loop'.channelMap.length := by
  obtain ⟨⟨e, herror⟩, _⟩ | ⟨hok, _⟩ | ⟨loop'', hok, _, _, heffect⟩ :=
    handlePending_cases dispatcher memory channels loop type c
  . rw [herror] at h
    cases h
  . rw [hok] at h
    cases h
  . rw [hok, Except.ok.injEq, Option.some.injEq] at h
    exact h ▸ heffect

theorem handlePending_ne_assertFailed {type : ElementType}
    : handlePending dispatcher memory channels loop type c ≠ .error .assertFailed := by
  intro h
  unfold handlePending at h
  cases type with
  | add =>
    unfold eventLoopHandlePendingAdd mapMakeSpace at h
    grind
  | remove =>
    unfold eventLoopHandlePendingRemove at h
    grind
  | update =>
    unfold eventLoopHandlePendingUpdate at h
    grind

theorem Effect.of_next {type : ElementType} (h : next dispatcher memory channels loop type c = some loop')
    : Effect dispatcher channels loop loop' c type :=
  (effect_of_handlePending (next_eq_some_iff.mp h)).left

end ChannelLoop
end NetWork
