import Mathlib.Data.Fintype.Card
import Mathlib.Data.List.Pairwise
import Mathlib.Logic.Function.Basic
import ByDoing.Lib.Run

/-!
This module contains the timers of `sched.c`. The pending timers are a list of slots in which `jiffies` counts
from the timer before. A call of `do_timer` is a `tick` and then an `expire` for each round of its loop, so that
the functions that the loop calls may add timers themselves.
-/

namespace OS

abbrev TIME_REQUESTS : Nat := 64

structure TimerSlot (α : Type) where
  jiffies : Int
  fn : Option α
  next : Option (Fin TIME_REQUESTS)

structure Timers (α : Type) where
  timerList : Fin TIME_REQUESTS → TimerSlot α
  nextTimer : Option (Fin TIME_REQUESTS)

namespace Timers

variable {α : Type}

def init : Timers α :=
  { timerList := fun _ => ⟨0, none, none⟩, nextTimer := none }

-- The loop at the end of `add_timer`: the payload of `p` sinks, the slots stay where they are.
def sinkTimer (slots : Fin TIME_REQUESTS → TimerSlot α) (p : Fin TIME_REQUESTS)
    : (fuel : Nat) → Option (Fin TIME_REQUESTS → TimerSlot α)
  | 0 => none
  | fuel + 1 =>
    match (slots p).next with
    | none => some slots
    | some q =>
      if (slots q).jiffies < (slots p).jiffies then
        let jiffies := (slots p).jiffies - (slots q).jiffies
        let upper := { slots p with jiffies := (slots q).jiffies, fn := (slots q).fn }
        let lower := { slots q with jiffies, fn := (slots p).fn }
        sinkTimer (Function.update (Function.update slots p upper) q lower) q fuel
      else
        some slots

/--
The functions that `add_timer` itself calls come second; `none` is the `panic`.
-/
def addTimer (t : Timers α) (jiffies : Int) (fn : Option α) : Option (Timers α × List α) :=
  match fn with
  | none => some (t, [])
  | some fn =>
    if jiffies ≤ 0 then
      some (t, [fn])
    else
      match (List.finRange TIME_REQUESTS).find? fun p => (t.timerList p).fn.isNone with
      | none => none
      | some p =>
        let slots := Function.update t.timerList p ⟨jiffies, some fn, t.nextTimer⟩
        match sinkTimer slots p TIME_REQUESTS with
        | none => none
        | some slots => some ({ timerList := slots, nextTimer := some p }, [])

def tick (t : Timers α) : Timers α :=
  match t.nextTimer with
  | none => t
  | some p =>
    let slot := t.timerList p
    { t with timerList := Function.update t.timerList p { slot with jiffies := slot.jiffies - 1 } }

def expired (t : Timers α) : Bool :=
  match t.nextTimer with
  | none => false
  | some p => (t.timerList p).jiffies ≤ 0

def expire (t : Timers α) : Option (Timers α × α) :=
  match t.nextTimer with
  | none => none
  | some p =>
    let slot := t.timerList p
    match slot.fn with
    | none => none
    | some fn =>
      some ({ timerList := Function.update t.timerList p { slot with fn := none }, nextTimer := slot.next }, fn)

def Chain (slots : Fin TIME_REQUESTS → TimerSlot α) (link : Option (Fin TIME_REQUESTS))
    : List (Fin TIME_REQUESTS) → List (Int × α) → Prop
  | [], vs => link = none ∧ vs = []
  | p :: ps, vs => link = some p ∧ ∃ v rest, vs = v :: rest ∧ (slots p).jiffies = v.fst ∧ (slots p).fn = some v.snd
      ∧ Chain slots (slots p).next ps rest

theorem Chain.congr {slots slots' : Fin TIME_REQUESTS → TimerSlot α} {link : Option (Fin TIME_REQUESTS)}
    {ps : List (Fin TIME_REQUESTS)} {vs : List (Int × α)} (h : Chain slots link ps vs)
    (heq : ∀ p ∈ ps, slots' p = slots p)
    : Chain slots' link ps vs := by
  induction ps generalizing link vs with
  | nil => exact h
  | cons p ps ih =>
    obtain ⟨hlink, v, rest, hvs, hjiffies, hfn, hrest⟩ := h
    have hp := heq p List.mem_cons_self
    refine ⟨hlink, v, rest, hvs, hp ▸ hjiffies, hp ▸ hfn, ?_⟩
    rw [hp]
    exact ih hrest fun q hq => heq q (List.mem_cons_of_mem p hq)

theorem Chain.update {slots : Fin TIME_REQUESTS → TimerSlot α} {link : Option (Fin TIME_REQUESTS)}
    {ps : List (Fin TIME_REQUESTS)} {vs : List (Int × α)} (h : Chain slots link ps vs) {p : Fin TIME_REQUESTS}
    (hp : p ∉ ps) (slot : TimerSlot α)
    : Chain (Function.update slots p slot) link ps vs := by
  apply h.congr
  intro q hq
  have hne : q ≠ p := fun heq => hp (heq ▸ hq)
  exact Function.update_of_ne hne slot slots

theorem Chain.fn_ne_none {slots : Fin TIME_REQUESTS → TimerSlot α} {link : Option (Fin TIME_REQUESTS)}
    {ps : List (Fin TIME_REQUESTS)} {vs : List (Int × α)} (h : Chain slots link ps vs) {p : Fin TIME_REQUESTS}
    (hp : p ∈ ps)
    : (slots p).fn ≠ none := by
  induction ps generalizing link vs with
  | nil => exact absurd hp List.not_mem_nil
  | cons q ps ih =>
    obtain ⟨_, v, rest, _, _, hfn, hrest⟩ := h
    cases List.mem_cons.mp hp with
    | inl heq =>
      rw [heq, hfn]
      exact Option.some_ne_none _
    | inr hmem => exact ih hrest hmem

-- What the loop of `add_timer` does to the list of the payloads.
def sink (v : Int × α) : List (Int × α) → List (Int × α)
  | [] => [v]
  | w :: rest => if w.fst < v.fst then w :: sink (v.fst - w.fst, v.snd) rest else v :: w :: rest

theorem sinkTimer_spec {slots : Fin TIME_REQUESTS → TimerSlot α} {p : Fin TIME_REQUESTS}
    {ps : List (Fin TIME_REQUESTS)} {v : Int × α} {vs : List (Int × α)}
    (h : Chain slots (some p) (p :: ps) (v :: vs)) (hnodup : (p :: ps).Nodup) {fuel : Nat} (hfuel : ps.length < fuel)
    : ∃ slots', sinkTimer slots p fuel = some slots'
      ∧ Chain slots' (some p) (p :: ps) (sink v vs) ∧ ∀ q, q ∉ p :: ps → slots' q = slots q := by
  induction ps generalizing slots p v vs fuel with
  | nil =>
    obtain ⟨_, w, rest, hvs, hjiffies, hfn, hnext, hnil⟩ := h
    cases hvs
    subst hnil
    obtain ⟨fuel, rfl⟩ : ∃ k, fuel = k + 1 := ⟨fuel - 1, by omega⟩
    refine ⟨slots, ?_, ⟨rfl, v, [], rfl, hjiffies, hfn, hnext, rfl⟩, fun _ _ => rfl⟩
    unfold sinkTimer
    rw [hnext]
  | cons q ps ih =>
    obtain ⟨_, _, _, hvs, hjiffies, hfn, hnext, w, rest, hrest, hjiffies', hfn', htail⟩ := h
    cases hvs
    subst hrest
    obtain ⟨fuel, rfl⟩ : ∃ k, fuel = k + 1 := ⟨fuel - 1, by simp at hfuel; omega⟩
    have hpq : p ≠ q := fun heq => (List.nodup_cons.mp hnodup).left (heq ▸ List.mem_cons_self)
    have hp : p ∉ q :: ps := (List.nodup_cons.mp hnodup).left
    have hq : q ∉ ps := (List.nodup_cons.mp (List.nodup_cons.mp hnodup).right).left
    unfold sinkTimer
    rw [hnext]
    dsimp only
    rw [hjiffies, hjiffies', hfn, hfn']
    unfold sink
    by_cases hlt : w.fst < v.fst
    . rw [if_pos hlt, if_pos hlt]
      generalize hslots₁ : Function.update (Function.update slots p _) q _ = slots₁
      have hp₁ : slots₁ p = ⟨w.fst, some w.snd, some q⟩ := by
        rw [← hslots₁, Function.update_of_ne hpq, Function.update_self, hnext]
      have hq₁ : slots₁ q = ⟨v.fst - w.fst, some v.snd, (slots q).next⟩ := by
        rw [← hslots₁, Function.update_self]
      have hframe : ∀ r, r ≠ p → r ≠ q → slots₁ r = slots r := by
        intro r hrp hrq
        rw [← hslots₁, Function.update_of_ne hrq, Function.update_of_ne hrp]
      have hchain : Chain slots₁ (some q) (q :: ps) ((v.fst - w.fst, v.snd) :: rest) := by
        refine ⟨rfl, _, rest, rfl, by rw [hq₁], by rw [hq₁], ?_⟩
        rw [hq₁]
        apply htail.congr
        intro r hr
        exact hframe r (fun heq => hp (heq ▸ List.mem_cons_of_mem q hr)) (fun heq => hq (heq ▸ hr))
      obtain ⟨slots', hsink, hchain', hframe'⟩ := ih hchain (List.nodup_cons.mp hnodup).right (by simpa using hfuel)
      refine ⟨slots', hsink, ?_, ?_⟩
      . have hp' : slots' p = ⟨w.fst, some w.snd, some q⟩ := (hframe' p hp).trans hp₁
        refine ⟨rfl, w, _, rfl, by rw [hp'], by rw [hp'], ?_⟩
        rw [hp']
        exact hchain'
      . intro r hr
        have hrp : r ≠ p := fun heq => hr (heq ▸ List.mem_cons_self)
        have hrq : r ∉ q :: ps := fun hmem => hr (List.mem_cons_of_mem p hmem)
        rw [hframe' r hrq, hframe r hrp fun heq => hrq (heq ▸ List.mem_cons_self)]
    . rw [if_neg hlt, if_neg hlt]
      refine ⟨slots, rfl, ⟨rfl, v, _, rfl, hjiffies, hfn, ?_⟩, fun _ _ => rfl⟩
      rw [hnext]
      exact ⟨rfl, w, rest, rfl, hjiffies', hfn', htail⟩

-- The ticks on which the payloads are called, if the tick before is number `now`.
def due (now : Int) : List (Int × α) → List (Int × α)
  | [] => []
  | v :: rest => (now + v.fst, v.snd) :: due (now + v.fst) rest

theorem due_sink {now : Int} {v : Int × α} {vs : List (Int × α)} (h : ∀ r ∈ due now vs, r.fst < now + v.fst)
    : due now (sink v vs) = due now vs ++ [(now + v.fst, v.snd)] := by
  induction vs generalizing now v with
  | nil => rfl
  | cons w rest ih =>
    have hhead : now + w.fst < now + v.fst := h _ List.mem_cons_self
    have hsum : now + w.fst + (v.fst - w.fst) = now + v.fst := by omega
    have htail := @ih (now + w.fst) (v.fst - w.fst, v.snd) fun r hr => by
      have := h r (List.mem_cons_of_mem _ hr)
      dsimp only
      omega
    unfold sink
    rw [if_pos (by omega)]
    unfold due
    rw [htail, hsum]
    rfl

/--
The pending timers `vs` are strictly ordered by the tick they are due on, and none is overdue.
-/
structure Holds (t : Timers α) (now : Int) (vs : List (Int × α)) : Prop where
  chain : ∃ ps, Chain t.timerList t.nextTimer ps vs ∧ ps.Nodup
  ordered : (due now vs).Pairwise fun r r' => r.fst < r'.fst
  le_due : ∀ r ∈ due now vs, now ≤ r.fst

theorem init_holds : (init : Timers α).Holds 0 [] := by
  refine ⟨⟨[], ⟨rfl, rfl⟩, List.nodup_nil⟩, List.Pairwise.nil, ?_⟩
  intro r hr
  exact absurd hr List.not_mem_nil

theorem Holds.expired_nil {t : Timers α} {now : Int} (h : t.Holds now []) : t.expired = false := by
  obtain ⟨ps, hchain, _⟩ := h.chain
  cases ps with
  | nil =>
    unfold expired
    rw [hchain.left]
  | cons p ps =>
    obtain ⟨_, _, _, hvs, _⟩ := hchain
    simp at hvs

theorem Holds.cons_elim {t : Timers α} {now : Int} {v : Int × α} {rest : List (Int × α)}
    (h : t.Holds now (v :: rest))
    : ∃ p ps, t.nextTimer = some p ∧ (t.timerList p).jiffies = v.fst ∧ (t.timerList p).fn = some v.snd
      ∧ Chain t.timerList (t.timerList p).next ps rest ∧ p ∉ ps ∧ ps.Nodup := by
  obtain ⟨ps, hchain, hnodup⟩ := h.chain
  cases ps with
  | nil => simp [Chain] at hchain
  | cons p ps =>
    obtain ⟨hlink, w, rest, hvs, hjiffies, hfn, hrest⟩ := hchain
    cases hvs
    have hcons := List.nodup_cons.mp hnodup
    exact ⟨p, ps, hlink, hjiffies, hfn, hrest, hcons.left, hcons.right⟩

theorem Holds.expired_cons {t : Timers α} {now : Int} {v : Int × α} {rest : List (Int × α)}
    (h : t.Holds now (v :: rest))
    : t.expired = decide (v.fst ≤ 0) := by
  obtain ⟨p, ps, hlink, hjiffies, _⟩ := h.cons_elim
  unfold expired
  rw [hlink]
  dsimp only
  rw [hjiffies]

theorem Holds.lt_due {t : Timers α} {now : Int} {vs : List (Int × α)} (h : t.Holds now vs) (hexp : t.expired = false)
    : ∀ r ∈ due now vs, now < r.fst := by
  intro r hr
  cases vs with
  | nil => exact absurd hr List.not_mem_nil
  | cons v rest =>
    have hpos : 0 < v.fst := by
      rw [h.expired_cons, decide_eq_false_iff_not] at hexp
      omega
    cases List.mem_cons.mp hr with
    | inl heq =>
      rw [heq]
      dsimp only
      omega
    | inr hmem =>
      have hlt := (List.pairwise_cons.mp h.ordered).left r hmem
      dsimp only at hlt
      omega

theorem Holds.tick {t : Timers α} {now : Int} {vs : List (Int × α)} (h : t.Holds now vs) (hexp : t.expired = false)
    : ∃ vs', t.tick.Holds (now + 1) vs' ∧ due (now + 1) vs' = due now vs := by
  have hlt := h.lt_due hexp
  cases vs with
  | nil =>
    obtain ⟨ps, hchain, hnodup⟩ := h.chain
    cases ps with
    | nil =>
      refine ⟨[], ⟨⟨[], ?_, List.nodup_nil⟩, List.Pairwise.nil, ?_⟩, rfl⟩
      . unfold Timers.tick
        rw [hchain.left]
        exact hchain
      . intro r hr
        exact absurd hr List.not_mem_nil
    | cons p ps =>
      obtain ⟨_, _, _, hvs, _⟩ := hchain
      simp at hvs
  | cons v rest =>
    obtain ⟨p, ps, hlink, hjiffies, hfn, hrest, hp, hnodup⟩ := h.cons_elim
    have hdue : due (now + 1) ((v.fst - 1, v.snd) :: rest) = due now (v :: rest) := by
      rw [due, due, show now + 1 + (v.fst - 1, v.snd).fst = now + v.fst by dsimp only; omega]
    refine ⟨(v.fst - 1, v.snd) :: rest, ⟨⟨p :: ps, ?_, List.nodup_cons.mpr ⟨hp, hnodup⟩⟩, ?_, ?_⟩, hdue⟩
    . unfold Timers.tick
      rw [hlink]
      dsimp only
      refine ⟨rfl, _, rest, rfl, ?_, ?_, ?_⟩
      . rw [Function.update_self, hjiffies]
      . rw [Function.update_self]
        exact hfn
      . rw [Function.update_self]
        exact hrest.update hp _
    . rw [hdue]
      exact h.ordered
    . intro r hr
      rw [hdue] at hr
      exact hlt r hr

theorem Holds.expire {t : Timers α} {now : Int} {vs : List (Int × α)} (h : t.Holds now vs) (hexp : t.expired = true)
    : ∃ t' fn vs', t.expire = some (t', fn) ∧ t'.Holds now vs' ∧ due now vs = (now, fn) :: due now vs'
      ∧ t'.expired = false := by
  cases vs with
  | nil => simp [h.expired_nil] at hexp
  | cons v rest =>
    obtain ⟨p, ps, hlink, hjiffies, hfn, hrest, hp, hnodup⟩ := h.cons_elim
    have hzero : v.fst = 0 := by
      have hle := h.le_due _ List.mem_cons_self
      rw [h.expired_cons, decide_eq_true_eq] at hexp
      dsimp only at hle
      omega
    have hdue : due now (v :: rest) = (now, v.snd) :: due now rest := by
      rw [due, hzero, Int.add_zero]
    have hordered := h.ordered
    rw [hdue, List.pairwise_cons] at hordered
    have hholds : Holds
        { timerList := Function.update t.timerList p { t.timerList p with fn := none },
          nextTimer := (t.timerList p).next } now rest := by
      refine ⟨⟨ps, hrest.update hp _, hnodup⟩, hordered.right, ?_⟩
      intro r hr
      exact Int.le_of_lt (hordered.left r hr)
    refine ⟨_, v.snd, rest, ?_, hholds, hdue, ?_⟩
    . unfold Timers.expire
      rw [hlink]
      dsimp only
      rw [hfn]
    . cases rest with
      | nil => exact hholds.expired_nil
      | cons w rest =>
        have hlt := hordered.left _ List.mem_cons_self
        rw [hholds.expired_cons, decide_eq_false_iff_not]
        dsimp only at hlt
        omega

theorem Holds.addTimer {t : Timers α} {now : Int} {vs : List (Int × α)} (h : t.Holds now vs) {jiffies : Int}
    (hpos : 0 < jiffies) (hfree : ∃ p, (t.timerList p).fn = none) (hlast : ∀ r ∈ due now vs, r.fst < now + jiffies)
    (fn : α)
    : ∃ t' vs', t.addTimer jiffies (some fn) = some (t', []) ∧ t'.Holds now vs'
      ∧ due now vs' = due now vs ++ [(now + jiffies, fn)] := by
  have hfound : ∃ p, (List.finRange TIME_REQUESTS).find? (fun p => (t.timerList p).fn.isNone) = some p := by
    obtain ⟨p, hp⟩ := hfree
    rw [← Option.isSome_iff_exists, List.find?_isSome]
    exact ⟨p, List.mem_finRange p, by rw [hp]; rfl⟩
  obtain ⟨p, hp⟩ := hfound
  have hnone : (t.timerList p).fn = none := by simpa using List.find?_some hp
  obtain ⟨ps, hchain, hnodup⟩ := h.chain
  have hmem : p ∉ ps := fun hmem => hchain.fn_ne_none hmem hnone
  have hnodup' : (p :: ps).Nodup := List.nodup_cons.mpr ⟨hmem, hnodup⟩
  have hlength : ps.length < TIME_REQUESTS := by
    have hcard := hnodup'.length_le_card
    rw [Fintype.card_fin, List.length_cons] at hcard
    exact hcard
  have hnew : Chain (Function.update t.timerList p ⟨jiffies, some fn, t.nextTimer⟩) (some p) (p :: ps)
      ((jiffies, fn) :: vs) := by
    refine ⟨rfl, _, vs, rfl, by rw [Function.update_self], by rw [Function.update_self], ?_⟩
    rw [Function.update_self]
    exact hchain.update hmem _
  obtain ⟨slots, hsink, hsorted, _⟩ := sinkTimer_spec hnew hnodup' hlength
  have hdue : due now (sink (jiffies, fn) vs) = due now vs ++ [(now + jiffies, fn)] := due_sink hlast
  refine ⟨{ timerList := slots, nextTimer := some p }, sink (jiffies, fn) vs, ?_,
    ⟨⟨p :: ps, hsorted, hnodup'⟩, ?_, ?_⟩, hdue⟩
  . unfold Timers.addTimer
    dsimp only
    rw [if_neg (by omega), hp]
    dsimp only
    rw [hsink]
  . rw [hdue, List.pairwise_append]
    refine ⟨h.ordered, List.pairwise_singleton _ _, ?_⟩
    intro r hr r' hr'
    rw [List.mem_singleton.mp hr']
    exact hlast r hr
  . intro r hr
    rw [hdue, List.mem_append, List.mem_singleton] at hr
    cases hr with
    | inl hr => exact h.le_due r hr
    | inr heq =>
      rw [heq]
      dsimp only
      omega

end Timers

inductive TimerAct (α : Type) where
  | add (jiffies : Int) (fn : Option α)
  | tick
  | expire

structure TimerRun (α : Type) where
  timers : Timers α
  now : Int
  registered : List (Int × α)
  called : List (Int × α)

namespace TimerRun

variable {α : Type}

def init : TimerRun α :=
  { timers := Timers.init, now := 0, registered := [], called := [] }

def registration (s : TimerRun α) (jiffies : Int) : Option α → List (Int × α)
  | none => []
  | some fn => [(s.now + jiffies, fn)]

def step (s : TimerRun α) : TimerAct α → Option (TimerRun α)
  | .add jiffies fn =>
    match s.timers.addTimer jiffies fn with
    | none => none
    | some (timers, fns) =>
      some { s with
        timers
        registered := s.registered ++ s.registration jiffies fn
        called := s.called ++ fns.map fun fn => (s.now, fn)
      }
  -- The next tick finds the loop of the last one at its end, or in a function that has nothing to expire after it.
  | .tick => if s.timers.expired then none else some { s with timers := s.timers.tick, now := s.now + 1 }
  | .expire =>
    if s.timers.expired then
      match s.timers.expire with
      | none => none
      | some (timers, fn) => some { s with timers, called := s.called ++ [(s.now, fn)] }
    else
      none

def Requests (s : TimerRun α) : TimerAct α → Prop
  | .add jiffies fn => fn ≠ none → 0 < jiffies ∧ ∃ p, (s.timers.timerList p).fn = none
  | _ => True

def DueLast (s : TimerRun α) : TimerAct α → Prop
  | .add jiffies fn => fn ≠ none → ∀ r ∈ s.registered, r.fst < s.now + jiffies
  | _ => True

instance decidableRequests (s : TimerRun α) : (a : TimerAct α) → Decidable (s.Requests a)
  | .add jiffies fn =>
    inferInstanceAs (Decidable (fn ≠ none → 0 < jiffies ∧ ∃ p, (s.timers.timerList p).fn = none))
  | .tick => isTrue trivial
  | .expire => isTrue trivial

instance decidableDueLast (s : TimerRun α) : (a : TimerAct α) → Decidable (s.DueLast a)
  | .add jiffies fn => inferInstanceAs (Decidable (fn ≠ none → ∀ r ∈ s.registered, r.fst < s.now + jiffies))
  | .tick => isTrue trivial
  | .expire => isTrue trivial

/--
Between two calls of `do_timer` the calls so far are those of the registered timers that are due, each of them
once and on its tick. The loop of `do_timer` ends.
-/
structure Punctual (s : TimerRun α) : Prop where
  called_perm : s.timers.expired = false → s.called.Perm (s.registered.filter fun r => r.fst ≤ s.now)
  loop_ends : s.timers.expired = true → ∃ s', s.step .expire = some s' ∧ s'.timers.expired = false

structure Inv (s : TimerRun α) : Prop where
  holds : ∃ vs, s.timers.Holds s.now vs ∧ s.registered = s.called ++ Timers.due s.now vs
  called_le : ∀ r ∈ s.called, r.fst ≤ s.now

theorem init_inv : (init : TimerRun α).Inv := by
  refine ⟨⟨[], Timers.init_holds, rfl⟩, ?_⟩
  intro r hr
  exact absurd hr List.not_mem_nil

theorem Inv.add {s : TimerRun α} (hinv : s.Inv) {jiffies : Int} {fn : Option α}
    (hreq : s.Requests (.add jiffies fn)) (hlast : s.DueLast (.add jiffies fn))
    : ∃ s', s.step (.add jiffies fn) = some s' ∧ s'.Inv := by
  obtain ⟨vs, hholds, hreg⟩ := hinv.holds
  unfold step
  dsimp only
  cases fn with
  | none =>
    refine ⟨_, rfl, ⟨vs, hholds, ?_⟩, ?_⟩
    . simp [registration, hreg]
    . simpa using hinv.called_le
  | some fn =>
    obtain ⟨hpos, hfree⟩ := hreq (Option.some_ne_none fn)
    have hdue : ∀ r ∈ Timers.due s.now vs, r.fst < s.now + jiffies := by
      intro r hr
      apply hlast (Option.some_ne_none fn)
      rw [hreg]
      exact List.mem_append_right _ hr
    obtain ⟨timers, vs', hadd, hholds', hdue'⟩ := hholds.addTimer hpos hfree hdue fn
    rw [hadd]
    refine ⟨_, rfl, ⟨vs', hholds', ?_⟩, ?_⟩
    . simp [registration, hreg, hdue']
    . simpa using hinv.called_le

theorem Inv.expire {s : TimerRun α} (hinv : s.Inv) (hexp : s.timers.expired = true)
    : ∃ s', s.step .expire = some s' ∧ s'.Inv ∧ s'.timers.expired = false := by
  obtain ⟨vs, hholds, hreg⟩ := hinv.holds
  obtain ⟨timers, fn, vs', hexpire, hholds', hdue, hend⟩ := hholds.expire hexp
  unfold step
  dsimp only
  rw [if_pos hexp, hexpire]
  refine ⟨_, rfl, ⟨⟨vs', hholds', ?_⟩, ?_⟩, hend⟩
  . simp [hreg, hdue]
  . intro r hr
    cases List.mem_append.mp hr with
    | inl hr => exact hinv.called_le r hr
    | inr hr =>
      rw [List.mem_singleton.mp hr]

theorem step_inv (s s' : TimerRun α) (a : TimerAct α) (hinv : s.Inv) (hok : s.Requests a ∧ s.DueLast a)
    (hstep : s.step a = some s')
    : s'.Inv := by
  cases a with
  | add jiffies fn =>
    obtain ⟨s'', hadd, hinv'⟩ := hinv.add hok.left hok.right
    rw [hadd, Option.some.injEq] at hstep
    exact hstep ▸ hinv'
  | tick =>
    unfold step at hstep
    dsimp only at hstep
    split at hstep
    . simp at hstep
    . next hexp =>
      rw [Option.some.injEq] at hstep
      subst hstep
      obtain ⟨vs, hholds, hreg⟩ := hinv.holds
      obtain ⟨vs', hholds', hdue⟩ := hholds.tick (Bool.eq_false_iff.mpr hexp)
      refine ⟨⟨vs', hholds', hdue ▸ hreg⟩, ?_⟩
      intro r hr
      have hle := hinv.called_le r hr
      dsimp only
      omega
  | expire =>
    cases hexp : s.timers.expired with
    | false => simp [step, hexp] at hstep
    | true =>
      obtain ⟨s'', hexpire, hinv', _⟩ := hinv.expire hexp
      rw [hexpire, Option.some.injEq] at hstep
      exact hstep ▸ hinv'

theorem Inv.punctual {s : TimerRun α} (hinv : s.Inv) : s.Punctual := by
  constructor
  . intro hexp
    obtain ⟨vs, hholds, hreg⟩ := hinv.holds
    have hcalled : s.called.filter (fun r => r.fst ≤ s.now) = s.called := by
      apply List.filter_eq_self.mpr
      intro r hr
      exact decide_eq_true (hinv.called_le r hr)
    have hpending : (Timers.due s.now vs).filter (fun r => r.fst ≤ s.now) = [] := by
      apply List.filter_eq_nil_iff.mpr
      intro r hr
      have hlt := hholds.lt_due hexp r hr
      simpa using hlt
    rw [hreg, List.filter_append, hcalled, hpending, List.append_nil]
  . intro hexp
    obtain ⟨s', hexpire, _, hend⟩ := hinv.expire hexp
    exact ⟨s', hexpire, hend⟩

theorem punctual_of_dueLast {s : TimerRun α}
    (h : Run.Reaches step (fun s a => s.Requests a ∧ s.DueLast a) init s)
    : s.Punctual ∧ ∀ a, s.Requests a → s.DueLast a → a ≠ .expire → (a = .tick → s.timers.expired = false) →
      (s.step a).isSome := by
  have hinv : s.Inv := h.invariant Inv init_inv step_inv
  refine ⟨hinv.punctual, ?_⟩
  intro a hreq hlast hexpire htick
  cases a with
  | add jiffies fn =>
    obtain ⟨s', hadd, _⟩ := hinv.add hreq hlast
    rw [hadd]
    rfl
  | tick => simp [step, htick rfl]
  | expire => contradiction

theorem punctual_threeThenFive
    : ∃ s : TimerRun Nat, Run.Reaches step (fun s a => s.Requests a ∧ s.DueLast a) init s
      ∧ s.called = [(3, 0)] ∧ s.Punctual := by
  have hexec : (Run.exec step init [.add 3 (some 0), .tick, .add 5 (some 1), .tick, .tick, .expire]).map TimerRun.called
      = some [(3, 0)] := by
    decide +kernel
  obtain ⟨s, hs, hcalled⟩ := Option.map_eq_some_iff.mp hexec
  have hreach : Run.Reaches step (fun s a => s.Requests a ∧ s.DueLast a) init s :=
    .of_exec (by decide +kernel) hs
  exact ⟨s, hreach, hcalled, (punctual_of_dueLast hreach).left⟩

-- The timer of 3 ticks goes before the one of 5 ticks, which then counts its 5 ticks from there.
theorem not_punctual_of_fiveThenThree
    : ∃ s : TimerRun Nat, Run.Reaches step Requests init s ∧ ¬ s.Punctual := by
  have hexec : (Run.exec step init [.add 5 (some 0), .add 3 (some 1), .tick, .tick, .tick, .expire, .tick, .tick]).map
      (fun s => (s.timers.expired, s.now, s.registered, s.called)) = some (false, 5, [(5, 0), (3, 1)], [(3, 1)]) := by
    decide +kernel
  obtain ⟨s, hs, hview⟩ := Option.map_eq_some_iff.mp hexec
  refine ⟨s, .of_exec (by decide +kernel) hs, ?_⟩
  intro hpunctual
  simp only [Prod.mk.injEq] at hview
  obtain ⟨hexp, hnow, hreg, hcalled⟩ := hview
  have hlength := (hpunctual.called_perm hexp).length_eq
  rw [hnow, hreg, hcalled] at hlength
  simp at hlength

end TimerRun
end OS
