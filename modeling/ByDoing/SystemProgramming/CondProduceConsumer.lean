import ByDoing.Lib.Custody
import ByDoing.Lib.Run

/-!
This module contains one producer and any number of consumers that share a linked list of messages
under a mutex. A step is one statement of one thread. A thread sleeps in `pthread_cond_wait` and may
return from it at any time, signalled or not, once the mutex is free. `malloc` returns any address that
is not in use, also one that has been freed; a message carries the number of the `malloc` that made it,
which tells it from an earlier one at its address.
-/

namespace SystemProgramming
namespace CondProduceConsumer

open Run Custody

structure Msg where
  num : Nat
  next : Option Nat
  serial : Nat
  deriving Repr, DecidableEq

inductive Thread (ι : Type) where
  | producer
  | consumer (i : ι)
  deriving Repr, DecidableEq

-- A place is named after the statement that comes next and carries the thread's `mp`, `none` for `NULL`.
inductive ProducerPc where
  | malloc
  | num (mp : Option Nat)
  | mutexLock (mp : Nat)
  | next (mp : Nat)
  | head (mp : Nat)
  | mutexUnlock
  | condSignal
  | fault
  deriving Repr, DecidableEq

inductive ConsumerPc where
  | mutexLock
  | test
  | condWait
  | asleep
  | awake
  | mp
  | head (mp : Option Nat)
  | mutexUnlock (mp : Nat)
  | printf (mp : Nat)
  | free (mp : Nat)
  | fault
  deriving Repr, DecidableEq

structure Threads (ι : Type) where
  heap : Nat → Option Msg
  head : Option Nat
  mutex : Option (Thread ι)
  producer : ProducerPc
  consumer : ι → ConsumerPc
  produced : Nat
  pushed : List Nat
  taken : List (ι × Msg)

variable {ι : Type} [DecidableEq ι]

def main : Threads ι where
  heap := fun _ => none
  head := none
  mutex := none
  producer := .malloc
  consumer := fun _ => .mutexLock
  produced := 0
  pushed := []
  taken := []

-- `mp` is what `malloc` returns and `r` what `rand` returns, where the statement calls them.
def producer (s : Threads ι) (mp : Option Nat) (r : Nat) : Option (Threads ι) :=
  match s.producer with
  | .malloc =>
    match mp with
    | none => some { s with producer := .num none }
    | some a =>
      if s.heap a = none then
        some { s with
          heap := Function.update s.heap a (some ⟨0, none, s.produced⟩)
          producer := .num (some a)
          produced := s.produced + 1 }
      else
        none
  | .num p =>
    match p with
    | none => some { s with producer := .fault }
    | some a =>
      match s.heap a with
      | none => some { s with producer := .fault }
      | some m =>
        some { s with
          heap := Function.update s.heap a (some { m with num := r % 1000 + 1 })
          producer := .mutexLock a }
  | .mutexLock a =>
    if s.mutex = none then some { s with mutex := some .producer, producer := .next a } else none
  | .next a =>
    match s.heap a with
    | none => some { s with producer := .fault }
    | some m =>
      some { s with
        heap := Function.update s.heap a (some { m with next := s.head })
        producer := .head a }
  | .head a =>
    some { s with
      head := some a
      producer := .mutexUnlock
      pushed := s.pushed ++ (s.heap a).toList.map Msg.serial }
  | .mutexUnlock => some { s with mutex := none, producer := .condSignal }
  -- A signal wakes nobody who could not have woken up without it.
  | .condSignal => some { s with producer := .malloc }
  | .fault => none

def Threads.goto (s : Threads ι) (i : ι) (pc : ConsumerPc) : Threads ι :=
  { s with consumer := Function.update s.consumer i pc }

def consumer (s : Threads ι) (i : ι) : Option (Threads ι) :=
  match s.consumer i with
  | .mutexLock =>
    if s.mutex = none then some ({ s with mutex := some (.consumer i) }.goto i .test) else none
  | .test => if s.head = none then some (s.goto i .condWait) else some (s.goto i .mp)
  | .condWait => some ({ s with mutex := none }.goto i .asleep)
  | .asleep => some (s.goto i .awake)
  | .awake =>
    if s.mutex = none then some ({ s with mutex := some (.consumer i) }.goto i .test) else none
  | .mp => some (s.goto i (.head s.head))
  | .head p =>
    match p with
    | none => some (s.goto i .fault)
    | some a =>
      match s.heap a with
      | none => some (s.goto i .fault)
      | some m => some ({ s with head := m.next }.goto i (.mutexUnlock a))
  | .mutexUnlock a => some ({ s with mutex := none }.goto i (.printf a))
  | .printf a =>
    match s.heap a with
    | none => some (s.goto i .fault)
    | some m => some ({ s with taken := s.taken ++ [(i, m)] }.goto i (.free a))
  | .free a =>
    match s.heap a with
    | none => some (s.goto i .fault)
    | some _ => some ({ s with heap := Function.update s.heap a none }.goto i .mutexLock)
  | .fault => none

inductive Action (ι : Type) where
  | producer (mp : Option Nat) (r : Nat)
  | consumer (i : ι)
  deriving Repr, DecidableEq

def step (s : Threads ι) : Action ι → Option (Threads ι)
  | .producer mp r => producer s mp r
  | .consumer i => consumer s i

def Chain (heap : Nat → Option Msg) : Option Nat → List Nat → Prop
  | p, [] => p = none
  | p, a :: l => p = some a ∧ ∃ m, heap a = some m ∧ Chain heap m.next l

theorem Chain.update {heap : Nat → Option Msg} {p : Option Nat} {l : List Nat} (h : Chain heap p l) {a : Nat}
    (ha : a ∉ l) (m : Option Msg)
    : Chain (Function.update heap a m) p l := by
  induction l generalizing p with
  | nil => exact h
  | cons b l ih =>
    obtain ⟨hp, m', hm', hchain⟩ := h
    have hne : b ≠ a := fun heq => ha (heq ▸ List.mem_cons_self)
    refine ⟨hp, m', ?_, ih hchain fun hmem => ha (List.mem_cons_of_mem b hmem)⟩
    rw [Function.update_of_ne hne, hm']

namespace ProducerPc

def own : ProducerPc → Option Nat
  | .num p => p
  | .mutexLock a => some a
  | .next a => some a
  | .head a => some a
  | _ => none

def locked : ProducerPc → Bool
  | .next _ => true
  | .head _ => true
  | .mutexUnlock => true
  | _ => false

end ProducerPc

namespace ConsumerPc

def own : ConsumerPc → Option Nat
  | .mutexUnlock a => some a
  | .printf a => some a
  | .free a => some a
  | _ => none

def locked : ConsumerPc → Bool
  | .test => true
  | .condWait => true
  | .mp => true
  | .head _ => true
  | .mutexUnlock _ => true
  | _ => false

def Sees (head : Option Nat) : ConsumerPc → Prop
  | .mp => head ≠ none
  | .head p => p = head ∧ head ≠ none
  | .fault => False
  | _ => True

theorem Sees.of_unlocked {pc : ConsumerPc} {head : Option Nat} (h : pc.Sees head) (hpc : pc.locked = false)
    (head' : Option Nat)
    : pc.Sees head' := by
  cases pc with
  | mp | head => cases hpc
  | fault => exact h
  | _ => trivial

end ConsumerPc

namespace Threads

def table (s : Threads ι) : Thread ι → Option Nat
  | .producer => s.producer.own
  | .consumer i => (s.consumer i).own

def locked (s : Threads ι) : Thread ι → Bool
  | .producer => s.producer.locked
  | .consumer i => (s.consumer i).locked

end Threads

/--
Each address is in one place: free, in the list, or with the thread that has it in its `mp`.
-/
structure Owned (s : Threads ι) (place : Nat → Place (Thread ι)) (l : List Nat) : Prop where
  agrees : Agrees s.table place
  logged : Logged l .out place
  free : ∀ a, s.heap a = none ↔ place a = .gone
  placed : ∀ a, place a ≠ .fresh
  chain : Chain s.heap s.head l
  owner : ∀ t, s.locked t = true → s.mutex = some t
  linked : ∀ a, s.producer = .head a → ∃ m, s.heap a = some m ∧ m.next = s.head
  sees : ∀ i, (s.consumer i).Sees s.head

theorem main_owned : Owned (main : Threads ι) (fun _ => .gone) [] where
  agrees := by
    intro t a
    cases t with
    | producer | consumer => simp [Threads.table, main, ProducerPc.own, ConsumerPc.own]
  logged := fun a => rfl
  free := fun a => by simp [main]
  placed := fun a => by simp
  chain := rfl
  owner := by
    intro t ht
    cases t with
    | producer | consumer => cases ht
  linked := by
    intro a ha
    cases ha
  sees := fun i => trivial

namespace Owned

variable {s : Threads ι} {place : Nat → Place (Thread ι)} {l : List Nat}

theorem table_goto (s : Threads ι) (i : ι) (pc : ConsumerPc)
    : (s.goto i pc).table = Function.update s.table (.consumer i) pc.own := by
  funext t
  cases t with
  | producer => rfl
  | consumer j =>
    by_cases hj : j = i
    . subst hj
      simp [Threads.table, Threads.goto]
    . have hne : Thread.consumer j ≠ .consumer i := fun heq => hj (Thread.consumer.inj heq)
      rw [Function.update_of_ne hne]
      simp [Threads.table, Threads.goto, hj]

theorem owner_goto (h : Owned s place l) {i : ι} {pc : ConsumerPc} {mutex : Option (Thread ι)}
    (hmutex : ∀ t, t ≠ .consumer i → s.mutex = some t → mutex = some t)
    (hpc : pc.locked = true → mutex = some (.consumer i)) (t : Thread ι)
    (ht : ({ s with mutex := mutex }.goto i pc).locked t = true)
    : mutex = some t := by
  cases t with
  | producer => exact hmutex .producer (by simp) (h.owner .producer ht)
  | consumer j =>
    by_cases hj : j = i
    . subst hj
      simp only [Threads.locked, Threads.goto, Function.update_self] at ht
      exact hpc ht
    . simp only [Threads.locked, Threads.goto, Function.update_of_ne hj] at ht
      exact hmutex _ (fun heq => hj (Thread.consumer.inj heq)) (h.owner (.consumer j) ht)

theorem sees_of_ne (h : Owned s place l) {t : Thread ι} (ht : s.locked t = true) {j : ι} (hj : t ≠ .consumer j)
    (head' : Option Nat)
    : (s.consumer j).Sees head' := by
  refine (h.sees j).of_unlocked ?_ head'
  cases hlocked : (s.consumer j).locked with
  | false => rfl
  | true =>
    have hmutex := h.owner (.consumer j) hlocked
    rw [h.owner t ht, Option.some.injEq] at hmutex
    exact absurd hmutex hj

theorem goto (h : Owned s place l) {i : ι} {pc : ConsumerPc} {mutex : Option (Thread ι)}
    (hown : pc.own = (s.consumer i).own)
    (hmutex : ∀ t, t ≠ .consumer i → s.mutex = some t → mutex = some t)
    (hlocked : pc.locked = true → mutex = some (.consumer i)) (hsees : pc.Sees s.head)
    : Owned ({ s with mutex := mutex }.goto i pc) place l := by
  refine ⟨?_, h.logged, h.free, h.placed, h.chain, h.owner_goto hmutex hlocked, h.linked, ?_⟩
  . rw [table_goto, hown]
    exact (Function.update_eq_self (Thread.consumer i) s.table).symm ▸ h.agrees
  . intro j
    by_cases hj : j = i
    . subst hj
      simpa [Threads.goto] using hsees
    . simpa [Threads.goto, hj] using h.sees j

theorem not_gone (h : Owned s place l) {t : Thread ι} {a : Nat} (ht : s.table t = some a)
    : ∃ m, s.heap a = some m := by
  rw [h.agrees] at ht
  rw [← Option.ne_none_iff_exists', Ne, h.free, ht]
  simp

theorem not_listed (h : Owned s place l) {t : Thread ι} {a : Nat} (ht : s.table t = some a) : a ∉ l := by
  rw [h.agrees] at ht
  rw [h.logged.mem_iff, ht]
  simp

omit [DecidableEq ι] in
theorem table_free {s : Threads ι} {i : ι} {a : Nat} (hi : s.consumer i = .free a)
    : s.table (.consumer i) = some a := by
  rw [Threads.table, hi]
  rfl

theorem take (h : Owned s place l) {i : ι} {a : Nat} {m : Msg} (hpc : s.consumer i = .head (some a))
    (hm : s.heap a = some m)
    : ∃ place' l', Owned ({ s with head := m.next }.goto i (.mutexUnlock a)) place' l' := by
  have hlocked : s.locked (.consumer i) = true := by
    rw [Threads.locked, hpc]
    rfl
  have hsees := h.sees i
  rw [hpc] at hsees
  have hhead : s.head = some a := hsees.left.symm
  have hchain := h.chain
  rw [hhead] at hchain
  cases l with
  | nil => cases hchain
  | cons b l =>
    obtain ⟨hb, m', hm', hchain⟩ := hchain
    cases Option.some.inj hb
    rw [hm] at hm'
    cases Option.some.inj hm'
    have hout : place a = .out := h.logged.mem_iff.mp List.mem_cons_self
    refine ⟨Function.update place a (.held (.consumer i)), l, ?_, ?_, ?_, ?_, hchain, ?_, ?_, ?_⟩
    . rw [table_goto]
      refine h.agrees.put ?_ ?_
      . rw [Threads.table, hpc]
        rfl
      . intro t
        rw [hout]
        simp
    . exact h.logged.tail (by simp)
    . intro b
      by_cases hb : b = a
      . subst hb
        simp [Threads.goto, hm]
      . rw [Function.update_of_ne hb]
        exact h.free b
    . intro b
      by_cases hb : b = a
      . subst hb
        simp
      . rw [Function.update_of_ne hb]
        exact h.placed b
    . exact h.owner_goto (fun t _ ht => ht) fun _ => h.owner _ hlocked
    . intro b hb
      have hproducer : s.locked .producer = true := by
        rw [Threads.locked, show s.producer = .head b from hb]
        rfl
      have hmutex := h.owner _ hproducer
      rw [h.owner _ hlocked] at hmutex
      cases hmutex
    . intro j
      by_cases hj : j = i
      . subst hj
        simp [Threads.goto, ConsumerPc.Sees]
      . simp only [Threads.goto, Function.update_of_ne hj]
        refine h.sees_of_ne hlocked ?_ _
        exact fun heq => hj (Thread.consumer.inj heq).symm

theorem release (h : Owned s place l) {i : ι} {a : Nat} (hpc : s.consumer i = .free a)
    : ∃ place' l', Owned ({ s with heap := Function.update s.heap a none }.goto i .mutexLock) place' l' := by
  have hown : s.table (.consumer i) = some a := by
    rw [Threads.table, hpc]
    rfl
  have hheld := (h.agrees _ _).mp hown
  refine ⟨Place.relocate (.held (.consumer i)) .gone place, l, ?_, ?_, ?_, ?_, ?_, ?_, ?_, ?_⟩
  . rw [table_goto]
    exact h.agrees.clear (by simp)
  . exact h.logged.relocate (by simp) (by simp)
  . intro b
    by_cases hb : b = a
    . subst hb
      simp [Threads.goto, Place.relocate, hheld]
    . have hnot : place b ≠ .held (.consumer i) := by
        rw [Ne, ← h.agrees, hown, Option.some.injEq]
        exact Ne.symm hb
      simp only [Threads.goto, Place.relocate, if_neg hnot, Function.update_of_ne hb]
      exact h.free b
  . intro b
    unfold Place.relocate
    split
    . simp
    . exact h.placed b
  . exact h.chain.update (h.not_listed hown) none
  . refine h.owner_goto (fun t _ ht => ht) ?_
    intro hlocked
    cases hlocked
  . intro b hb
    obtain ⟨m, hm, hnext⟩ := h.linked b hb
    have hb' : s.table .producer = some b := by
      rw [Threads.table, show s.producer = .head b from hb]
      rfl
    have hne : b ≠ a := by
      rintro rfl
      cases h.agrees.unique hown hb'
    refine ⟨m, ?_, hnext⟩
    rw [← hm]
    exact Function.update_of_ne hne _ _
  . intro j
    by_cases hj : j = i
    . subst hj
      simp [Threads.goto, ConsumerPc.Sees]
    . simpa only [Threads.goto, Function.update_of_ne hj] using h.sees j

theorem table_producer (s : Threads ι) (pc : ProducerPc)
    : ({ s with producer := pc } : Threads ι).table = Function.update s.table .producer pc.own := by
  funext t
  cases t with
  | producer => rfl
  | consumer i =>
    have hne : Thread.consumer i ≠ .producer := by simp
    rw [Function.update_of_ne hne]
    rfl

theorem owner_producer (h : Owned s place l) {pc : ProducerPc} {mutex : Option (Thread ι)}
    (hmutex : ∀ t, t ≠ .producer → s.mutex = some t → mutex = some t)
    (hpc : pc.locked = true → mutex = some .producer) (t : Thread ι)
    (ht : ({ s with mutex := mutex, producer := pc } : Threads ι).locked t = true)
    : mutex = some t := by
  cases t with
  | producer => exact hpc ht
  | consumer i => exact hmutex _ (by simp) (h.owner (.consumer i) ht)

theorem advance (h : Owned s place l) {pc : ProducerPc} {mutex : Option (Thread ι)}
    (hown : pc.own = s.producer.own)
    (hmutex : ∀ t, t ≠ .producer → s.mutex = some t → mutex = some t)
    (hlocked : pc.locked = true → mutex = some .producer) (hpc : ∀ a, pc ≠ .head a)
    : Owned { s with mutex := mutex, producer := pc } place l := by
  refine ⟨?_, h.logged, h.free, h.placed, h.chain, h.owner_producer hmutex hlocked, ?_, h.sees⟩
  . have htable := table_producer { s with mutex := mutex } pc
    dsimp only at htable
    rw [htable, hown]
    exact (Function.update_eq_self Thread.producer s.table).symm ▸ h.agrees
  . intro a ha
    exact absurd ha (hpc a)

theorem malloc (h : Owned s place l) {a : Nat} {m : Msg} {produced : Nat} (hpc : s.producer = .malloc)
    (ha : s.heap a = none)
    : ∃ place' l', Owned { s with
        heap := Function.update s.heap a (some m)
        producer := .num (some a)
        produced := produced } place' l' := by
  have hgone := (h.free a).mp ha
  refine ⟨Function.update place a (.held .producer), l, ?_, ?_, ?_, ?_, ?_, ?_, ?_, h.sees⟩
  . have htable := table_producer
      { s with heap := Function.update s.heap a (some m), produced := produced } (.num (some a))
    dsimp only at htable
    rw [htable]
    refine h.agrees.put ?_ ?_
    . rw [Threads.table, hpc]
      rfl
    . intro t
      rw [hgone]
      simp
  . exact h.logged.update (by simp [hgone]) (by simp)
  . intro b
    by_cases hb : b = a
    . subst hb
      simp
    . simp only [Function.update_of_ne hb]
      exact h.free b
  . intro b
    by_cases hb : b = a
    . subst hb
      simp
    . rw [Function.update_of_ne hb]
      exact h.placed b
  . refine h.chain.update ?_ _
    rw [h.logged.mem_iff, hgone]
    simp
  . refine h.owner_producer (fun t _ ht => ht) ?_
    intro hlocked
    cases hlocked
  . intro b hb
    cases hb

theorem fill (h : Owned s place l) {a : Nat} {m m' : Msg} {pc : ProducerPc} (ha : s.producer.own = some a)
    (hm : s.heap a = some m) (hown : pc.own = some a) (hlocked : pc.locked = s.producer.locked)
    (hnext : ∀ b, pc = .head b → m'.next = s.head)
    : Owned { s with heap := Function.update s.heap a (some m'), producer := pc } place l := by
  have htable : s.table .producer = some a := ha
  refine ⟨?_, h.logged, ?_, h.placed, h.chain.update (h.not_listed htable) _, ?_, ?_, h.sees⟩
  . have htable := table_producer { s with heap := Function.update s.heap a (some m') } pc
    dsimp only at htable
    rw [htable, hown, ← ha]
    exact (Function.update_eq_self Thread.producer s.table).symm ▸ h.agrees
  . intro b
    by_cases hb : b = a
    . subst hb
      rw [← h.free]
      simp [hm]
    . simp only [Function.update_of_ne hb]
      exact h.free b
  . refine h.owner_producer (fun t _ ht => ht) ?_
    intro hpc
    rw [hlocked] at hpc
    exact h.owner .producer hpc
  . intro b hb
    have hb : pc = .head b := hb
    have heq : b = a := by
      rw [hb] at hown
      exact Option.some.inj hown
    subst heq
    exact ⟨m', Function.update_self _ _ _, hnext b hb⟩

theorem push (h : Owned s place l) {a : Nat} {pushed : List Nat} (hpc : s.producer = .head a)
    : ∃ place' l', Owned { s with head := some a, producer := .mutexUnlock, pushed := pushed } place' l' := by
  have hlocked : s.locked .producer = true := by
    rw [Threads.locked, hpc]
    rfl
  have htable : s.table .producer = some a := by
    rw [Threads.table, hpc]
    rfl
  obtain ⟨m, hm, hnext⟩ := h.linked a hpc
  refine ⟨Place.relocate (.held .producer) .out place, a :: l, ?_, ?_, ?_, ?_, ⟨rfl, m, hm, ?_⟩, ?_, ?_, ?_⟩
  . have hnew := table_producer { s with head := some a, pushed := pushed } .mutexUnlock
    dsimp only at hnew
    rw [hnew]
    exact h.agrees.clear (by simp)
  . have hlogged := h.logged.append h.agrees (i := .producer) (by simp)
    rw [htable] at hlogged
    exact hlogged.perm (List.perm_append_singleton a l).symm
  . intro b
    unfold Place.relocate
    split
    . next hheld =>
      rw [h.free, hheld]
      simp
    . exact h.free b
  . intro b
    unfold Place.relocate
    split
    . simp
    . exact h.placed b
  . rw [hnext]
    exact h.chain
  . exact h.owner_producer (fun t _ ht => ht) fun _ => h.owner _ hlocked
  . intro b hb
    cases hb
  . intro j
    exact h.sees_of_ne hlocked (by simp) _

theorem mutex_ne (h : Owned s place l) {t : Thread ι} (ht : s.locked t = true) {mutex : Option (Thread ι)}
    (t' : Thread ι) (hne : t' ≠ t) (ht' : s.mutex = some t')
    : mutex = some t' := by
  rw [h.owner t ht, Option.some.injEq] at ht'
  exact absurd ht'.symm hne

theorem consumer_step (h : Owned s place l) {i : ι} {s' : Threads ι} (hs : consumer s i = some s')
    : ∃ place' l', Owned s' place' l' := by
  have hsees := h.sees i
  have hlocked : s.locked (.consumer i) = (s.consumer i).locked := rfl
  unfold consumer at hs
  cases hpc : s.consumer i with
  | mutexLock | awake =>
    simp only [hpc, Option.ite_none_right_eq_some, Option.some.injEq] at hs
    obtain ⟨hfree, rfl⟩ := hs
    refine ⟨place, l, h.goto (by rw [hpc]; rfl) ?_ (fun _ => rfl) trivial⟩
    intro t _ ht
    rw [hfree] at ht
    cases ht
  | test =>
    rw [hpc] at hlocked
    simp only [hpc] at hs
    split at hs
    . cases hs
      exact ⟨place, l, h.goto (by rw [hpc]; rfl) (fun _ _ ht => ht) (fun _ => h.owner _ hlocked) trivial⟩
    . next hhead =>
      cases hs
      exact ⟨place, l, h.goto (by rw [hpc]; rfl) (fun _ _ ht => ht) (fun _ => h.owner _ hlocked) hhead⟩
  | condWait | mutexUnlock =>
    rw [hpc] at hlocked
    simp only [hpc, Option.some.injEq] at hs
    subst hs
    exact ⟨place, l, h.goto (by rw [hpc]; rfl) (h.mutex_ne hlocked) (fun hpc => by cases hpc) trivial⟩
  | asleep =>
    simp only [hpc, Option.some.injEq] at hs
    subst hs
    exact ⟨place, l, h.goto (by rw [hpc]; rfl) (fun _ _ ht => ht) (fun hpc => by cases hpc) trivial⟩
  | mp =>
    rw [hpc] at hlocked hsees
    simp only [hpc, Option.some.injEq] at hs
    subst hs
    exact ⟨place, l, h.goto (by rw [hpc]; rfl) (fun _ _ ht => ht) (fun _ => h.owner _ hlocked) ⟨rfl, hsees⟩⟩
  | head p =>
    rw [hpc] at hlocked hsees
    obtain ⟨rfl, hhead⟩ := hsees
    obtain ⟨a, ha⟩ := Option.ne_none_iff_exists'.mp hhead
    rw [ha] at hpc
    have hm : ∃ m, s.heap a = some m := by
      have hchain := h.chain
      rw [ha] at hchain
      cases l with
      | nil => cases hchain
      | cons b l =>
        obtain ⟨hb, m, hm, _⟩ := hchain
        cases Option.some.inj hb
        exact ⟨m, hm⟩
    obtain ⟨m, hm⟩ := hm
    simp only [hpc, hm, Option.some.injEq] at hs
    subst hs
    exact h.take hpc hm
  | printf a =>
    have hown : s.table (.consumer i) = some a := by
      rw [Threads.table, hpc]
      rfl
    obtain ⟨m, hm⟩ := h.not_gone hown
    simp only [hpc, hm, Option.some.injEq] at hs
    subst hs
    have hnext := h.goto (show (ConsumerPc.free a).own = _ by rw [hpc]; rfl) (fun _ _ ht => ht)
      (fun hpc => by cases hpc) trivial
    exact ⟨place, l, hnext.agrees, hnext.logged, hnext.free, hnext.placed, hnext.chain, hnext.owner,
      hnext.linked, hnext.sees⟩
  | free a =>
    have hown : s.table (.consumer i) = some a := by
      rw [Threads.table, hpc]
      rfl
    obtain ⟨m, hm⟩ := h.not_gone hown
    simp only [hpc, hm, Option.some.injEq] at hs
    subst hs
    exact h.release hpc
  | fault =>
    rw [hpc] at hsees
    cases hsees

theorem producer_step (h : Owned s place l) {mp : Option Nat} {r : Nat} {s' : Threads ι}
    (hs : producer s mp r = some s')
    : ∃ place' l', Owned s' place' l' := by
  have hlocked : s.locked .producer = s.producer.locked := rfl
  unfold producer at hs
  cases hpc : s.producer with
  | malloc =>
    cases mp with
    | none =>
      simp only [hpc, Option.some.injEq] at hs
      subst hs
      exact ⟨place, l, h.advance (by rw [hpc]; rfl) (fun _ _ ht => ht) (fun hpc => by cases hpc) (by simp)⟩
    | some a =>
      simp only [hpc, Option.ite_none_right_eq_some, Option.some.injEq] at hs
      obtain ⟨ha, rfl⟩ := hs
      exact h.malloc hpc ha
  | num p =>
    cases p with
    | none =>
      simp only [hpc, Option.some.injEq] at hs
      subst hs
      exact ⟨place, l, h.advance (by rw [hpc]; rfl) (fun _ _ ht => ht) (fun hpc => by cases hpc) (by simp)⟩
    | some a =>
      have hown : s.producer.own = some a := by rw [hpc]; rfl
      obtain ⟨m, hm⟩ := h.not_gone (t := .producer) hown
      simp only [hpc, hm, Option.some.injEq] at hs
      subst hs
      exact ⟨place, l, h.fill hown hm rfl (by rw [hpc]; rfl) (fun b hb => by cases hb)⟩
  | mutexLock a =>
    simp only [hpc, Option.ite_none_right_eq_some, Option.some.injEq] at hs
    obtain ⟨hfree, rfl⟩ := hs
    refine ⟨place, l, h.advance (by rw [hpc]; rfl) ?_ (fun _ => rfl) (by simp)⟩
    intro t _ ht
    rw [hfree] at ht
    cases ht
  | next a =>
    have hown : s.producer.own = some a := by rw [hpc]; rfl
    obtain ⟨m, hm⟩ := h.not_gone (t := .producer) hown
    simp only [hpc, hm, Option.some.injEq] at hs
    subst hs
    exact ⟨place, l, h.fill hown hm rfl (by rw [hpc]; rfl) (fun _ _ => rfl)⟩
  | head a =>
    simp only [hpc, Option.some.injEq] at hs
    subst hs
    exact h.push hpc
  | mutexUnlock =>
    rw [hpc] at hlocked
    simp only [hpc, Option.some.injEq] at hs
    subst hs
    exact ⟨place, l, h.advance (by rw [hpc]; rfl) (h.mutex_ne hlocked) (fun hpc => by cases hpc) (by simp)⟩
  | condSignal =>
    simp only [hpc, Option.some.injEq] at hs
    subst hs
    exact ⟨place, l, h.advance (by rw [hpc]; rfl) (fun _ _ ht => ht) (fun hpc => by cases hpc) (by simp)⟩
  | fault => simp [hpc] at hs

end Owned

def Threads.served (s : Threads ι) : List Nat :=
  s.taken.map fun p => p.snd.serial

structure Delivered (s : Threads ι) : Prop where
  unique : ∀ a b m m', s.heap a = some m → s.heap b = some m' → m.serial = m'.serial → a = b
  lt_produced : ∀ a m, s.heap a = some m → m.serial < s.produced
  nodup : s.served.Nodup
  served_lt : ∀ r ∈ s.served, r < s.produced
  free_of_served : ∀ a m, s.heap a = some m → m.serial ∈ s.served → ∃ i, s.consumer i = .free a
  served_of_free : ∀ i a m, s.consumer i = .free a → s.heap a = some m → m.serial ∈ s.served
  pushed : ∀ r ∈ s.pushed,
    r ∈ s.served ∨ ∃ a m, s.heap a = some m ∧ m.serial = r ∧ s.producer.own ≠ some a

omit [DecidableEq ι] in
theorem main_delivered : Delivered (main : Threads ι) where
  unique := fun a b m m' ha => by cases ha
  lt_produced := fun a m ha => by cases ha
  nodup := List.nodup_nil
  served_lt := fun r hr => by cases hr
  free_of_served := fun a m ha => by cases ha
  served_of_free := fun i a m hi => by cases hi
  pushed := fun r hr => by cases hr

theorem update_eq_some {heap : Nat → Option Msg} {a b : Nat} {m m' : Msg}
    (h : Function.update heap a (some m) b = some m')
    : (b = a ∧ m = m') ∨ (b ≠ a ∧ heap b = some m') := by
  by_cases hb : b = a
  . subst hb
    rw [Function.update_self, Option.some.injEq] at h
    exact .inl ⟨rfl, h⟩
  . rw [Function.update_of_ne hb] at h
    exact .inr ⟨hb, h⟩

namespace Delivered

variable {s : Threads ι} {place : Nat → Place (Thread ι)} {l : List Nat}

theorem goto (h : Delivered s) {i : ι} {pc : ConsumerPc} {mutex : Option (Thread ι)} {head : Option Nat}
    (hold : ∀ a, s.consumer i ≠ .free a) (hnew : ∀ a, pc ≠ .free a)
    : Delivered ({ s with mutex := mutex, head := head }.goto i pc) := by
  refine ⟨h.unique, h.lt_produced, h.nodup, h.served_lt, ?_, ?_, h.pushed⟩
  . intro a m hm hserved
    obtain ⟨j, hj⟩ := h.free_of_served a m hm hserved
    have hne : j ≠ i := by
      rintro rfl
      exact hold a hj
    exact ⟨j, by simpa [Threads.goto, hne] using hj⟩
  . intro j a m hj hm
    by_cases hne : j = i
    . subst hne
      simp only [Threads.goto, Function.update_self] at hj
      exact absurd hj (hnew a)
    . simp only [Threads.goto, Function.update_of_ne hne] at hj
      exact h.served_of_free j a m hj hm

omit [DecidableEq ι] in
theorem advance (h : Delivered s) {pc : ProducerPc} {mutex : Option (Thread ι)} (hown : pc.own = s.producer.own)
    : Delivered { s with mutex := mutex, producer := pc } :=
  ⟨h.unique, h.lt_produced, h.nodup, h.served_lt, h.free_of_served, h.served_of_free, hown ▸ h.pushed⟩

theorem malloc (h : Delivered s) (howned : Owned s place l) {a num : Nat} {next : Option Nat}
    (ha : s.heap a = none)
    : Delivered { s with
        heap := Function.update s.heap a (some ⟨num, next, s.produced⟩)
        producer := .num (some a)
        produced := s.produced + 1 } := by
  refine ⟨?_, ?_, h.nodup, ?_, ?_, ?_, ?_⟩
  . intro b c m m' hm hm' heq
    obtain ⟨rfl, rfl⟩ | ⟨_, hb⟩ := update_eq_some hm
    . obtain ⟨rfl, rfl⟩ | ⟨_, hc⟩ := update_eq_some hm'
      . rfl
      . exact absurd (heq ▸ h.lt_produced c m' hc) (Nat.lt_irrefl _)
    . obtain ⟨rfl, rfl⟩ | ⟨_, hc⟩ := update_eq_some hm'
      . have hlt := h.lt_produced b m hb
        rw [heq] at hlt
        exact absurd hlt (Nat.lt_irrefl _)
      . exact h.unique b c m m' hb hc heq
  . intro b m hm
    obtain ⟨rfl, rfl⟩ | ⟨_, hm⟩ := update_eq_some hm
    . exact Nat.lt_succ_self _
    . exact Nat.lt_succ_of_lt (h.lt_produced b m hm)
  . intro r hr
    exact Nat.lt_succ_of_lt (h.served_lt r hr)
  . intro b m hm hserved
    obtain ⟨rfl, rfl⟩ | ⟨_, hm⟩ := update_eq_some hm
    . exact absurd (h.served_lt _ hserved) (Nat.lt_irrefl _)
    . exact h.free_of_served b m hm hserved
  . intro i b m hi hm
    obtain ⟨rfl, rfl⟩ | ⟨_, hm⟩ := update_eq_some hm
    . obtain ⟨m, hm⟩ := howned.not_gone (Owned.table_free hi)
      rw [ha] at hm
      cases hm
    . exact h.served_of_free i b m hi hm
  . intro r hr
    obtain hserved | ⟨b, m, hm, hserial, _⟩ := h.pushed r hr
    . exact .inl hserved
    . have hb : b ≠ a := by
        rintro rfl
        rw [ha] at hm
        cases hm
      refine .inr ⟨b, m, ?_, hserial, ?_⟩
      . exact (Function.update_of_ne hb _ _).trans hm
      . rw [ProducerPc.own, Ne, Option.some.injEq]
        exact Ne.symm hb

omit [DecidableEq ι] in
theorem fill (h : Delivered s) {a : Nat} {m m' : Msg} {pc : ProducerPc} (ha : s.producer.own = some a)
    (hm : s.heap a = some m) (hserial : m'.serial = m.serial) (hown : pc.own = some a)
    : Delivered { s with heap := Function.update s.heap a (some m'), producer := pc } := by
  have hback : ∀ b m₁, Function.update s.heap a (some m') b = some m₁ →
      ∃ m₂, s.heap b = some m₂ ∧ m₂.serial = m₁.serial := by
    intro b m₁ hm₁
    obtain ⟨rfl, rfl⟩ | ⟨_, hm₁⟩ := update_eq_some hm₁
    . exact ⟨m, hm, hserial.symm⟩
    . exact ⟨m₁, hm₁, rfl⟩
  refine ⟨?_, ?_, h.nodup, h.served_lt, ?_, ?_, ?_⟩
  . intro b c m₁ m₂ hm₁ hm₂ heq
    obtain ⟨m₁', hm₁', hserial₁⟩ := hback b m₁ hm₁
    obtain ⟨m₂', hm₂', hserial₂⟩ := hback c m₂ hm₂
    exact h.unique b c m₁' m₂' hm₁' hm₂' (hserial₁.trans (heq.trans hserial₂.symm))
  . intro b m₁ hm₁
    obtain ⟨m₂, hm₂, heq⟩ := hback b m₁ hm₁
    exact heq ▸ h.lt_produced b m₂ hm₂
  . intro b m₁ hm₁ hserved
    obtain ⟨m₂, hm₂, heq⟩ := hback b m₁ hm₁
    exact h.free_of_served b m₂ hm₂ (heq ▸ hserved)
  . intro i b m₁ hi hm₁
    obtain ⟨m₂, hm₂, heq⟩ := hback b m₁ hm₁
    exact heq ▸ h.served_of_free i b m₂ hi hm₂
  . intro r hr
    obtain hserved | ⟨b, m₁, hm₁, heq, hne⟩ := h.pushed r hr
    . exact .inl hserved
    . have hb : b ≠ a := by
        rintro rfl
        exact hne ha
      refine .inr ⟨b, m₁, (Function.update_of_ne hb _ _).trans hm₁, heq, ?_⟩
      rw [hown, ← ha]
      exact hne

omit [DecidableEq ι] in
theorem push (h : Delivered s) {a : Nat} {m : Msg} {head : Option Nat} (hm : s.heap a = some m)
    : Delivered { s with head := head, producer := .mutexUnlock, pushed := s.pushed ++ [m.serial] } := by
  refine ⟨h.unique, h.lt_produced, h.nodup, h.served_lt, h.free_of_served, h.served_of_free, ?_⟩
  intro r hr
  rw [List.mem_append, List.mem_singleton] at hr
  obtain hr | rfl := hr
  . obtain hserved | ⟨b, m', hm', heq, _⟩ := h.pushed r hr
    . exact .inl hserved
    . exact .inr ⟨b, m', hm', heq, by simp [ProducerPc.own]⟩
  . exact .inr ⟨a, m, hm, rfl, by simp [ProducerPc.own]⟩

theorem print (h : Delivered s) (howned : Owned s place l) {i : ι} {a : Nat} {m : Msg}
    (hpc : s.consumer i = .printf a) (hm : s.heap a = some m)
    : Delivered ({ s with taken := s.taken ++ [(i, m)] }.goto i (.free a)) := by
  have hserved : ({ s with taken := s.taken ++ [(i, m)] }.goto i (.free a)).served = s.served ++ [m.serial] := by
    simp [Threads.served, Threads.goto]
  -- Were it printed already, another consumer would be about to free it.
  have hfresh : m.serial ∉ s.served := by
    intro hmem
    obtain ⟨j, hj⟩ := h.free_of_served a m hm hmem
    have hown : s.table (.consumer i) = some a := by
      rw [Threads.table, hpc]
      rfl
    cases howned.agrees.unique hown (Owned.table_free hj)
    rw [hpc] at hj
    cases hj
  refine ⟨h.unique, h.lt_produced, ?_, ?_, ?_, ?_, ?_⟩
  . rw [hserved, List.nodup_append]
    refine ⟨h.nodup, by simp, ?_⟩
    rintro r hr _ hmem rfl
    rw [List.mem_singleton] at hmem
    exact hfresh (hmem ▸ hr)
  . intro r hr
    rw [hserved, List.mem_append, List.mem_singleton] at hr
    obtain hr | rfl := hr
    . exact h.served_lt r hr
    . exact h.lt_produced a m hm
  . intro b m' hm' hmem
    rw [hserved, List.mem_append, List.mem_singleton] at hmem
    obtain hmem | heq := hmem
    . obtain ⟨j, hj⟩ := h.free_of_served b m' hm' hmem
      have hne : j ≠ i := by
        rintro rfl
        rw [hpc] at hj
        cases hj
      exact ⟨j, (Function.update_of_ne hne _ _).trans hj⟩
    . cases h.unique b a m' m hm' hm heq
      exact ⟨i, Function.update_self _ _ _⟩
  . intro j b m' hj hm'
    rw [hserved, List.mem_append, List.mem_singleton]
    by_cases hne : j = i
    . subst hne
      simp only [Threads.goto, Function.update_self, ConsumerPc.free.injEq] at hj
      subst hj
      cases Option.some.inj (hm.symm.trans hm')
      exact .inr rfl
    . simp only [Threads.goto, Function.update_of_ne hne] at hj
      exact .inl (h.served_of_free j b m' hj hm')
  . intro r hr
    rw [hserved, List.mem_append]
    obtain hmem | hrest := h.pushed r hr
    . exact .inl (.inl hmem)
    . exact .inr hrest

theorem release (h : Delivered s) {i : ι} {a : Nat} (hpc : s.consumer i = .free a)
    : Delivered ({ s with heap := Function.update s.heap a none }.goto i .mutexLock) := by
  have hback : ∀ b m, Function.update s.heap a none b = some m → b ≠ a ∧ s.heap b = some m := by
    intro b m hm
    by_cases hb : b = a
    . subst hb
      simp at hm
    . exact ⟨hb, (Function.update_of_ne hb _ _).symm.trans hm⟩
  refine ⟨?_, ?_, h.nodup, h.served_lt, ?_, ?_, ?_⟩
  . intro b c m m' hm hm' heq
    exact h.unique b c m m' (hback b m hm).right (hback c m' hm').right heq
  . intro b m hm
    exact h.lt_produced b m (hback b m hm).right
  . intro b m hm hserved
    obtain ⟨hb, hm⟩ := hback b m hm
    obtain ⟨j, hj⟩ := h.free_of_served b m hm hserved
    have hne : j ≠ i := by
      rintro rfl
      rw [hpc, ConsumerPc.free.injEq] at hj
      exact hb hj.symm
    exact ⟨j, (Function.update_of_ne hne _ _).trans hj⟩
  . intro j b m hj hm
    by_cases hne : j = i
    . subst hne
      simp [Threads.goto] at hj
    . simp only [Threads.goto, Function.update_of_ne hne] at hj
      exact h.served_of_free j b m hj (hback b m hm).right
  . intro r hr
    obtain hserved | ⟨b, m, hm, rfl, hown⟩ := h.pushed r hr
    . exact .inl hserved
    . by_cases hb : b = a
      . subst hb
        exact .inl (h.served_of_free i b m hpc hm)
      . exact .inr ⟨b, m, (Function.update_of_ne hb _ _).trans hm, rfl, hown⟩

theorem producer_step (h : Delivered s) (howned : Owned s place l) {mp : Option Nat} {r : Nat} {s' : Threads ι}
    (hs : producer s mp r = some s')
    : Delivered s' := by
  unfold producer at hs
  cases hpc : s.producer with
  | malloc =>
    cases mp with
    | none =>
      simp only [hpc, Option.some.injEq] at hs
      subst hs
      exact h.advance (by rw [hpc]; rfl)
    | some a =>
      simp only [hpc, Option.ite_none_right_eq_some, Option.some.injEq] at hs
      obtain ⟨ha, rfl⟩ := hs
      exact h.malloc howned ha
  | num p =>
    cases p with
    | none =>
      simp only [hpc, Option.some.injEq] at hs
      subst hs
      exact h.advance (by rw [hpc]; rfl)
    | some a =>
      have hown : s.producer.own = some a := by rw [hpc]; rfl
      obtain ⟨m, hm⟩ := howned.not_gone (t := .producer) hown
      simp only [hpc, hm, Option.some.injEq] at hs
      subst hs
      exact h.fill hown hm rfl rfl
  | mutexLock a =>
    simp only [hpc, Option.ite_none_right_eq_some, Option.some.injEq] at hs
    obtain ⟨_, rfl⟩ := hs
    exact h.advance (by rw [hpc]; rfl)
  | next a =>
    have hown : s.producer.own = some a := by rw [hpc]; rfl
    obtain ⟨m, hm⟩ := howned.not_gone (t := .producer) hown
    simp only [hpc, hm, Option.some.injEq] at hs
    subst hs
    exact h.fill hown hm rfl rfl
  | head a =>
    obtain ⟨m, hm, _⟩ := howned.linked a hpc
    simp only [hpc, hm, Option.some.injEq] at hs
    subst hs
    exact h.push hm
  | mutexUnlock | condSignal =>
    simp only [hpc, Option.some.injEq] at hs
    subst hs
    exact h.advance (by rw [hpc]; rfl)
  | fault => simp [hpc] at hs

theorem consumer_step (h : Delivered s) (howned : Owned s place l) {i : ι} {s' : Threads ι}
    (hs : consumer s i = some s')
    : Delivered s' := by
  have hsees := howned.sees i
  unfold consumer at hs
  cases hpc : s.consumer i with
  | mutexLock | awake =>
    simp only [hpc, Option.ite_none_right_eq_some, Option.some.injEq] at hs
    obtain ⟨_, rfl⟩ := hs
    exact h.goto (by simp [hpc]) (by simp)
  | test =>
    simp only [hpc] at hs
    split at hs
    all_goals
      cases hs
      exact h.goto (by simp [hpc]) (by simp)
  | condWait | asleep | mp | mutexUnlock =>
    simp only [hpc, Option.some.injEq] at hs
    subst hs
    exact h.goto (by simp [hpc]) (by simp)
  | head p =>
    simp only [hpc] at hs
    split at hs
    . cases hs
      exact h.goto (by simp [hpc]) (by simp)
    . split at hs
      all_goals
        cases hs
        exact h.goto (by simp [hpc]) (by simp)
  | printf a =>
    simp only [hpc] at hs
    split at hs
    . cases hs
      exact h.goto (by simp [hpc]) (by simp)
    . next m hm =>
      cases hs
      exact h.print howned hpc hm
  | free a =>
    obtain ⟨m, hm⟩ := howned.not_gone (Owned.table_free hpc)
    simp only [hpc, hm, Option.some.injEq] at hs
    subst hs
    exact h.release hpc
  | fault =>
    rw [hpc] at hsees
    cases hsees

end Delivered

theorem invariant {s : Threads ι} (h : Reaches step (fun _ _ => True) main s)
    : (∃ place l, Owned s place l) ∧ Delivered s := by
  refine h.invariant (fun s => (∃ place l, Owned s place l) ∧ Delivered s)
    ⟨⟨_, _, main_owned⟩, main_delivered⟩ ?_
  rintro s s' a ⟨⟨place, l, howned⟩, hdelivered⟩ _ hs
  cases a with
  | producer mp r => exact ⟨howned.producer_step hs, hdelivered.producer_step howned hs⟩
  | consumer i => exact ⟨howned.consumer_step hs, hdelivered.consumer_step howned hs⟩

namespace Threads

def Listed (s : Threads ι) (r : Nat) : Prop :=
  ∃ l, Chain s.heap s.head l ∧ ∃ a ∈ l, ∃ m, s.heap a = some m ∧ m.serial = r

def Held (s : Threads ι) (i : ι) (r : Nat) : Prop :=
  ∃ a m, (s.consumer i = .mutexUnlock a ∨ s.consumer i = .printf a) ∧ s.heap a = some m ∧ m.serial = r

end Threads

theorem Chain.unique {heap : Nat → Option Msg} {p : Option Nat} {l l' : List Nat} (h : Chain heap p l)
    (h' : Chain heap p l')
    : l = l' := by
  induction l generalizing p l' with
  | nil =>
    cases l' with
    | nil => rfl
    | cons b l' =>
      cases h
      cases h'.left
  | cons a l ih =>
    obtain ⟨rfl, m, hm, hchain⟩ := h
    cases l' with
    | nil => cases h'
    | cons b l' =>
      obtain ⟨hb, m', hm', hchain'⟩ := h'
      cases hb
      rw [hm] at hm'
      cases hm'
      rw [ih hchain hchain']

namespace Delivered

variable {s : Threads ι} {place : Nat → Place (Thread ι)} {l : List Nat}

omit [DecidableEq ι] in
theorem table_of_held {i : ι} {a : Nat} (hpc : s.consumer i = .mutexUnlock a ∨ s.consumer i = .printf a)
    : s.table (.consumer i) = some a := by
  obtain hpc | hpc := hpc
  all_goals
    rw [Threads.table, hpc]
    rfl

theorem held_unique (h : Delivered s) (howned : Owned s place l) {i j : ι} {r : Nat} (hi : s.Held i r)
    (hj : s.Held j r)
    : i = j := by
  obtain ⟨a, m, hpc, hm, rfl⟩ := hi
  obtain ⟨b, m', hpc', hm', heq⟩ := hj
  cases h.unique a b m m' hm hm' heq.symm
  exact Thread.consumer.inj (howned.agrees.unique (table_of_held hpc) (table_of_held hpc'))

theorem not_served_of_held (h : Delivered s) (howned : Owned s place l) {i : ι} {r : Nat} (hi : s.Held i r)
    : r ∉ s.served := by
  obtain ⟨a, m, hpc, hm, rfl⟩ := hi
  intro hserved
  obtain ⟨j, hj⟩ := h.free_of_served a m hm hserved
  cases howned.agrees.unique (table_of_held hpc) (Owned.table_free hj)
  rw [hj] at hpc
  cases hpc with
  | inl hpc | inr hpc => cases hpc

theorem not_listed_of_held (h : Delivered s) (howned : Owned s place l) {i : ι} {r : Nat} (hi : s.Held i r)
    : ¬ s.Listed r := by
  obtain ⟨a, m, hpc, hm, rfl⟩ := hi
  rintro ⟨l', hchain, b, hb, m', hm', heq⟩
  cases hchain.unique howned.chain
  cases h.unique b a m' m hm' hm heq
  exact howned.not_listed (table_of_held hpc) hb

theorem not_served_of_listed (h : Delivered s) (howned : Owned s place l) {r : Nat} (hr : s.Listed r)
    : r ∉ s.served := by
  obtain ⟨l', hchain, a, ha, m, hm, rfl⟩ := hr
  cases hchain.unique howned.chain
  intro hserved
  obtain ⟨j, hj⟩ := h.free_of_served a m hm hserved
  exact howned.not_listed (Owned.table_free hj) ha

theorem somewhere (h : Delivered s) (howned : Owned s place l) {r : Nat} (hr : r ∈ s.pushed)
    : s.Listed r ∨ (∃ i, s.Held i r) ∨ r ∈ s.served := by
  obtain hserved | ⟨a, m, hm, rfl, hown⟩ := h.pushed r hr
  . exact .inr (.inr hserved)
  . cases hplace : place a with
    | fresh => exact absurd hplace (howned.placed a)
    | gone =>
      rw [← howned.free, hm] at hplace
      cases hplace
    | out => exact .inl ⟨l, howned.chain, a, howned.logged.mem_iff.mpr hplace, m, hm, rfl⟩
    | held t =>
      rw [← howned.agrees] at hplace
      cases t with
      | producer => exact absurd hplace hown
      | consumer i =>
        rw [Threads.table] at hplace
        cases hpc : s.consumer i with
        | mutexUnlock b =>
          rw [hpc] at hplace
          cases hplace
          exact .inr (.inl ⟨i, _, m, .inl hpc, hm, rfl⟩)
        | printf b =>
          rw [hpc] at hplace
          cases hplace
          exact .inr (.inl ⟨i, _, m, .inr hpc, hm, rfl⟩)
        | free b =>
          rw [hpc] at hplace
          cases hplace
          exact .inr (.inr (h.served_of_free i _ m hpc hm))
        | _ =>
          rw [hpc] at hplace
          cases hplace

end Delivered

/--
In every interleaving, with any number of consumers and any wake-ups: no message is printed twice and none
is in two hands or in a hand and the list; a message that was put into the list is there, in the hands of
one consumer, or printed; and no consumer goes through a pointer that is `NULL` or leads to freed memory.
-/
theorem exactly_once {s : Threads ι} (h : Reaches step (fun _ _ => True) main s)
    : s.served.Nodup
      ∧ (∀ i j r, s.Held i r → s.Held j r → i = j)
      ∧ (∀ i r, s.Held i r → r ∉ s.served ∧ ¬ s.Listed r)
      ∧ (∀ r, s.Listed r → r ∉ s.served)
      ∧ (∀ r ∈ s.pushed, s.Listed r ∨ (∃ i, s.Held i r) ∨ r ∈ s.served)
      ∧ ∀ i, s.consumer i ≠ .fault := by
  obtain ⟨⟨place, l, howned⟩, hdelivered⟩ := invariant h
  refine ⟨hdelivered.nodup, ?_, ?_, ?_, ?_, ?_⟩
  . intro i j r
    exact hdelivered.held_unique howned
  . intro i r hi
    exact ⟨hdelivered.not_served_of_held howned hi, hdelivered.not_listed_of_held howned hi⟩
  . intro r
    exact hdelivered.not_served_of_listed howned
  . intro r
    exact hdelivered.somewhere howned
  . intro i hpc
    have hsees := howned.sees i
    rw [hpc] at hsees
    exact hsees

def twoAwake : List (Action Nat) :=
  ([.consumer 0, .consumer 0, .consumer 0, .consumer 1, .consumer 1, .consumer 1] : List (Action Nat))
    ++ List.replicate 7 (Action.producer (some 40) 6)
    ++ ([.consumer 0, .consumer 1, .consumer 0, .consumer 0, .consumer 0, .consumer 0, .consumer 0] : List (Action Nat))
    ++ ([.consumer 1, .consumer 1, .consumer 1, .consumer 0] : List (Action Nat))

theorem exactly_once_twoAwake
    : ∃ s, exec step main twoAwake = some s
        ∧ s.served = [0] ∧ s.head = none ∧ s.consumer 1 = .asleep
        ∧ s.served.Nodup
        ∧ (∀ i j r, s.Held i r → s.Held j r → i = j)
        ∧ (∀ i r, s.Held i r → r ∉ s.served ∧ ¬ s.Listed r)
        ∧ (∀ r, s.Listed r → r ∉ s.served)
        ∧ (∀ r ∈ s.pushed, s.Listed r ∨ (∃ i, s.Held i r) ∨ r ∈ s.served)
        ∧ ∀ i, s.consumer i ≠ .fault := by
  have hrun : (exec step main twoAwake).map (fun s => (s.served, s.head, s.consumer 1)) = some ([0], none, .asleep) := by
    decide +kernel
  obtain ⟨s, hexec, heq⟩ := Option.map_eq_some_iff.mp hrun
  obtain ⟨hserved, heq⟩ := Prod.mk.inj heq
  obtain ⟨hhead, hasleep⟩ := Prod.mk.inj heq
  exact ⟨s, hexec, hserved, hhead, hasleep, exactly_once (.of_exec (allOk_of_forall fun _ _ => trivial) hexec)⟩

end CondProduceConsumer
end SystemProgramming
