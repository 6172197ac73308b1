import Mathlib.Data.List.Infix
import Mathlib.Logic.Function.Basic
import ByDoing.Lib.Run

/-!
This module contains the producer and the consumer that share a ring of `NUM` cells under two
semaphores. A step is one statement of one of the two threads, so that a run is any interleaving of
them. What was stored and what was taken is logged together with the cell.
-/

namespace SystemProgramming
namespace SemProductConsumer

open Run

def NUM : Nat := 5

inductive ProducerPc where
  | semWait
  | store
  | printf
  | semPost
  | advance
  deriving Repr, DecidableEq

inductive ConsumerPc where
  | semWait
  | printf
  | clear
  | semPost
  | advance
  deriving Repr, DecidableEq

structure Ring where
  queue : Nat → Nat
  blankNumber : Nat
  productNumber : Nat
  producer : ProducerPc
  producerI : Nat
  consumer : ConsumerPc
  consumerI : Nat
  stored : List (Nat × Nat)
  taken : List (Nat × Nat)

/--
The state `main` sets up before it creates the threads: a global array of zeros, `NUM` blanks, no product.
-/
def main : Ring where
  queue := fun _ => 0
  blankNumber := NUM
  productNumber := 0
  producer := .semWait
  producerI := 0
  consumer := .semWait
  consumerI := 0
  stored := []
  taken := []

-- `r` is what `rand` returns; a thread that waits on a semaphore at zero has no step.
def producer (s : Ring) (r : Nat) : Option Ring :=
  match s.producer with
  | .semWait =>
    if s.blankNumber = 0 then none
    else some { s with blankNumber := s.blankNumber - 1, producer := .store }
  | .store =>
    let num := r % 1000 + 1
    some { s with
      queue := Function.update s.queue s.producerI num
      producer := .printf
      stored := s.stored ++ [(s.producerI, num)] }
  | .printf => some { s with producer := .semPost }
  | .semPost => some { s with productNumber := s.productNumber + 1, producer := .advance }
  | .advance => some { s with producerI := (s.producerI + 1) % NUM, producer := .semWait }

-- The value is taken when it is read for `printf`; the cell is cleared by the statement behind it.
def consumer (s : Ring) : Option Ring :=
  match s.consumer with
  | .semWait =>
    if s.productNumber = 0 then none
    else some { s with productNumber := s.productNumber - 1, consumer := .printf }
  | .printf =>
    some { s with
      consumer := .clear
      taken := s.taken ++ [(s.consumerI, s.queue s.consumerI)] }
  | .clear => some { s with queue := Function.update s.queue s.consumerI 0, consumer := .semPost }
  | .semPost => some { s with blankNumber := s.blankNumber + 1, consumer := .advance }
  | .advance => some { s with consumerI := (s.consumerI + 1) % NUM, consumer := .semWait }

inductive Action where
  | producer (r : Nat)
  | consumer
  deriving Repr, DecidableEq

def step (s : Ring) : Action → Option Ring
  | .producer r => producer s r
  | .consumer => consumer s

namespace ProducerPc

def claimed : ProducerPc → Nat
  | .store => 1
  | _ => 0

def unposted : ProducerPc → Nat
  | .printf => 1
  | .semPost => 1
  | _ => 0

def behind : ProducerPc → Nat
  | .printf => 1
  | .semPost => 1
  | .advance => 1
  | _ => 0

end ProducerPc

namespace ConsumerPc

def claimed : ConsumerPc → Nat
  | .printf => 1
  | _ => 0

def uncleared : ConsumerPc → Nat
  | .clear => 1
  | _ => 0

def unposted : ConsumerPc → Nat
  | .clear => 1
  | .semPost => 1
  | _ => 0

def behind : ConsumerPc → Nat
  | .clear => 1
  | .semPost => 1
  | .advance => 1
  | _ => 0

end ConsumerPc

structure Counted (s : Ring) : Prop where
  blank : s.blankNumber + s.stored.length + s.producer.claimed + s.consumer.unposted
    = NUM + s.taken.length
  product : s.productNumber + s.taken.length + s.consumer.claimed + s.producer.unposted
    = s.stored.length
  producerI : s.producerI < NUM ∧ (s.producerI + s.producer.behind) % NUM = s.stored.length % NUM
  consumerI : s.consumerI < NUM ∧ (s.consumerI + s.consumer.behind) % NUM = s.taken.length % NUM
  behind : s.consumer.behind ≤ s.taken.length

structure Filled (s : Ring) : Prop where
  order : s.taken <+: s.stored
  cell : ∀ k (h : k < s.stored.length), s.stored[k].fst = k % NUM
  held : ∀ k (h : k < s.stored.length), s.taken.length ≤ k + s.consumer.uncleared →
    s.queue (k % NUM) = s.stored[k].snd
  clear : ∀ k, s.stored.length ≤ k → k + s.consumer.uncleared < s.taken.length + NUM →
    s.queue (k % NUM) = 0

theorem ConsumerPc.uncleared_le_unposted (pc : ConsumerPc) : pc.uncleared ≤ pc.unposted := by
  cases pc with
  | clear => exact Nat.le_refl 1
  | _ => exact Nat.zero_le _

theorem main_counted : Counted main where
  blank := rfl
  product := rfl
  producerI := ⟨by decide, rfl⟩
  consumerI := ⟨by decide, rfl⟩
  behind := Nat.le_refl 0

theorem main_filled : Filled main where
  order := List.nil_prefix
  cell := fun k h => absurd h (Nat.not_lt_zero k)
  held := fun k h => absurd h (Nat.not_lt_zero k)
  clear := fun _ _ _ => rfl

theorem producer_counted {s s' : Ring} {r : Nat} (h : Counted s) (hs : producer s r = some s') : Counted s' := by
  obtain ⟨hblank, hproduct, hproducer, hconsumer, hbehind⟩ := h
  unfold producer at hs
  unfold NUM at hblank hproducer hconsumer
  cases hpc : s.producer with
  | semWait =>
    simp only [hpc] at hs
    split at hs
    . simp at hs
    . simp only [Option.some.injEq] at hs
      subst hs
      simp only [hpc, ProducerPc.claimed, ProducerPc.unposted, ProducerPc.behind] at hblank hproduct hproducer
      constructor <;> simp only [ProducerPc.claimed, ProducerPc.unposted, ProducerPc.behind, NUM] <;> omega
  | _ =>
    simp only [hpc, Option.some.injEq] at hs
    subst hs
    simp only [hpc, ProducerPc.claimed, ProducerPc.unposted, ProducerPc.behind] at hblank hproduct hproducer
    constructor <;>
      simp only [ProducerPc.claimed, ProducerPc.unposted, ProducerPc.behind, NUM, List.length_append,
        List.length_singleton] <;> omega

theorem consumer_counted {s s' : Ring} (h : Counted s) (hs : consumer s = some s') : Counted s' := by
  obtain ⟨hblank, hproduct, hproducer, hconsumer, hbehind⟩ := h
  unfold consumer at hs
  unfold NUM at hblank hproducer hconsumer
  cases hpc : s.consumer with
  | semWait =>
    simp only [hpc] at hs
    split at hs
    . simp at hs
    . simp only [Option.some.injEq] at hs
      subst hs
      simp only [hpc, ConsumerPc.claimed, ConsumerPc.unposted, ConsumerPc.behind] at hblank hproduct hconsumer hbehind
      constructor <;> simp only [ConsumerPc.claimed, ConsumerPc.unposted, ConsumerPc.behind, NUM] <;> omega
  | _ =>
    simp only [hpc, Option.some.injEq] at hs
    subst hs
    simp only [hpc, ConsumerPc.claimed, ConsumerPc.unposted, ConsumerPc.behind] at hblank hproduct hconsumer hbehind
    constructor <;>
      simp only [ConsumerPc.claimed, ConsumerPc.unposted, ConsumerPc.behind, NUM, List.length_append,
        List.length_singleton] <;> omega

theorem Counted.at_store {s : Ring} (h : Counted s) (hpc : s.producer = .store)
    : s.producerI = s.stored.length % NUM
      ∧ s.stored.length + s.consumer.uncleared < s.taken.length + NUM := by
  obtain ⟨hblank, _, hproducer, _, _⟩ := h
  have hle := s.consumer.uncleared_le_unposted
  simp only [hpc, ProducerPc.claimed, ProducerPc.behind] at hblank hproducer
  refine ⟨?_, by omega⟩
  rw [← hproducer.right, Nat.add_zero, Nat.mod_eq_of_lt hproducer.left]

theorem Counted.at_printf {s : Ring} (h : Counted s) (hpc : s.consumer = .printf)
    : s.consumerI = s.taken.length % NUM ∧ s.taken.length < s.stored.length := by
  obtain ⟨_, hproduct, _, hconsumer, _⟩ := h
  simp only [hpc, ConsumerPc.claimed, ConsumerPc.behind] at hproduct hconsumer
  refine ⟨?_, by omega⟩
  rw [← hconsumer.right, Nat.add_zero, Nat.mod_eq_of_lt hconsumer.left]

theorem Counted.at_clear {s : Ring} (h : Counted s) (hpc : s.consumer = .clear)
    : 0 < s.taken.length ∧ s.consumerI = (s.taken.length - 1) % NUM
      ∧ s.stored.length < s.taken.length + NUM := by
  obtain ⟨hblank, _, _, hconsumer, hbehind⟩ := h
  simp only [hpc, ConsumerPc.unposted, ConsumerPc.behind] at hblank hconsumer hbehind
  unfold NUM at *
  omega

theorem mod_ne_mod {j k : Nat} (hlt : j < k) (hle : k < j + NUM) : j % NUM ≠ k % NUM := by
  unfold NUM at *
  omega

theorem snoc_getElem_prefix {α : Type} {as bs : List α} (h : as <+: bs) (hlt : as.length < bs.length)
    : as ++ [bs[as.length]] <+: bs := by
  obtain ⟨cs, rfl⟩ := h
  cases cs with
  | nil => simp at hlt
  | cons c cs => simp

theorem Filled.store {s : Ring} (h : Filled s) (hcounted : Counted s) (hpc : s.producer = .store) (num : Nat)
    : Filled { s with
        queue := Function.update s.queue s.producerI num
        producer := .printf
        stored := s.stored ++ [(s.producerI, num)] } := by
  obtain ⟨hi, hroom⟩ := hcounted.at_store hpc
  have hlen := h.order.length_le
  refine ⟨h.order.trans (List.prefix_append _ _), ?_, ?_, ?_⟩
  . intro k hk
    rw [List.getElem_append]
    split
    . next hlt => exact h.cell k hlt
    . next hge =>
      rw [List.length_append, List.length_singleton] at hk
      rw [List.getElem_singleton, hi, show k = s.stored.length by omega]
  . intro k hk hle
    rw [List.length_append, List.length_singleton] at hk
    dsimp only at hle ⊢
    rw [List.getElem_append]
    split
    . next hlt =>
      rw [Function.update_of_ne, h.held k hlt hle]
      rw [hi]
      exact mod_ne_mod hlt (by omega)
    . next hge => rw [List.getElem_singleton, hi, show k = s.stored.length by omega, Function.update_self]
  . intro k hk hlt
    rw [List.length_append, List.length_singleton] at hk
    dsimp only at hlt ⊢
    rw [Function.update_of_ne, h.clear k (by omega) hlt]
    rw [hi]
    exact (mod_ne_mod (by omega) (by omega)).symm

theorem Filled.take {s : Ring} (h : Filled s) (hcounted : Counted s) (hpc : s.consumer = .printf)
    : Filled { s with
        consumer := .clear
        taken := s.taken ++ [(s.consumerI, s.queue s.consumerI)] } := by
  obtain ⟨hi, hlt⟩ := hcounted.at_printf hpc
  have hnext : s.stored[s.taken.length] = (s.consumerI, s.queue s.consumerI) := by
    refine Prod.ext ?_ ?_
    . rw [h.cell _ hlt, hi]
    . rw [← h.held _ hlt (by omega), hi]
  refine ⟨?_, h.cell, ?_, ?_⟩
  . rw [← hnext]
    exact snoc_getElem_prefix h.order hlt
  . intro k hk hle
    rw [List.length_append, List.length_singleton] at hle
    simp only [ConsumerPc.uncleared] at hle
    exact h.held k hk (by omega)
  . intro k hk hlt
    rw [List.length_append, List.length_singleton] at hlt
    simp only [ConsumerPc.uncleared] at hlt
    refine h.clear k hk ?_
    rw [hpc, ConsumerPc.uncleared]
    . omega
    . simp

theorem Filled.clear_cell {s : Ring} (h : Filled s) (hcounted : Counted s) (hpc : s.consumer = .clear)
    : Filled { s with queue := Function.update s.queue s.consumerI 0, consumer := .semPost } := by
  obtain ⟨hpos, hi, hroom⟩ := hcounted.at_clear hpc
  have hlen := h.order.length_le
  refine ⟨h.order, h.cell, ?_, ?_⟩
  . intro k hk hle
    dsimp only at hk hle ⊢
    simp only [ConsumerPc.uncleared] at hle
    rw [Function.update_of_ne, h.held k hk (by omega)]
    rw [hi]
    exact (mod_ne_mod (by omega) (by omega)).symm
  . intro k hk hlt
    dsimp only at hk hlt ⊢
    simp only [ConsumerPc.uncleared] at hlt
    by_cases hlast : k = s.taken.length - 1 + NUM
    . rw [hlast, Nat.add_mod_right, hi, Function.update_self]
    . rw [Function.update_of_ne, h.clear k hk]
      . rw [hpc, ConsumerPc.uncleared]
        omega
      . rw [hi]
        exact (mod_ne_mod (by omega) (by omega)).symm

theorem producer_filled {s s' : Ring} {r : Nat} (h : Filled s) (hcounted : Counted s)
    (hs : producer s r = some s')
    : Filled s' := by
  unfold producer at hs
  cases hpc : s.producer with
  | semWait =>
    simp only [hpc] at hs
    split at hs
    . simp at hs
    . simp only [Option.some.injEq] at hs
      subst hs
      exact ⟨h.order, h.cell, h.held, h.clear⟩
  | store =>
    simp only [hpc, Option.some.injEq] at hs
    subst hs
    exact h.store hcounted hpc _
  | _ =>
    simp only [hpc, Option.some.injEq] at hs
    subst hs
    exact ⟨h.order, h.cell, h.held, h.clear⟩

theorem consumer_filled {s s' : Ring} (h : Filled s) (hcounted : Counted s) (hs : consumer s = some s')
    : Filled s' := by
  unfold consumer at hs
  have hheld := h.held
  have hclear := h.clear
  cases hpc : s.consumer with
  | semWait =>
    simp only [hpc] at hs
    split at hs
    . simp at hs
    . simp only [Option.some.injEq] at hs
      subst hs
      rw [hpc] at hheld hclear
      exact ⟨h.order, h.cell, hheld, hclear⟩
  | printf =>
    simp only [hpc, Option.some.injEq] at hs
    subst hs
    exact h.take hcounted hpc
  | clear =>
    simp only [hpc, Option.some.injEq] at hs
    subst hs
    exact h.clear_cell hcounted hpc
  | _ =>
    simp only [hpc, Option.some.injEq] at hs
    subst hs
    rw [hpc] at hheld hclear
    exact ⟨h.order, h.cell, hheld, hclear⟩

theorem invariant {s : Ring} (h : Reaches step (fun _ _ => True) main s) : Counted s ∧ Filled s := by
  refine h.invariant (fun s => Counted s ∧ Filled s) ⟨main_counted, main_filled⟩ ?_
  rintro s s' a ⟨hcounted, hfilled⟩ _ hs
  cases a with
  | producer r => exact ⟨producer_counted hcounted hs, producer_filled hfilled hcounted hs⟩
  | consumer => exact ⟨consumer_counted hcounted hs, consumer_filled hfilled hcounted hs⟩

theorem Counted.sum_le {s : Ring} (h : Counted s) : s.blankNumber + s.productNumber ≤ NUM := by
  obtain ⟨hblank, hproduct, _, _, _⟩ := h
  omega

def Ring.Unconsumed (s : Ring) (i : Nat) : Prop :=
  ∃ p ∈ s.stored.drop s.taken.length, p.fst = i

theorem Filled.not_unconsumed {s : Ring} (h : Filled s) (hcounted : Counted s) (hpc : s.producer = .store)
    : s.queue s.producerI = 0 ∧ ¬ s.Unconsumed s.producerI := by
  obtain ⟨hi, hroom⟩ := hcounted.at_store hpc
  refine ⟨?_, ?_⟩
  . rw [hi]
    exact h.clear s.stored.length (Nat.le_refl _) hroom
  . rintro ⟨p, hp, heq⟩
    rw [List.mem_iff_getElem] at hp
    obtain ⟨k, hk, hp⟩ := hp
    rw [List.length_drop] at hk
    rw [List.getElem_drop] at hp
    rw [← hp, h.cell, hi] at heq
    exact mod_ne_mod (by omega) (by omega) heq

/--
The ring is a queue in every interleaving of the two threads: the values come out in the order they went in,
the two semaphores together never exceed the number of cells, and the cell the producer is about to write has
been cleared and is none whose value is still to be taken.
-/
theorem fifo {s : Ring} (h : Reaches step (fun _ _ => True) main s)
    : s.taken.map Prod.snd <+: s.stored.map Prod.snd
      ∧ s.blankNumber + s.productNumber ≤ NUM
      ∧ (s.producer = .store → s.queue s.producerI = 0 ∧ ¬ s.Unconsumed s.producerI) := by
  obtain ⟨hcounted, hfilled⟩ := invariant h
  exact ⟨hfilled.order.map Prod.snd, hcounted.sum_le, hfilled.not_unconsumed hcounted⟩

def produce (r : Nat) : List Action := List.replicate 5 (.producer r)
def consume : List Action := List.replicate 5 .consumer

def oneRoundAndOne : List Action :=
  ([41, 42, 43, 44, 45].flatMap produce : List Action) ++ consume ++ ([.producer 46] : List Action)

theorem fifo_oneRoundAndOne
    : ∃ s, exec step main oneRoundAndOne = some s
        ∧ s.producer = .store ∧ s.producerI = 0 ∧ s.taken.map Prod.snd = [42]
        ∧ s.taken.map Prod.snd <+: s.stored.map Prod.snd
        ∧ s.blankNumber + s.productNumber ≤ NUM
        ∧ (s.producer = .store → s.queue s.producerI = 0 ∧ ¬ s.Unconsumed s.producerI) := by
  have hrun : (exec step main oneRoundAndOne).map (fun s => (s.producer, s.producerI, s.taken.map Prod.snd))
      = some (.store, 0, [42]) := by
    decide +kernel
  obtain ⟨s, hexec, heq⟩ := Option.map_eq_some_iff.mp hrun
  obtain ⟨hproducer, heq⟩ := Prod.mk.inj heq
  obtain ⟨hindex, htaken⟩ := Prod.mk.inj heq
  exact ⟨s, hexec, hproducer, hindex, htaken, fifo (.of_exec (allOk_of_forall fun _ _ => trivial) hexec)⟩

end SemProductConsumer
end SystemProgramming
