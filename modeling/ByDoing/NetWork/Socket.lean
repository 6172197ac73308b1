import Mathlib.Data.List.Basic
import Mathlib.Algebra.Ring.Nat

/-!
This module contains what a connected socket hands to `recv` and `read`. The bytes of the stream arrive in pieces, a
call returns at most what has arrived, and between two pieces it may fail with an error. Behind the last piece the
stream ends.
-/

namespace NetWork

def EINTR : Nat := 4

inductive Arrival where
  | data (b : UInt8) (bs : List UInt8)
  | error (errno : Nat)
  deriving Repr, DecidableEq

abbrev Socket := List Arrival

namespace Socket

-- The bytes that the call has stored, none at the end of the stream, or its `errno`.
def recv (s : Socket) (size : Nat) : Except Nat (List UInt8) × Socket :=
  match s with
  | [] => (.ok [], [])
  | .error errno :: s => (.error errno, s)
  | .data b bs :: s =>
    match (b :: bs).drop size with
    | [] => (.ok (b :: bs), s)
    | b' :: bs' => (.ok ((b :: bs).take size), .data b' bs' :: s)

-- With `MSG_PEEK` the bytes stay there.
def peek (s : Socket) (size : Nat) : Except Nat (List UInt8) × Socket :=
  match s.recv size with
  | (.ok bytes, _) => (.ok bytes, s)
  | (.error errno, s) => (.error errno, s)

def arrived : Arrival → List UInt8
  | .data b bs => b :: bs
  | .error _ => []

def content (s : Socket) : List UInt8 :=
  s.flatMap arrived

def unbroken : Socket → List UInt8
  | .data b bs :: s => (b :: bs) ++ unbroken s
  | _ => []

-- The stream up to the first error other than `EINTR`.
def delivered : Socket → List UInt8
  | [] => []
  | .data b bs :: s => (b :: bs) ++ delivered s
  | .error errno :: s => if errno = EINTR then delivered s else []

def fails (s : Socket) : Bool :=
  s.any fun a => match a with
    | .data _ _ => false
    | .error errno => errno != EINTR

def Calm (s : Socket) : Prop :=
  ∀ a ∈ s, ∃ b bs, a = .data b bs

def weight : Socket → Nat
  | [] => 0
  | .data _ bs :: s => bs.length + 1 + weight s
  | .error _ :: s => 1 + weight s

section Calm

variable {s : Socket}

theorem Calm.not_error (h : s.Calm) {errno : Nat} {s' : Socket} : s ≠ .error errno :: s' := by
  intro heq
  subst heq
  obtain ⟨b, bs, hdata⟩ := h (.error errno) (by simp)
  cases hdata

theorem Calm.content_eq_nil (h : s.Calm) (hnil : s.content = []) : s = [] := by
  cases s with
  | nil => rfl
  | cons a s =>
    obtain ⟨b, bs, rfl⟩ := h a (by simp)
    simp [content, arrived] at hnil

theorem Calm.unbroken_eq (h : s.Calm) : s.unbroken = s.content := by
  induction s with
  | nil => rfl
  | cons a s ih =>
    obtain ⟨b, bs, rfl⟩ := h a (by simp)
    have hcalm : Calm s := by
      intro a' ha'
      exact h a' (by simp [ha'])
    rw [unbroken, ih hcalm]
    rfl

end Calm

section Recv

variable {s s' : Socket} {size : Nat}

theorem recv_error {errno : Nat} (h : s.recv size = (.error errno, s')) : s = .error errno :: s' := by
  unfold recv at h
  split at h
  . cases h
  . cases h
    rfl
  . split at h
    . cases h
    . cases h

theorem recv_nil (hsize : 0 < size) (h : s.recv size = (.ok [], s')) : s = [] ∧ s' = [] := by
  unfold recv at h
  split at h
  . cases h
    exact ⟨rfl, rfl⟩
  . cases h
  . split at h
    . cases h
    . match size with
      | size + 1 => simp at h

theorem recv_ok {bytes : List UInt8} (h : s.recv size = (.ok bytes, s'))
    : bytes.length ≤ size ∧ s.content = bytes ++ s'.content ∧ s.unbroken = bytes ++ s'.unbroken
        ∧ s.delivered = bytes ++ s'.delivered ∧ s.fails = s'.fails ∧ s.weight = bytes.length + s'.weight
        ∧ (s.Calm → s'.Calm) := by
  unfold recv at h
  split at h
  . cases h
    simp [content, unbroken, delivered, weight]
  . cases h
  . next b bs s =>
    split at h
    . next hdrop =>
      cases h
      have hlength : (b :: bs).length ≤ size := List.drop_eq_nil_iff.mp hdrop
      refine ⟨hlength, ?_, ?_, ?_, ?_, ?_, ?_⟩
      . simp [content, arrived]
      . simp [unbroken]
      . simp [delivered]
      . simp [fails]
      . simp [weight]
      . intro hcalm a ha
        exact hcalm a (List.mem_cons_of_mem _ ha)
    . next b' bs' hdrop =>
      cases h
      have hsplit := List.take_append_drop size (b :: bs)
      have hlength := congrArg List.length hdrop
      rw [hdrop] at hsplit
      rw [List.length_drop, List.length_cons, List.length_cons] at hlength
      refine ⟨List.length_take_le size _, ?_, ?_, ?_, ?_, ?_, ?_⟩
      . simp only [content, arrived, List.flatMap_cons]
        rw [← List.append_assoc, hsplit]
      . simp only [unbroken]
        rw [← List.append_assoc, hsplit]
      . simp only [delivered]
        rw [← List.append_assoc, hsplit]
      . simp [fails]
      . simp only [weight, List.length_take, List.length_cons]
        omega
      . intro hcalm a ha
        rw [List.mem_cons] at ha
        cases ha with
        | inl ha => exact ⟨b', bs', ha⟩
        | inr ha => exact hcalm a (List.mem_cons_of_mem _ ha)

theorem recv_calm {b : UInt8} {bytes : List UInt8} (hsize : 0 < size) (hcalm : s.Calm) (h : s.content = b :: bytes)
    : ∃ bs s', s.recv size = (.ok (b :: bs), s') ∧ bs ++ s'.content = bytes ∧ s'.Calm := by
  cases hrecv : s.recv size with
  | mk r s' =>
    cases r with
    | error errno => exact absurd (recv_error hrecv) hcalm.not_error
    | ok read =>
      cases read with
      | nil =>
        rw [(recv_nil hsize hrecv).left] at h
        cases h
      | cons b' bs =>
        obtain ⟨_, hcontent, _, _, _, _, hcalm'⟩ := recv_ok hrecv
        rw [h, List.cons_append, List.cons.injEq] at hcontent
        rw [hcontent.left]
        exact ⟨bs, s', rfl, hcontent.right.symm, hcalm' hcalm⟩

theorem recv_one {b : UInt8} {bytes : List UInt8} (h : s.unbroken = b :: bytes)
    : ∃ s', s.recv 1 = (.ok [b], s') ∧ s'.unbroken = bytes ∧ (s.Calm → s'.Calm) := by
  match s with
  | [] => cases h
  | .error _ :: s => cases h
  | .data b' bs :: s =>
    rw [unbroken, List.cons_append, List.cons.injEq] at h
    obtain ⟨rfl, hbytes⟩ := h
    cases bs with
    | nil =>
      obtain ⟨_, _, _, _, _, _, hcalm⟩ := @recv_ok (.data b' [] :: s) s 1 [b'] rfl
      exact ⟨s, rfl, hbytes, hcalm⟩
    | cons b'' bs =>
      obtain ⟨_, _, _, _, _, _, hcalm⟩ := @recv_ok (.data b' (b'' :: bs) :: s) (.data b'' bs :: s) 1 [b'] rfl
      exact ⟨.data b'' bs :: s, rfl, hbytes, hcalm⟩

end Recv

theorem delivered_eintr (s : Socket) : delivered (.error EINTR :: s) = s.delivered :=
  if_pos rfl

theorem delivered_error {errno : Nat} (h : errno ≠ EINTR) (s : Socket) : delivered (.error errno :: s) = [] :=
  if_neg h

theorem fails_eintr (s : Socket) : fails (.error EINTR :: s) = s.fails := by
  simp [fails]

theorem fails_error {errno : Nat} (h : errno ≠ EINTR) (s : Socket) : fails (.error errno :: s) = true := by
  simp [fails, h]

end Socket
end NetWork
