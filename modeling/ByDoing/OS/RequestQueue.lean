import Mathlib.Data.List.Perm.Subperm
import ByDoing.OS.Requests

namespace OS
namespace Requests

open Threaded

variable {a b c a' b' : Request}

def Request.body (a : Request) : Request :=
  { a with next := 0 }

theorem key_of_body (h : a.body = b.body) : a.key = b.key :=
  show a.body.key = b.body.key from congrArg Request.key h

theorem dev_of_body (h : a.body = b.body) : a.dev = b.dev :=
  show a.body.dev = b.body.dev from congrArg Request.dev h

theorem inOrder_trans (hab : IN_ORDER a b) (hbc : IN_ORDER b c) : IN_ORDER a c := by
  unfold IN_ORDER at *
  omega

theorem inOrder_or (h : a.key ≠ b.key) : IN_ORDER a b ∨ IN_ORDER b a := by
  unfold IN_ORDER
  by_contra hnot
  apply h
  unfold Request.key
  rw [Prod.mk.injEq, Prod.mk.injEq]
  omega

theorem inOrder_congr (ha : a.key = a'.key) (hb : b.key = b'.key) : IN_ORDER a b ↔ IN_ORDER a' b' := by
  unfold Request.key at ha hb
  rw [Prod.mk.injEq, Prod.mk.injEq] at ha hb
  unfold IN_ORDER
  rw [ha.left, ha.right.left, ha.right.right, hb.left, hb.right.left, hb.right.right]

namespace State

def entry (s : State) (p : Nat) : Nat × (Nat × Int × Nat) :=
  (p, (s.request p).key)

-- The requests of the queue are the ones at the addresses `l`.
structure Linked (s : State) (l : List Nat) : Prop where
  chain : IsChain s.next s.currentRequest l
  nodup : l.Nodup
  slot : ∀ p ∈ l, p ≤ NR_REQUEST ∧ 0 ≤ (s.request p).dev

structure Queue (s : State) (l : List Nat) : Prop extends s.Linked l where
  falls : Sweep.falls s.Before l ≤ 1
  pending : (l.map s.entry).Perm s.pending

def Fresh (s : State) : Act → Prop
  | .add _ order => ∀ entry ∈ s.pending, entry.snd ≠ (order.cmd, order.dev, order.sector)
  | .finish _ => True

theorem setNext_request (s : State) (p q : Nat)
    : (s.setNext p q).request = Function.update s.request p { s.request p with next := q } :=
  rfl

@[simp]
theorem setNext_body (s : State) (p q r : Nat) : ((s.setNext p q).request r).body = (s.request r).body := by
  rw [setNext_request]
  rcases eq_or_ne r p with rfl | hne
  . rw [Function.update_self]
    rfl
  . rw [Function.update_of_ne hne]

theorem setNext_next (s : State) (p q : Nat) : (s.setNext p q).next = Function.update s.next p q := by
  funext r
  unfold next
  rw [setNext_request]
  rcases eq_or_ne r p with rfl | hne
  . rw [Function.update_self, Function.update_self]
  . rw [Function.update_of_ne hne, Function.update_of_ne hne]

theorem clean_eq (s : State) (req : Nat) : ∃ bDirt, s.clean req = { s with bDirt } := by
  unfold clean
  split
  . exact ⟨_, rfl⟩
  . exact ⟨s.bDirt, rfl⟩

theorem release_eq (s : State) (bh : Nat) (uptodate : Bool)
    : ∃ bUptodate bLock, s.release bh uptodate = { s with bUptodate, bLock } := by
  unfold release
  split
  . exact ⟨_, _, rfl⟩
  . exact ⟨s.bUptodate, s.bLock, rfl⟩

theorem place_eq {s : State} {req tmp fuel : Nat} {l : List Nat} (hchain : IsChain s.next tmp (tmp :: l))
    (hfuel : l.length < fuel)
    : ∃ q front back, s.place req fuel tmp = some q ∧ tmp :: l = front ++ q :: back
        ∧ tmp :: Sweep.insertAfter s.Before req tmp l = front ++ q :: req :: back := by
  induction fuel generalizing tmp l with
  | zero => exact absurd hfuel (Nat.not_lt_zero _)
  | succ fuel ih =>
    obtain ⟨_, _, hrest⟩ := hchain
    cases l with
    | nil =>
      have hnext : s.next tmp = 0 := hrest
      refine ⟨tmp, [], [], ?_, rfl, rfl⟩
      rw [place, if_pos hnext]
    | cons p l =>
      obtain ⟨hnext, hp, hrest⟩ := hrest
      rw [List.length_cons] at hfuel
      unfold place Sweep.insertAfter
      rw [hnext, if_neg hp]
      split
      . exact ⟨tmp, [], p :: l, rfl, rfl, rfl⟩
      . obtain ⟨q, front, back, hplace, hl, hinsert⟩ := ih ⟨rfl, hp, hrest⟩ (Nat.lt_of_succ_lt_succ hfuel)
        refine ⟨q, tmp :: front, back, hplace, ?_, ?_⟩
        . rw [hl, List.cons_append]
        . rw [hinsert, List.cons_append]

def inserted (s : State) (req : Nat) : List Nat → List Nat
  | [] => [req]
  | p :: l => p :: Sweep.insertAfter s.Before req p l

theorem inserted_perm (s : State) (req : Nat) (l : List Nat) : (s.inserted req l).Perm (req :: l) := by
  cases l with
  | nil => exact List.Perm.refl _
  | cons p l =>
    obtain ⟨front, back, hl, hinsert⟩ := @Sweep.insertAfter_split _ s.Before _ req p l
    rw [inserted, hinsert, hl]
    exact (List.perm_middle.cons p).trans (List.Perm.swap req p (front ++ back))

theorem inserted_falls {s : State} {req : Nat} {l : List Nat} (h : Sweep.falls s.Before l ≤ 1)
    (hkey : ∀ p ∈ l, (s.request req).key ≠ (s.request p).key)
    : Sweep.falls s.Before (s.inserted req l) ≤ 1 := by
  cases l with
  | nil => exact Nat.zero_le 1
  | cons p l =>
    apply Sweep.falls_insertAfter_le
    . exact fun _ _ _ => inOrder_trans
    . exact fun q hq => inOrder_or (hkey q hq)
    . exact h

theorem before_congr {s s' : State} (h : ∀ p, (s'.request p).key = (s.request p).key) (p q : Nat)
    : s'.Before p q ↔ s.Before p q :=
  inOrder_congr (h p) (h q)

theorem inserted_congr {s s' : State} (h : ∀ p, (s'.request p).key = (s.request p).key) (req : Nat) (l : List Nat)
    : s'.inserted req l = s.inserted req l := by
  cases l with
  | nil => rfl
  | cons p l =>
    rw [inserted, inserted]
    congr 1
    apply Sweep.insertAfter_congr
    intro q _
    exact ⟨before_congr h q req, before_congr h req q, fun r _ => before_congr h q r⟩

theorem Linked.length_le {s : State} {l : List Nat} (h : s.Linked l) : l.length ≤ NR_REQUEST := by
  have hsubset : l ⊆ List.range' 1 NR_REQUEST := by
    intro p hp
    have hpos := h.chain.ne_zero hp
    have hle := (h.slot p hp).left
    rw [List.mem_range'_1]
    omega
  have hlength := (List.subperm_of_subset h.nodup hsubset).length_le
  rw [List.length_range'] at hlength
  exact hlength

theorem Linked.not_mem_of_free {s : State} {req : Nat} {l : List Nat} (h : s.Linked l) (hfree : (s.request req).dev < 0)
    : req ∉ l := by
  intro hreq
  have hdev := (h.slot req hreq).right
  omega

theorem addRequest_eq {s : State} {req : Nat} {l : List Nat} (hchain : IsChain s.next s.currentRequest l)
    (hnodup : l.Nodup) (hlength : l.length ≤ NR_REQUEST) (hreq : req ∉ l) (hne : req ≠ 0)
    : ∃ s', s.addRequest req = some s' ∧ IsChain s'.next s'.currentRequest (s.inserted req l)
        ∧ (∀ p, (s'.request p).body = (s.request p).body) ∧ s'.pending = s.pending := by
  obtain ⟨bDirt, hclean⟩ := clean_eq (s.setNext req 0) req
  let t : State := { s.setNext req 0 with bDirt }
  have hnext : t.next = Function.update s.next req 0 := setNext_next s req 0
  have hbody : ∀ p, (t.request p).body = (s.request p).body := setNext_body s req 0
  have hchain' : IsChain t.next s.currentRequest l := by
    rw [hnext]
    exact hchain.update hreq
  unfold addRequest
  rw [hclean]
  cases l with
  | nil =>
    have hcurrent : s.currentRequest = 0 := hchain
    refine ⟨{ t with currentRequest := req }, if_pos hcurrent, ⟨rfl, hne, ?_⟩, hbody, rfl⟩
    show t.next req = 0
    rw [hnext, Function.update_self]
  | cons p l =>
    obtain ⟨hcurrent, hp, hrest⟩ := hchain'
    rw [hcurrent] at hchain
    obtain ⟨q, front, back, hplace, hl, hinsert⟩ := @place_eq t req p NR_REQUEST l ⟨rfl, hp, hrest⟩ hlength
    have hinserted : s.inserted req (p :: l) = front ++ q :: req :: back := by
      rw [← inserted_congr fun r => key_of_body (hbody r)]
      exact hinsert
    refine ⟨(t.setNext req (t.next q)).setNext q req, ?_, ?_, ?_, rfl⟩
    . show (if s.currentRequest = 0 then _ else (t.place req NR_REQUEST s.currentRequest).bind _) = _
      rw [hcurrent, if_neg hp, hplace]
      rfl
    . rw [setNext_next, setNext_next, hinserted]
      show IsChain _ s.currentRequest _
      rw [hl] at hnodup hreq
      apply Threaded.IsChain.insert _ hnodup hne hreq
      rw [← hl, hcurrent]
      exact ⟨rfl, hp, hrest⟩
    . intro r
      rw [setNext_body, setNext_body, hbody]

theorem Linked.makeRequest {s : State} {req : Nat} {order : Order} {l : List Nat} (h : s.Linked l) (hpos : 1 ≤ req)
    (hle : req ≤ NR_REQUEST) (hfree : (s.request req).dev < 0) (hdev : 0 ≤ order.dev)
    : ∃ s', s.makeRequest req order = some s' ∧ s'.Linked (s'.inserted req l)
        ∧ (s'.request req).body = order.request.body ∧ (∀ p ∈ l, (s'.request p).body = (s.request p).body)
        ∧ s'.pending = (req, order.request.key) :: s.pending := by
  let t : State := { s with
    request := Function.update s.request req order.request
    pending := (req, order.request.key) :: s.pending }
  have hreq := h.not_mem_of_free hfree
  have hself : t.request req = order.request := Function.update_self _ _ _
  have hsame : ∀ p ∈ l, t.request p = s.request p := by
    intro p hp
    apply Function.update_of_ne
    intro heq
    exact hreq (heq ▸ hp)
  have hchain : IsChain t.next t.currentRequest l := h.chain.congr fun p hp => congrArg Request.next (hsame p hp)
  obtain ⟨s', hadd, hchain', hbody, hpending⟩ :=
    addRequest_eq hchain h.nodup h.length_le hreq (Nat.ne_of_gt hpos)
  rw [← inserted_congr fun p => key_of_body (hbody p)] at hchain'
  have hperm := s'.inserted_perm req l
  have hbody_req : (s'.request req).body = order.request.body := by
    rw [hbody, hself]
  have hbody_mem : ∀ p ∈ l, (s'.request p).body = (s.request p).body := by
    intro p hp
    rw [hbody, hsame p hp]
  refine ⟨s', hadd, ⟨hchain', ?_, ?_⟩, hbody_req, hbody_mem, hpending⟩
  . exact hperm.nodup_iff.mpr (List.nodup_cons.mpr ⟨hreq, h.nodup⟩)
  . intro p hp
    rcases List.mem_cons.mp (hperm.mem_iff.mp hp) with rfl | hp
    . rw [dev_of_body hbody_req]
      exact ⟨hle, hdev⟩
    . rw [dev_of_body (hbody_mem p hp)]
      exact h.slot p hp

theorem Linked.set {s : State} {p : Nat} {request : Request} {l : List Nat} (h : s.Linked l)
    (hnext : request.next = s.next p) (hdev : request.dev = (s.request p).dev)
    : Linked { s with request := Function.update s.request p request } l := by
  have hkeep : ∀ q, (Function.update s.request p request q).next = s.next q
      ∧ (Function.update s.request p request q).dev = (s.request q).dev := by
    intro q
    rcases eq_or_ne q p with rfl | hne
    . rw [Function.update_self]
      exact ⟨hnext, hdev⟩
    . rw [Function.update_of_ne hne]
      exact ⟨rfl, rfl⟩
  refine ⟨h.chain.congr fun q _ => (hkeep q).left, h.nodup, ?_⟩
  intro q hq
  refine ⟨(h.slot q hq).left, ?_⟩
  show 0 ≤ (Function.update s.request p request q).dev
  rw [(hkeep q).right]
  exact (h.slot q hq).right

theorem endRequest_some {s : State} (h : s.currentRequest ≠ 0) (uptodate : Bool)
    : ∃ s', s.endRequest uptodate = some s' ∧ s'.currentRequest = s.next s.currentRequest := by
  unfold State.endRequest
  rw [if_neg h]
  exact ⟨_, rfl, rfl⟩

theorem Linked.endRequest {s s' : State} {uptodate : Bool} {l : List Nat} (h : s.Linked l)
    (hend : s.endRequest uptodate = some s')
    : ∃ rest, l = s.currentRequest :: rest ∧ s'.Linked rest ∧ (∀ p ∈ rest, s'.request p = s.request p)
        ∧ s'.pending = s.pending.erase (s.entry s.currentRequest) := by
  unfold State.endRequest at hend
  rw [Option.ite_none_left_eq_some] at hend
  obtain ⟨hne, hsome⟩ := hend
  obtain ⟨rest, rfl, hrest⟩ := h.chain.of_ne_zero hne
  obtain ⟨bUptodate, bLock, hrelease⟩ := release_eq s (s.request s.currentRequest).bh uptodate
  dsimp only at hsome
  rw [hrelease, Option.some.injEq] at hsome
  have hnodup := List.nodup_cons.mp h.nodup
  have hsame : ∀ p ∈ rest, s'.request p = s.request p := by
    intro p hp
    rw [← hsome]
    apply Function.update_of_ne
    intro heq
    exact hnodup.left (heq ▸ hp)
  have hchain := hrest.congr fun p hp => congrArg Request.next (hsame p hp)
  refine ⟨rest, rfl, ⟨?_, hnodup.right, ?_⟩, hsame, ?_⟩
  . rw [← hsome] at hchain ⊢
    exact hchain
  . intro p hp
    rw [hsame p hp]
    exact h.slot p (List.mem_cons_of_mem _ hp)
  . rw [← hsome]
    rfl

theorem falls_of_key {s s' : State} {l : List Nat} (h : ∀ p ∈ l, (s'.request p).key = (s.request p).key)
    : Sweep.falls s'.Before l = Sweep.falls s.Before l := by
  apply Sweep.falls_congr
  intro p hp q hq
  exact inOrder_congr (h p hp) (h q hq)

theorem entries_of_key {s s' : State} {l : List Nat} (h : ∀ p ∈ l, (s'.request p).key = (s.request p).key)
    : l.map s'.entry = l.map s.entry := by
  apply List.map_congr_left
  intro p hp
  unfold entry
  rw [h p hp]

theorem Queue.init (bDirt bUptodate bLock : Nat → Bool) : (init bDirt bUptodate bLock).Queue [] := by
  refine ⟨⟨rfl, List.nodup_nil, ?_⟩, Nat.zero_le 1, List.Perm.nil⟩
  intro p hp
  cases hp

theorem Queue.makeRequest {s : State} {req : Nat} {order : Order} {l : List Nat} (h : s.Queue l) (hpos : 1 ≤ req)
    (hle : req ≤ NR_REQUEST) (hfree : (s.request req).dev < 0) (hdev : 0 ≤ order.dev) (hfresh : s.Fresh (.add req order))
    : ∃ s', s.makeRequest req order = some s' ∧ s'.Queue (s'.inserted req l) := by
  obtain ⟨s', hmake, hlinked, hreq, hbody, hpending⟩ := h.toLinked.makeRequest hpos hle hfree hdev
  have hkey : ∀ p ∈ l, (s'.request p).key = (s.request p).key := fun p hp => key_of_body (hbody p hp)
  have hkey_req : (s'.request req).key = order.request.key := key_of_body hreq
  refine ⟨s', hmake, hlinked, ?_, ?_⟩
  . apply inserted_falls
    . rw [falls_of_key hkey]
      exact h.falls
    . intro p hp heq
      rw [hkey_req, hkey p hp] at heq
      exact hfresh (s.entry p) (h.pending.mem_iff.mp (List.mem_map_of_mem hp)) heq.symm
  . apply ((s'.inserted_perm req l).map s'.entry).trans
    rw [List.map_cons, entries_of_key hkey, hpending]
    unfold entry
    rw [hkey_req]
    exact h.pending.cons _

theorem Queue.endRequest {s s' : State} {uptodate : Bool} {l : List Nat} (h : s.Queue l)
    (hend : s.endRequest uptodate = some s')
    : ∃ rest, l = s.currentRequest :: rest ∧ s'.Queue rest := by
  obtain ⟨rest, rfl, hlinked, hsame, hpending⟩ := h.toLinked.endRequest hend
  have hkey : ∀ p ∈ rest, (s'.request p).key = (s.request p).key := fun p hp => congrArg Request.key (hsame p hp)
  refine ⟨rest, rfl, hlinked, ?_, ?_⟩
  . rw [falls_of_key hkey]
    exact Nat.le_trans (Sweep.falls_tail_le _ _) h.falls
  . have herase := h.pending.erase (s.entry s.currentRequest)
    rw [List.map_cons, List.erase_cons_head] at herase
    rw [entries_of_key hkey, hpending]
    exact herase

theorem step_queue {s s' : State} {a : Act} (h : ∃ l, s.Queue l) (hfresh : s.Fresh a) (hstep : s.step a = some s')
    : ∃ l, s'.Queue l := by
  obtain ⟨l, h⟩ := h
  cases a with
  | add req order =>
    rw [step, Option.ite_none_right_eq_some] at hstep
    obtain ⟨⟨hpos, hle, hfree, hdev⟩, hsome⟩ := hstep
    obtain ⟨t, ht, hqueue⟩ := h.makeRequest hpos hle hfree hdev hfresh
    rw [ht, Option.some.injEq] at hsome
    exact ⟨_, hsome ▸ hqueue⟩
  | finish uptodate =>
    obtain ⟨rest, _, hqueue⟩ := h.endRequest hstep
    exact ⟨rest, hqueue⟩

theorem inserted_current {s s' : State} {req : Nat} {l : List Nat} (h : s.Linked l) (h' : s'.Linked (s'.inserted req l))
    (hcurrent : s.currentRequest ≠ 0)
    : s'.currentRequest = s.currentRequest := by
  cases l with
  | nil => exact absurd h.chain hcurrent
  | cons p l => exact h'.chain.left.trans h.chain.left.symm

theorem step_current {s s' : State} {a : Act} (h : ∃ l, s.Queue l) (hfresh : s.Fresh a) (hstep : s.step a = some s')
    (hcurrent : s.currentRequest ≠ 0) (ha : ∀ uptodate, a ≠ .finish uptodate)
    : s'.currentRequest = s.currentRequest := by
  obtain ⟨l, h⟩ := h
  cases a with
  | add req order =>
    rw [step, Option.ite_none_right_eq_some] at hstep
    obtain ⟨⟨hpos, hle, hfree, hdev⟩, hsome⟩ := hstep
    obtain ⟨t, ht, hqueue⟩ := h.makeRequest hpos hle hfree hdev hfresh
    rw [ht, Option.some.injEq] at hsome
    rw [← hsome]
    exact inserted_current h.toLinked hqueue.toLinked hcurrent
  | finish uptodate => exact absurd rfl (ha uptodate)

theorem exec_queue {s s' : State} {acts : List Act} (h : ∃ l, s.Queue l) (hfresh : Run.AllOk step Fresh s acts)
    (hexec : Run.exec step s acts = some s')
    : ∃ l, s'.Queue l := by
  apply (Run.Reaches.of_exec hfresh hexec).invariant (fun s => ∃ l, s.Queue l) h
  intro _ _ _
  exact step_queue

theorem exec_current {s s' : State} {acts : List Act} (h : ∃ l, s.Queue l) (hfresh : Run.AllOk step Fresh s acts)
    (hexec : Run.exec step s acts = some s') (hcurrent : s.currentRequest ≠ 0)
    (hacts : ∀ uptodate, Act.finish uptodate ∉ acts)
    : s'.currentRequest = s.currentRequest := by
  induction acts generalizing s with
  | nil =>
    rw [Run.exec, Option.some.injEq] at hexec
    rw [hexec]
  | cons a acts ih =>
    unfold Run.exec at hexec
    split at hexec
    . next t hstep =>
      have hsame := step_current h hfresh.left hstep hcurrent fun u hu => hacts u (hu ▸ List.mem_cons_self)
      rw [← hsame]
      apply ih (step_queue h hfresh.left hstep) (hfresh.right t hstep) hexec
      . rw [hsame]
        exact hcurrent
      . exact fun u hu => hacts u (List.mem_cons_of_mem a hu)
    . cases hexec

structure Swept (start : State) (acts : List Act) (s : State) : Prop where
  queue : ∃ l, IsChain s.next s.currentRequest l ∧ l.Nodup ∧ (l.map s.entry).Perm s.pending
    ∧ Sweep.falls s.Before l ≤ 1
  head : ∀ before during t, acts = before ++ during → Run.exec step start before = some t →
    t.currentRequest ≠ 0 → (∀ uptodate, Act.finish uptodate ∉ during) → s.currentRequest = t.currentRequest
  ready : ∀ req order, 1 ≤ req → req ≤ NR_REQUEST → (s.request req).dev < 0 → 0 ≤ order.dev →
    s.Fresh (.add req order) → (s.makeRequest req order).isSome

/--
In every run in which no request is added that has the command, the device and the sector of a queued one.
-/
theorem swept_of_exec {bDirt bUptodate bLock : Nat → Bool} {acts : List Act} {s : State}
    (hfresh : Run.AllOk step Fresh (init bDirt bUptodate bLock) acts)
    (hexec : Run.exec step (init bDirt bUptodate bLock) acts = some s)
    : Swept (init bDirt bUptodate bLock) acts s := by
  have hinit : ∃ l, (init bDirt bUptodate bLock).Queue l := ⟨[], .init bDirt bUptodate bLock⟩
  obtain ⟨l, h⟩ := exec_queue hinit hfresh hexec
  constructor
  . exact ⟨l, h.chain, h.nodup, h.pending, h.falls⟩
  . intro before during t hacts ht hcurrent hfinish
    rw [hacts] at hfresh hexec
    have hqueue := exec_queue hinit (hfresh.initial (List.prefix_append _ _)) ht
    rw [Run.exec_append, ht, Option.bind_some] at hexec
    exact exec_current hqueue (hfresh.of_append ht) hexec hcurrent hfinish
  . intro req order hpos hle hfree hdev hnew
    obtain ⟨t, ht, _⟩ := h.makeRequest hpos hle hfree hdev hnew
    rw [ht]
    rfl

instance decidableFresh (s : State) : (a : Act) → Decidable (s.Fresh a)
  | .add _ order => inferInstanceAs (Decidable (∀ entry ∈ s.pending, entry.snd ≠ (order.cmd, order.dev, order.sector)))
  | .finish _ => isTrue trivial

def sweepRun : List Act :=
  [.add 32 ⟨0x301, 0, 10, 1⟩, .add 31 ⟨0x301, 0, 20, 2⟩, .add 30 ⟨0x301, 0, 4, 3⟩, .add 29 ⟨0x301, 0, 14, 4⟩,
    .add 21 ⟨0x301, 1, 12, 5⟩, .finish true]

theorem swept_sweepRun
    : ∃ s, Run.exec step (init (fun _ => false) (fun _ => false) fun _ => true) sweepRun = some s
        ∧ s.pending.map Prod.fst = [21, 29, 30, 31]
        ∧ Swept (init (fun _ => false) (fun _ => false) fun _ => true) sweepRun s := by
  have hrun : (Run.exec step (init (fun _ => false) (fun _ => false) fun _ => true) sweepRun).map
      (fun s => s.pending.map Prod.fst) = some [21, 29, 30, 31] := by
    decide +kernel
  have hfresh : Run.AllOk step Fresh (init (fun _ => false) (fun _ => false) fun _ => true) sweepRun := by
    decide +kernel
  obtain ⟨s, hexec, hpending⟩ := Option.map_eq_some_iff.mp hrun
  exact ⟨s, hexec, hpending, swept_of_exec hfresh hexec⟩

end State
end Requests
end OS
