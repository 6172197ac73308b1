import ByDoing.OS.HardDisk

namespace OS
namespace HardDisk

open Machine (Ensures)
open Requests (Request)

namespace State

-- What the parts of the driver keep while they work on the first request of the queue `l`.
structure Core (s : State) (l : List Nat) : Prop where
  running : s.halt = none
  linked : s.queue.Linked l
  waiting : ∀ p ∈ l.tail, (s.queue.request p).errors = 0
  charges : ∀ c ∈ s.charges, c.fst = c.snd

structure Inv (s : State) (l : List Nat) : Prop extends s.Core l where
  idle : l = [] → s.failures = 0
  head : ∀ p ∈ l.head?, s.failures ≤ (s.queue.request p).errors ∧ (s.queue.request p).errors < MAX_ERRORS

def Aimed (s : State) : Prop :=
  s.doHd ≠ none → s.queue.currentRequest ≠ 0 → s.subject = s.queue.currentRequest

def LastChance (s : State) : Prop :=
  s.queue.currentRequest ≠ 0 ∧ (s.queue.request s.queue.currentRequest).errors + 1 = MAX_ERRORS
    ∧ s.queue.next s.queue.currentRequest = 0

-- A command would be given for the first request in its last chance, and the controller would not answer it.
def Endangered (s : State) (answers : List Answer) : Prop :=
  s.LastChance ∧ s.reset = false ∧ ∃ answer ∈ answers, answer.drq = false

end State

open State

-- A panic is the only way in which a part of the driver may stop.
def Panics (halt : Halt) : Prop :=
  halt = .panic

variable {s : State} {c : Nat} {rest l : List Nat}

theorem State.Core.current_eq (h : s.Core (c :: rest)) : s.queue.currentRequest = c :=
  h.linked.chain.left

theorem State.Core.current_ne (h : s.Core (c :: rest)) : s.queue.currentRequest ≠ 0 := by
  rw [h.linked.chain.left]
  exact h.linked.chain.right.left

theorem ensures_CURRENT {Q : Request → State → Prop} (hne : s.queue.currentRequest ≠ 0)
    (h : Q (s.queue.request s.queue.currentRequest) s)
    : Ensures CURRENT s Q Panics := by
  unfold CURRENT
  apply Ensures.bind
  apply Ensures.get
  rw [if_neg hne]
  exact Ensures.pure h

theorem State.Core.set {request : Request} {failures : Nat} {charges : List (Nat × Nat)} (h : s.Core (c :: rest))
    (hnext : request.next = s.queue.next c) (hdev : request.dev = (s.queue.request c).dev)
    (hcharges : ∀ e ∈ charges, e.fst = e.snd)
    : State.Core { s with
        queue := { s.queue with request := Function.update s.queue.request s.queue.currentRequest request }
        failures, charges } (c :: rest) := by
  refine ⟨h.running, ?_, ?_, hcharges⟩
  . apply h.linked.set
    . rw [h.current_eq]
      exact hnext
    . rw [h.current_eq]
      exact hdev
  . intro p hp
    show (Function.update s.queue.request s.queue.currentRequest request p).errors = 0
    rw [Function.update_of_ne]
    . exact h.waiting p hp
    . rw [h.current_eq]
      intro heq
      exact (List.nodup_cons.mp h.linked.nodup).left (heq ▸ hp)

theorem State.Core.endRequest {s s' : State} {queue : Requests.State} {uptodate : Bool} (h : s.Core (c :: rest))
    (hend : s.queue.endRequest uptodate = some queue) (hqueue : s'.queue = queue) (hfailures : s'.failures = 0)
    (hcharges : s'.charges = s.charges) (hhalt : s'.halt = s.halt)
    : s'.Inv rest ∧ ∀ p ∈ rest, (s'.queue.request p).errors = 0 := by
  obtain ⟨rest', hcons, hlinked, hsame, _⟩ := h.linked.endRequest hend
  obtain ⟨_, rfl⟩ := List.cons.inj hcons
  have hzero : ∀ p ∈ rest, (s'.queue.request p).errors = 0 := by
    intro p hp
    rw [hqueue, hsame p hp]
    exact h.waiting p hp
  refine ⟨⟨⟨hhalt.trans h.running, hqueue ▸ hlinked, ?_, hcharges ▸ h.charges⟩, fun _ => hfailures, ?_⟩, hzero⟩
  . exact fun p hp => hzero p (List.mem_of_mem_tail hp)
  . intro p hp
    rw [hfailures, hzero p (List.mem_of_mem_head? hp)]
    decide

theorem ensures_endRequest (h : s.Core (c :: rest)) (uptodate : Bool)
    : Ensures (endRequest uptodate) s (fun _ s' => s'.Inv rest ∧ ∀ p ∈ rest, (s'.queue.request p).errors = 0)
        Panics := by
  unfold endRequest
  apply Ensures.bind
  apply Ensures.get
  obtain ⟨queue, hend, _⟩ := Requests.State.endRequest_some h.current_ne uptodate
  rw [hend]
  apply Ensures.modify
  exact h.endRequest hend rfl rfl rfl rfl

theorem State.Inv.frame {s' : State} (h : s.Inv l) (hqueue : s'.queue = s.queue) (hfailures : s'.failures = s.failures)
    (hcharges : s'.charges = s.charges) (hhalt : s'.halt = s.halt)
    : s'.Inv l := by
  refine ⟨⟨hhalt.trans h.running, hqueue ▸ h.linked, ?_, hcharges ▸ h.charges⟩, ?_, ?_⟩
  . rw [hqueue]
    exact h.waiting
  . rw [hfailures]
    exact h.idle
  . rw [hqueue, hfailures]
    exact h.head

theorem lastChance_of (h : s.Core [c]) (herrors : (s.queue.request c).errors + 1 = MAX_ERRORS) : s.LastChance := by
  refine ⟨h.current_ne, ?_, ?_⟩
  . rw [h.current_eq]
    exact herrors
  . rw [h.current_eq]
    exact h.linked.chain.right.right

theorem State.LastChance.errors (h : s.LastChance) (hinv : s.Core (c :: rest))
    : (s.queue.request c).errors + 1 = MAX_ERRORS := by
  rw [← hinv.current_eq]
  exact h.right.left

def State.counted (s : State) : State :=
  { s with
    queue := { s.queue with
      request := Function.update s.queue.request s.queue.currentRequest
        { s.queue.request s.queue.currentRequest with
          errors := (s.queue.request s.queue.currentRequest).errors + 1 } }
    failures := s.failures + 1
    charges := (s.queue.currentRequest, s.subject) :: s.charges }

theorem ensures_countError {Q : Nat → State → Prop} (hne : s.queue.currentRequest ≠ 0)
    (h : Q ((s.queue.request s.queue.currentRequest).errors + 1) s.counted)
    : Ensures countError s Q Panics := by
  unfold countError
  apply Ensures.bind
  apply ensures_CURRENT hne
  apply Ensures.bind
  apply Ensures.modify
  apply Ensures.bind
  apply Ensures.modify
  exact Ensures.pure h

theorem ensures_badRwIntr (h : s.Inv (c :: rest)) (haimed : s.subject = s.queue.currentRequest)
    (hlast : ¬s.LastChance)
    : Ensures badRwIntr s
        (fun _ s' => ∃ c' rest', s'.Inv (c' :: rest') ∧ rest'.length ≤ rest.length ∧ ∀ answers, ¬s'.Endangered answers)
        Panics := by
  have hcurrent := h.current_eq
  obtain ⟨hfailures, herrors⟩ := h.head c rfl
  have hcore : s.counted.Core (c :: rest) := by
    apply h.toCore.set
    . rw [hcurrent]
      rfl
    . rw [hcurrent]
    . intro e he
      rcases List.mem_cons.mp he with rfl | he
      . exact haimed.symm
      . exact h.charges e he
  have herrors.counted : (s.counted.queue.request c).errors = (s.queue.request c).errors + 1 := by
    show (Function.update s.queue.request s.queue.currentRequest _ c).errors = _
    rw [hcurrent, Function.update_self]
  unfold badRwIntr
  apply Ensures.bind
  apply ensures_countError h.current_ne
  rw [hcurrent]
  apply Ensures.bind
  apply Ensures.ite
  . intro hmax
    cases rest with
    | nil => exact absurd (lastChance_of h.toCore (by omega)) hlast
    | cons c' rest' =>
      apply (ensures_endRequest hcore false).imp
      intro _ s₂ ⟨hinv, hzero⟩
      have hzero' := hzero c' List.mem_cons_self
      apply Ensures.bind
      apply ensures_CURRENT hinv.current_ne
      rw [hinv.current_eq, hzero', if_neg (by decide)]
      apply Ensures.pure
      refine ⟨c', rest', hinv, Nat.le_succ _, ?_⟩
      intro answers hendangered
      have hsix := hendangered.left.errors hinv.toCore
      rw [hzero'] at hsix
      exact absurd hsix (by decide)
  . intro hmax
    apply Ensures.pure
    apply Ensures.bind
    apply ensures_CURRENT hcore.current_ne
    rw [hcore.current_eq, herrors.counted]
    have hinv : s.counted.Inv (c :: rest) := by
      refine ⟨hcore, fun hnil => absurd hnil (List.cons_ne_nil c rest), ?_⟩
      intro p hp
      obtain rfl := Option.some.inj hp
      rw [herrors.counted]
      exact ⟨Nat.succ_le_succ hfailures, by omega⟩
    apply Ensures.ite
    . intro _
      apply Ensures.modify
      refine ⟨c, rest, hinv.frame rfl rfl rfl rfl, Nat.le_refl _, ?_⟩
      intro answers hendangered
      exact absurd hendangered.right.left Bool.noConfusion
    . intro hfew
      apply Ensures.pure
      refine ⟨c, rest, hinv, Nat.le_refl _, ?_⟩
      intro answers hendangered
      have hsix := hendangered.left.errors hcore
      rw [herrors.counted] at hsix
      unfold MAX_ERRORS at hsix hfew
      omega

theorem ensures_arm {Q : Unit → State → Prop} (ready : Bool) (output : Output) (handler : Handler)
    (h : Q () { s with doHd := some handler })
    : Ensures (arm ready output handler) s Q Panics := by
  unfold arm
  apply Ensures.ite
  . exact fun _ => Ensures.stop rfl
  . intro _
    apply Ensures.ite
    . exact fun _ => Ensures.stop rfl
    . exact fun _ => Ensures.modify h

theorem ensures_hdOut (h : s.Inv l) (ready : Bool) (output : Output) (handler : Handler)
    : Ensures (hdOut ready output handler) s
        (fun _ s' => s'.Inv l ∧ s'.subject = s'.queue.currentRequest ∧ s'.queue = s.queue) Panics := by
  unfold hdOut
  apply Ensures.bind
  apply ensures_arm
  apply Ensures.bind
  apply Ensures.get
  apply Ensures.modify
  exact ⟨h.frame rfl rfl rfl rfl, if_pos rfl, rfl⟩

theorem State.Inv.not_endangered_of_zero (h : s.Inv l) (hzero : ∀ p ∈ l, (s.queue.request p).errors = 0)
    (answers : List Answer)
    : ¬s.Endangered answers := by
  intro hendangered
  cases l with
  | nil => exact absurd h.linked.chain hendangered.left.left
  | cons c rest =>
    have hsix := hendangered.left.errors h.toCore
    rw [hzero c List.mem_cons_self] at hsix
    exact absurd hsix (by decide)

inductive Found (s : State) (l : List Nat) : Next → State → Prop where
  | idle (none : s.queue.currentRequest = 0) : Found s l .idle s
  | again {c : Nat} {rest : List Nat} {s' : State} (cons : l = c :: rest) (inv : s'.Inv rest)
      (fresh : ∀ p ∈ rest, (s'.queue.request p).errors = 0) : Found s l .again s'
  | command {output : Output} {handler : Handler} {s' : State} (some : s.queue.currentRequest ≠ 0) (inv : s'.Inv l)
      (queue_eq : s'.queue = s.queue) (reset : output.cmd = .WIN_WRITE → s.reset = false) :
      Found s l (.command output handler) s'

theorem ensures_nextCommand (disks : Disks) (h : s.Inv l)
    : Ensures (nextCommand disks) s (Found s l) Panics := by
  unfold nextCommand
  apply Ensures.bind
  apply Ensures.get
  apply Ensures.ite
  . exact fun hnone => Ensures.pure (.idle hnone)
  intro hne
  cases l with
  | nil => exact absurd h.linked.chain hne
  | cons c rest =>
  apply Ensures.bind
  apply ensures_CURRENT hne
  apply Ensures.ite
  . exact fun _ => Ensures.stop rfl
  intro _
  apply Ensures.ite
  . exact fun _ => Ensures.stop rfl
  intro _
  apply Ensures.ite
  . intro _
    apply Ensures.bind
    apply (ensures_endRequest h.toCore false).imp
    intro _ s' ⟨hinv, hfresh⟩
    exact Ensures.pure (.again rfl hinv hfresh)
  intro _
  apply Ensures.ite
  . exact fun _ => Ensures.stop rfl
  intro _
  apply Ensures.ite
  . intro _
    apply Ensures.bind
    apply Ensures.modify
    apply Ensures.pure
    exact .command hne (h.frame rfl rfl rfl rfl) rfl nofun
  intro hreset
  apply Ensures.ite
  . intro _
    apply Ensures.bind
    apply Ensures.modify
    apply Ensures.pure
    exact .command hne (h.frame rfl rfl rfl rfl) rfl nofun
  intro _
  apply Ensures.ite
  . intro _
    apply Ensures.pure
    exact .command hne h rfl fun _ => Bool.not_eq_true _ ▸ hreset
  intro _
  apply Ensures.ite
  . intro _
    apply Ensures.pure
    exact .command hne h rfl nofun
  . exact fun _ => Ensures.stop rfl

-- What is left when the data of a `WIN_WRITE` have been sent, or have not been asked for.
def State.Written (s : State) (rest : List Nat) (drq again : Bool) (s' : State) : Prop :=
  if again then
    drq = false ∧ ∃ c' rest', s'.Inv (c' :: rest') ∧ rest'.length ≤ rest.length ∧ ∀ answers, ¬s'.Endangered answers
  else
    s' = s

theorem ensures_writeData (h : s.Inv (c :: rest)) (haimed : s.subject = s.queue.currentRequest) {drq : Bool}
    (hlast : drq = false → ¬s.LastChance)
    : Ensures (writeData drq) s (s.Written rest drq) Panics := by
  unfold writeData
  cases drq with
  | true =>
    apply Ensures.bind
    apply ensures_CURRENT h.current_ne
    exact Ensures.pure rfl
  | false =>
    apply Ensures.bind
    apply (ensures_badRwIntr h haimed (hlast rfl)).imp
    intro _ s' hbad
    exact Ensures.pure ⟨rfl, hbad⟩

theorem exists_of_not_drq {answers : List Answer}
    (h : (answers.headD { ready := true, drq := true }).drq = false)
    : ∃ answer others, answers = answer :: others ∧ answer.drq = false := by
  cases answers with
  | nil => cases h
  | cons answer others => exact ⟨answer, others, rfl, h⟩

theorem ensures_doHdRequest (disks : Disks) {fuel : Nat} {answers : List Answer} (h : s.Inv l)
    (hfuel : l.length + answers.length < fuel) (hsafe : ¬s.Endangered answers)
    : Ensures (doHdRequest disks fuel answers) s (fun _ s' => ∃ l', s'.Inv l' ∧ s'.Aimed) Panics := by
  induction fuel generalizing s l answers with
  | zero => exact absurd hfuel (Nat.not_lt_zero _)
  | succ fuel ih =>
    unfold doHdRequest
    apply Ensures.bind
    apply (ensures_nextCommand disks h).imp
    intro next s₁ hfound
    cases hfound with
    | idle hnone => exact Ensures.pure ⟨l, h, fun _ hne => absurd hnone hne⟩
    | again hcons hinv hfresh =>
      subst hcons
      rw [List.length_cons] at hfuel
      exact ih hinv (by omega) (hinv.not_endangered_of_zero hfresh answers)
    | @command output handler _ hne hinv hqueue hreset =>
      cases l with
      | nil => exact absurd h.linked.chain hne
      | cons c rest =>
      apply Ensures.bind
      apply (ensures_hdOut hinv _ output handler).imp
      intro _ s₂ ⟨hinv₂, haimed, hqueue₂⟩
      apply Ensures.ite
      . intro hwrite
        -- If the command is not answered, this is not the last chance of the request.
        have hlast : (answers.headD { ready := true, drq := true }).drq = false → ¬s₂.LastChance := by
          intro hdrq hlast
          obtain ⟨answer, others, rfl, hanswer⟩ := exists_of_not_drq hdrq
          unfold State.LastChance at hlast
          rw [hqueue₂, hqueue] at hlast
          exact hsafe ⟨hlast, hreset hwrite, answer, List.mem_cons_self, hanswer⟩
        apply Ensures.bind
        apply (ensures_writeData hinv₂ haimed hlast).imp
        intro again s₃ hwritten
        cases again with
        | false =>
          obtain rfl : s₃ = s₂ := hwritten
          exact Ensures.pure ⟨c :: rest, hinv₂, fun _ _ => haimed⟩
        | true =>
          obtain ⟨hdrq, c', rest', hinv₃, hlength, hsafe₃⟩ := hwritten
          obtain ⟨answer, others, rfl, _⟩ := exists_of_not_drq hdrq
          rw [List.length_cons, List.length_cons] at hfuel
          apply ih hinv₃ _ (hsafe₃ _)
          rw [List.length_cons, List.tail_cons]
          omega
      . intro _
        exact Ensures.pure ⟨c :: rest, hinv₂, fun _ _ => haimed⟩

theorem lt_fuel (h : s.Core l) (answers : List Answer) : l.length + answers.length < fuel answers := by
  have hlength := h.linked.length_le
  unfold fuel
  omega

section Handlers

variable (disks : Disks) (answers : List Answer)

theorem ensures_failed (h : s.Inv (c :: rest)) (haimed : s.subject = s.queue.currentRequest) (hlast : ¬s.LastChance)
    : Ensures (badRwIntr >>= fun _ => doHdRequest disks (fuel answers) answers) s
        (fun _ s' => ∃ l', s'.Inv l' ∧ s'.Aimed) Panics := by
  apply Ensures.bind
  apply (ensures_badRwIntr h haimed hlast).imp
  intro _ s' ⟨c', rest', hinv, _, hsafe⟩
  exact ensures_doHdRequest disks hinv (lt_fuel hinv.toCore answers) (hsafe answers)

theorem ensures_ended (h : s.Core (c :: rest))
    : Ensures (endRequest true >>= fun _ => doHdRequest disks (fuel answers) answers) s
        (fun _ s' => ∃ l', s'.Inv l' ∧ s'.Aimed) Panics := by
  apply Ensures.bind
  apply (ensures_endRequest h true).imp
  intro _ s' ⟨hinv, hzero⟩
  exact ensures_doHdRequest disks hinv (lt_fuel hinv.toCore answers) (hinv.not_endangered_of_zero hzero answers)

theorem State.Inv.transferred {request : Request} (h : s.Inv (c :: rest))
    (hnext : request.next = (s.queue.request s.queue.currentRequest).next)
    (hdev : request.dev = (s.queue.request s.queue.currentRequest).dev) (herrors : request.errors < MAX_ERRORS)
    : State.Inv { s with
        queue := { s.queue with request := Function.update s.queue.request s.queue.currentRequest request }
        failures := 0 } (c :: rest) := by
  have hcurrent := h.current_eq
  rw [hcurrent] at hnext hdev
  refine ⟨h.toCore.set hnext hdev h.charges, fun _ => rfl, ?_⟩
  intro p hp
  obtain rfl := Option.some.inj hp
  refine ⟨Nat.zero_le _, ?_⟩
  show (Function.update s.queue.request s.queue.currentRequest request c).errors < MAX_ERRORS
  rw [hcurrent, Function.update_self]
  exact herrors

theorem ensures_readIntr (h : s.Inv (c :: rest)) (haimed : s.subject = s.queue.currentRequest) (ok : Bool)
    (hlast : ok = false → ¬s.LastChance)
    : Ensures (readIntr disks ok answers) s (fun _ s' => ∃ l', s'.Inv l' ∧ s'.Aimed) Panics := by
  unfold readIntr
  cases ok with
  | false => exact ensures_failed disks answers h haimed (hlast rfl)
  | true =>
    apply Ensures.bind
    apply ensures_CURRENT h.current_ne
    generalize decrement (s.queue.request s.queue.currentRequest).nrSectors = nrSectors
    dsimp only
    apply Ensures.bind
    apply Ensures.modify
    apply Ensures.bind
    apply Ensures.modify
    have hinv := @State.Inv.transferred s c rest
      { s.queue.request s.queue.currentRequest with
        errors := 0, sector := (s.queue.request s.queue.currentRequest).sector + 1, nrSectors }
      h rfl rfl (Nat.zero_lt_succ 6)
    apply Ensures.ite
    . intro _
      apply Ensures.modify
      exact ⟨c :: rest, hinv.frame rfl rfl rfl rfl, fun _ _ => haimed⟩
    . intro _
      exact ensures_ended disks answers hinv.toCore

theorem ensures_writeIntr (h : s.Inv (c :: rest)) (haimed : s.subject = s.queue.currentRequest) (ok : Bool)
    (hlast : ok = false → ¬s.LastChance)
    : Ensures (writeIntr disks ok answers) s (fun _ s' => ∃ l', s'.Inv l' ∧ s'.Aimed) Panics := by
  have herrors : (s.queue.request s.queue.currentRequest).errors < MAX_ERRORS := by
    rw [h.current_eq]
    exact (h.head c rfl).right
  unfold writeIntr
  cases ok with
  | false => exact ensures_failed disks answers h haimed (hlast rfl)
  | true =>
    apply Ensures.bind
    apply ensures_CURRENT h.current_ne
    generalize decrement (s.queue.request s.queue.currentRequest).nrSectors = nrSectors
    dsimp only
    apply Ensures.bind
    apply Ensures.modify
    apply Ensures.ite
    . intro _
      apply Ensures.bind
      apply Ensures.modify
      apply Ensures.modify
      have hinv := @State.Inv.transferred s c rest
        { s.queue.request s.queue.currentRequest with
          sector := (s.queue.request s.queue.currentRequest).sector + 1, nrSectors }
        h rfl rfl herrors
      exact ⟨c :: rest, hinv.frame rfl rfl rfl rfl, fun _ _ => haimed⟩
    . intro _
      apply Ensures.bind
      apply Ensures.modify
      have hinv := @State.Inv.transferred s c rest { s.queue.request s.queue.currentRequest with nrSectors } h rfl rfl
        herrors
      exact ensures_ended disks answers hinv.toCore

theorem ensures_recalIntr (h : s.Inv (c :: rest)) (haimed : s.subject = s.queue.currentRequest) (ok : Bool)
    (hlast : ok = false → ¬s.LastChance) (hsafe : ¬s.Endangered answers)
    : Ensures (recalIntr disks ok answers) s (fun _ s' => ∃ l', s'.Inv l' ∧ s'.Aimed) Panics := by
  unfold recalIntr
  cases ok with
  | false => exact ensures_failed disks answers h haimed (hlast rfl)
  | true => exact ensures_doHdRequest disks h (lt_fuel h.toCore answers) hsafe

theorem ensures_handle (h : s.Inv (c :: rest)) (haimed : s.subject = s.queue.currentRequest) (ok : Bool)
    (hlast : ok = false → ¬s.LastChance) (hsafe : ¬s.Endangered answers) (handler : Handler)
    : Ensures (handle disks ok answers handler) s (fun _ s' => ∃ l', s'.Inv l' ∧ s'.Aimed) Panics := by
  cases handler with
  | readIntr => exact ensures_readIntr disks answers h haimed ok hlast
  | writeIntr => exact ensures_writeIntr disks answers h haimed ok hlast
  | recalIntr => exact ensures_recalIntr disks answers h haimed ok hlast hsafe

end Handlers

namespace State

/--
What is to hold in every state of the driver: it has not used `CURRENT` without a request, its loops have ended, errors
have been counted for the requests that had failed only, and no request is in the queue that has failed as often as is
permitted.
-/
structure Behaves (s : State) : Prop where
  null : s.halt ≠ some .null
  ended : s.halt ≠ some .fuel
  charges : ∀ c ∈ s.charges, c.fst = c.snd
  failures : s.failures < MAX_ERRORS

theorem Inv.failures_lt (h : s.Inv l) : s.failures < MAX_ERRORS := by
  cases l with
  | nil =>
    rw [h.idle rfl]
    decide
  | cons c rest =>
    obtain ⟨hle, hlt⟩ := h.head c rfl
    exact Nat.lt_of_le_of_lt hle hlt

theorem Inv.behaves (h : s.Inv l) : s.Behaves := by
  have hhalt := h.running
  refine ⟨?_, ?_, h.charges, h.failures_lt⟩
  . rw [hhalt]
    decide
  . rw [hhalt]
    decide

theorem Inv.behaves_panic (h : s.Inv l) : State.Behaves { s with halt := some .panic } := by
  refine ⟨?_, ?_, h.charges, h.failures_lt⟩
  . show some Halt.panic ≠ some .null
    decide
  . show some Halt.panic ≠ some .fuel
    decide

theorem errors_of_body {a b : Request} (h : a.body = b.body) : a.errors = b.errors :=
  show a.body.errors = b.body.errors from congrArg Request.errors h

theorem Inv.add {queue : Requests.State} {req : Nat} {order : Requests.Order} (h : s.Inv l)
    (hlinked : queue.Linked (queue.inserted req l)) (hreq : (queue.request req).body = order.request.body)
    (hbody : ∀ p ∈ l, (queue.request p).body = (s.queue.request p).body)
    : Inv { s with queue } (queue.inserted req l) := by
  have hreq' : (queue.request req).errors = 0 := errors_of_body hreq
  cases l with
  | nil =>
    refine ⟨⟨h.running, hlinked, ?_, h.charges⟩, fun hnil => absurd hnil (List.cons_ne_nil _ _), ?_⟩
    . intro p hp
      cases hp
    intro p hp
    obtain rfl := Option.some.inj hp
    show s.failures ≤ (queue.request req).errors ∧ (queue.request req).errors < MAX_ERRORS
    rw [h.idle rfl, hreq']
    decide
  | cons c rest =>
    have hhead := h.head c rfl
    rw [← errors_of_body (hbody c List.mem_cons_self)] at hhead
    refine ⟨⟨h.running, hlinked, ?_, h.charges⟩, fun hnil => absurd hnil (List.cons_ne_nil _ _), ?_⟩
    . intro p hp
      obtain ⟨front, back, hrest, hinsert⟩ := @Sweep.insertAfter_split _ queue.Before _ req c rest
      have hmem : p ∈ front ++ req :: back := hinsert ▸ hp
      have hcases : p = req ∨ p ∈ rest := by
        rw [hrest]
        simpa [or_left_comm] using hmem
      show (queue.request p).errors = 0
      rcases hcases with rfl | hp'
      . exact hreq'
      . rw [errors_of_body (hbody p (List.mem_cons_of_mem c hp'))]
        exact h.waiting p hp'
    . intro p hp
      obtain rfl := Option.some.inj hp
      exact hhead

end State

namespace Driver

/--
A step in which no request fails in its last chance, in which a handler that is set finds a request, and in which no
interrupt finds one while `add_request` is still in `do_hd_request`.
-/
def Spares (s : Driver) : Act → Prop
  | .add _ _ => True
  | .goOn answer => s.doing = some .waiting → answer.drq = false → ¬s.hd.LastChance
  | .interrupt ok answers =>
    s.hd.doHd ≠ none → s.doing = none ∧ s.hd.queue.currentRequest ≠ 0
      ∧ ¬(s.hd.LastChance ∧ (ok = false ∨ ∃ answer ∈ answers, answer.drq = false))

def Behaves (s : Driver) : Prop :=
  s.hd.Behaves

-- What the parts of `do_hd_request` hand on to each other when no interrupt comes between them.
def Ready (s : Driver) : Prop :=
  match s.doing with
  | none => s.hd.Aimed
  | some .entry => True
  | some (.sending _ req) => s.hd.queue.currentRequest ≠ 0 ∧ req = s.hd.queue.currentRequest
  | some .waiting => s.hd.queue.currentRequest ≠ 0 ∧ s.hd.subject = s.hd.queue.currentRequest

-- What a run comes to: the driver works, or it has ended in a panic.
inductive Good : Driver → Prop where
  | works {s : Driver} {l : List Nat} (inv : s.hd.Inv l) (ready : s.Ready) : Good s
  | panics {s : Driver} {l : List Nat} (inv : s.hd.Inv l) : Good { s with hd := { s.hd with halt := some .panic } }

theorem Good.behaves {s : Driver} (h : s.Good) : s.Behaves := by
  cases h with
  | works inv => exact inv.behaves
  | panics inv => exact inv.behaves_panic

theorem step_add_good {disks : Disks} {s s' : Driver} {req : Nat} {order : Requests.Order} (h : s.hd.Inv l)
    (hready : s.Ready) (hstep : s.step disks (.add req order) = some s')
    : s'.Good := by
  rw [step, Option.ite_none_right_eq_some] at hstep
  obtain ⟨⟨_, hdoing, hpos, hle, hfree, hdev⟩, hsome⟩ := hstep
  have hlock : (lockBuffer s.hd.queue order.bh).Linked l := ⟨h.linked.chain, h.linked.nodup, h.linked.slot⟩
  obtain ⟨queue, hmake, hlinked, hreq, hbody, _⟩ := hlock.makeRequest hpos hle hfree hdev
  have hinv := h.add hlinked hreq hbody
  have haimed : s.hd.Aimed := by
    unfold Ready at hready
    rwa [hdoing] at hready
  rw [hmake] at hsome
  obtain rfl := Option.some.inj hsome
  apply Good.works hinv
  unfold Ready
  dsimp only
  by_cases hnone : s.hd.queue.currentRequest = 0
  . rw [if_pos hnone]
    trivial
  . rw [if_neg hnone]
    intro hset _
    have hcurrent : queue.currentRequest = s.hd.queue.currentRequest :=
      Requests.State.inserted_current h.linked hlinked hnone
    exact (haimed hset hnone).trans hcurrent.symm

theorem ensures_goOn {disks : Disks} {s : Driver} {answer : Answer} {doing : Doing} (h : s.hd.Inv l)
    (hdoing : s.doing = some doing) (hready : s.Ready) (hspares : s.Spares (.goOn answer))
    : Ensures (HardDisk.goOn disks answer doing) s.hd
        (fun doing' hd => ∃ l', hd.Inv l' ∧ Driver.Ready { hd, doing := doing' }) Panics := by
  unfold Ready at hready
  rw [hdoing] at hready
  cases doing with
  | entry =>
    apply Ensures.bind
    apply (ensures_nextCommand disks h).imp
    intro next hd hfound
    cases hfound with
    | idle hnone => exact Ensures.pure ⟨l, h, fun _ hne => absurd hnone hne⟩
    | again _ hinv _ => exact Ensures.pure ⟨_, hinv, trivial⟩
    | command hne hinv hqueue _ =>
      apply Ensures.bind
      apply ensures_arm
      apply Ensures.bind
      apply Ensures.get
      apply Ensures.pure
      exact ⟨l, hinv.frame rfl rfl rfl rfl, hqueue ▸ hne, rfl⟩
  | sending output req =>
    obtain ⟨hne, hreq⟩ := hready
    apply Ensures.bind
    apply Ensures.modify
    apply Ensures.pure
    refine ⟨l, h.frame rfl rfl rfl rfl, ?_⟩
    by_cases hwrite : output.cmd = .WIN_WRITE
    . rw [if_pos hwrite]
      exact ⟨hne, (if_pos hreq).trans hreq⟩
    . rw [if_neg hwrite]
      exact fun _ _ => (if_pos hreq).trans hreq
  | waiting =>
    obtain ⟨hne, haimed⟩ := hready
    cases l with
    | nil => exact absurd h.linked.chain hne
    | cons c rest =>
      apply Ensures.bind
      apply (ensures_writeData h haimed (hspares hdoing)).imp
      intro again hd hwritten
      cases again with
      | false =>
        obtain rfl : hd = s.hd := hwritten
        exact Ensures.pure ⟨c :: rest, h, fun _ _ => haimed⟩
      | true =>
        obtain ⟨_, c', rest', hinv, _⟩ := hwritten
        exact Ensures.pure ⟨c' :: rest', hinv, trivial⟩

theorem step_goOn_good {disks : Disks} {s s' : Driver} {answer : Answer} (h : s.hd.Inv l) (hready : s.Ready)
    (hspares : s.Spares (.goOn answer)) (hstep : s.step disks (.goOn answer) = some s')
    : s'.Good := by
  rw [step, if_pos h.running, Option.map_eq_some_iff] at hstep
  obtain ⟨doing, hdoing, rfl⟩ := hstep
  have hensures := @ensures_goOn l disks s answer doing h hdoing hready hspares
  unfold goOn
  split
  . next doing' hd heq =>
    obtain ⟨l', hinv, hready'⟩ := hensures.ok heq
    exact .works hinv hready'
  . next halt heq =>
    have hpanic : halt = .panic := hensures.error heq
    rw [hpanic]
    exact .panics h

theorem run_good {s : Driver} {x : Hd Unit} {hd : State} (h : hd.Inv l) (hdoing : s.doing = none)
    (hx : Ensures x hd (fun _ s' => ∃ l', s'.Inv l' ∧ s'.Aimed) Panics)
    : Good { s with hd := hd.run x } := by
  unfold State.run
  split
  . next hd' heq =>
    obtain ⟨l', hinv, haimed⟩ := hx.ok heq
    apply Good.works hinv
    unfold Ready
    rw [hdoing]
    exact haimed
  . next halt heq =>
    have hpanic : halt = .panic := hx.error heq
    rw [hpanic]
    exact @Good.panics { s with hd } l h

theorem step_interrupt_good {disks : Disks} {s s' : Driver} {ok : Bool} {answers : List Answer} (h : s.hd.Inv l)
    (hready : s.Ready) (hspares : s.Spares (.interrupt ok answers))
    (hstep : s.step disks (.interrupt ok answers) = some s')
    : s'.Good := by
  rw [step, if_pos h.running] at hstep
  split at hstep
  . obtain rfl := Option.some.inj hstep
    exact .works h hready
  . next handler hset =>
    obtain rfl := Option.some.inj hstep
    have hset' : s.hd.doHd ≠ none := by
      rw [hset]
      exact Option.some_ne_none handler
    obtain ⟨hdoing, hne, hspared⟩ := hspares hset'
    unfold Ready at hready
    rw [hdoing] at hready
    cases l with
    | nil => exact absurd h.linked.chain hne
    | cons c rest =>
      have hinv : State.Inv { s.hd with doHd := none } (c :: rest) := h.frame rfl rfl rfl rfl
      apply run_good hinv hdoing
      apply ensures_handle disks answers hinv (hready hset' hne)
      . intro hfailed hlast
        exact hspared ⟨hlast, .inl hfailed⟩
      . intro hendangered
        exact hspared ⟨hendangered.left, .inr hendangered.right.right⟩

theorem step_good {disks : Disks} {s s' : Driver} {a : Act} (h : s.Good) (hspares : s.Spares a)
    (hstep : s.step disks a = some s')
    : s'.Good := by
  cases h with
  | works inv ready =>
    cases a with
    | add => exact step_add_good inv ready hstep
    | goOn => exact step_goOn_good inv ready hspares hstep
    | interrupt => exact step_interrupt_good inv ready hspares hstep
  | panics inv =>
    cases a with
    | add => simp [step] at hstep
    | goOn => simp [step] at hstep
    | interrupt => simp [step] at hstep

theorem init_good (bDirt bUptodate bLock : Nat → Bool) : (init bDirt bUptodate bLock).Good := by
  apply @Good.works _ []
  . refine ⟨⟨rfl, ⟨rfl, List.nodup_nil, ?_⟩, ?_, ?_⟩, fun _ => rfl, ?_⟩
    . exact fun p hp => nomatch hp
    . exact fun p hp => nomatch hp
    . exact fun c hc => nomatch hc
    . exact fun p hp => nomatch hp
  . exact fun _ hne => absurd rfl hne

end Driver

namespace State

theorem CURRENT_null (h : s.queue.currentRequest = 0) : CURRENT s = .error .null := by
  unfold CURRENT
  rw [Machine.bind_of_eq_ok Machine.get_eq, if_pos h]
  rfl

theorem countError_eq (h : s.queue.currentRequest ≠ 0)
    : countError s = .ok ((s.queue.request s.queue.currentRequest).errors + 1, s.counted) := by
  have hcurrent : CURRENT s = .ok (s.queue.request s.queue.currentRequest, s) := by
    unfold CURRENT
    rw [Machine.bind_of_eq_ok Machine.get_eq, if_neg h]
    rfl
  unfold countError
  rw [Machine.bind_of_eq_ok hcurrent]
  rfl

theorem badRwIntr_null (h : s.queue.currentRequest = 0 ∨ s.LastChance) : badRwIntr s = .error .null := by
  unfold badRwIntr
  rcases h with hnone | ⟨hne, herrors, hlast⟩
  . have hcount : countError s = .error .null := Machine.bind_of_eq_error (CURRENT_null hnone)
    exact Machine.bind_of_eq_error hcount
  . rw [Machine.bind_of_eq_ok (countError_eq hne), herrors, if_pos (Nat.le_refl _)]
    have hnext : s.counted.queue.next s.queue.currentRequest = 0 := by
      show (Function.update s.queue.request s.queue.currentRequest _ s.queue.currentRequest).next = 0
      rw [Function.update_self]
      exact hlast
    obtain ⟨queue, hend, hqueue⟩ := @Requests.State.endRequest_some s.counted.queue hne false
    have hended : ∃ s', endRequest false s.counted = .ok ((), s') ∧ s'.queue = queue := by
      unfold endRequest
      rw [Machine.bind_of_eq_ok Machine.get_eq, hend]
      exact ⟨_, rfl, rfl⟩
    obtain ⟨s', hs', hqueue'⟩ := hended
    rw [Machine.bind_of_eq_ok hs']
    apply Machine.bind_of_eq_error
    apply CURRENT_null
    rw [hqueue', hqueue]
    exact hnext

end State

namespace Driver

theorem halt_of_failure {disks : Disks} {s : Driver} {answers : List Answer} (hrunning : s.hd.halt = none)
    (hset : s.hd.doHd ≠ none) (h : s.hd.queue.currentRequest = 0 ∨ s.hd.LastChance)
    : ∃ s', s.step disks (.interrupt false answers) = some s' ∧ s'.hd.halt = some .null := by
  obtain ⟨handler, hhandler⟩ := Option.ne_none_iff_exists'.mp hset
  have hbad : badRwIntr { s.hd with doHd := none } = .error .null := State.badRwIntr_null h
  have hhandle : handle disks false answers handler { s.hd with doHd := none } = .error .null := by
    cases handler with
    | readIntr => exact Machine.bind_of_eq_error hbad
    | writeIntr => exact Machine.bind_of_eq_error hbad
    | recalIntr => exact Machine.bind_of_eq_error hbad
  refine ⟨_, by rw [step, if_pos hrunning, hhandler], ?_⟩
  unfold State.run
  rw [hhandle]

instance decidableLastChance (s : State) : Decidable s.LastChance :=
  inferInstanceAs (Decidable (_ ∧ _ ∧ _))

instance decidableSpares (s : Driver) : (a : Act) → Decidable (s.Spares a)
  | .add _ _ => isTrue trivial
  | .goOn answer => inferInstanceAs (Decidable (s.doing = some .waiting → answer.drq = false → ¬s.hd.LastChance))
  | .interrupt ok answers =>
    inferInstanceAs (Decidable (s.hd.doHd ≠ none → s.doing = none ∧ s.hd.queue.currentRequest ≠ 0
      ∧ ¬(s.hd.LastChance ∧ (ok = false ∨ ∃ answer ∈ answers, answer.drq = false))))

def oneDisk : Disks :=
  { NR_HD := 1, hdInfo := fun _ => { head := 4, sect := 17, cyl := 100 }, hd := fun _ => ⟨0, 6800⟩ }

def start : Driver :=
  init (fun _ => false) (fun _ => false) fun _ => false

def orderAct (cmd : Nat) : List Act :=
  [.add 32 { dev := 0x300, cmd, sector := 10, bh := 1 }, .goOn ⟨true, true⟩, .goOn ⟨true, true⟩]

def retryRun : List Act :=
  orderAct READ ++ [.interrupt true [], .interrupt true [], .interrupt false [], .interrupt true [], .interrupt true []]

def brokenRun : List Act :=
  orderAct READ ++ List.replicate 7 (.interrupt false [])

def earlyRun : List Act :=
  orderAct READ ++ ([.interrupt true [], .interrupt true [], .interrupt true [], .interrupt true [],
    .add 32 { dev := 0x300, cmd := WRITE, sector := 10, bh := 2 }, .goOn ⟨true, true⟩, .goOn ⟨true, true⟩,
    .interrupt true [], .interrupt true [], .goOn ⟨true, true⟩] : List Act)

example : (Run.exec (step oneDisk) (init (fun _ => true) (fun _ => false) fun _ => false) earlyRun).map
    (fun s => s.hd.halt) = some (some .null) := by
  decide +kernel

end Driver

end HardDisk
end OS
