import ByDoing.NetWork.TcpConnection

/-!
This module contains the byte stream a connection sends: the runs of `tcp_connection_send_data`,
`tcp_connection_send_buffer` and `handle_write` over one connection, with whatever `write` returns in
each of them. A step without a result is one that ends the process.
-/

namespace NetWork
namespace SendStream

-- `handed` are the bytes the callers have passed to the send functions so far.
structure Stream where
  conn : TcpConnection
  handed : List UInt8

inductive Op where
  | sendData (data : CharPtr) (size : Nat) (res : WriteResult)
  | sendBuffer (buffer : Buffer) (outside : CharPtr) (res : WriteResult)
  | handleWrite (res : WriteResult)

def init (fd : Int) (garbage : Nat → UInt8) : Stream :=
  { conn := TcpConnection.tcpConnectionNew fd garbage, handed := [] }

namespace Op

def res : Op → WriteResult
  | sendData _ _ res => res
  | sendBuffer _ _ res => res
  | handleWrite res => res

def size (s : Stream) : Op → Nat
  | sendData _ size _ => size
  | sendBuffer buffer _ _ => buffer.bufferReadableSize
  | handleWrite _ => s.conn.outputBuffer.bufferReadableSize

def callsWrite (s : Stream) : Op → Bool
  | sendData _ _ _ => s.conn.writesDirectly
  | sendBuffer _ _ _ => s.conn.writesDirectly
  | handleWrite _ => true

def isSend : Op → Bool
  | handleWrite _ => false
  | _ => true

end Op

def step (realloc : Realloc) (s : Stream) : Op → Option Stream
  | .sendData data size res =>
    match s.conn.tcpConnectionSendData realloc data size res with
    | none => none
    | some (conn, _) => some { conn, handed := s.handed ++ data.bytes 0 size }
  | .sendBuffer buffer outside res =>
    match s.conn.tcpConnectionSendBuffer realloc buffer outside res with
    | none => none
    | some (conn, _, _) => some { conn, handed := s.handed ++ buffer.readable }
  | .handleWrite res =>
    match s.conn.handleWrite res with
    | none => none
    | some conn => some { s with conn }

-- What the callers may ask for and what `write` may answer.
structure Allowed (s : Stream) (op : Op) : Prop where
  size_lt : op.size s < 2 ^ 31
  buffer_wf : ∀ (buffer : Buffer) (outside : CharPtr) (res : WriteResult),
    op = .sendBuffer buffer outside res → buffer.Wf
  accepted_le : op.callsWrite s = true → op.res.accepted ≤ op.size s
  errno_eq : ∀ (errno : Errno), op.res = .error errno → errno = .EWOULDBLOCK

def TakesAll (s : Stream) (op : Op) : Prop :=
  op.isSend = true → op.res = .count (op.size s)

def Intact (s : Stream) : Prop :=
  s.conn.socket ++ s.conn.outputBuffer.readable = s.handed
    ∧ (s.conn.outputBuffer.readable ≠ [] → s.conn.isEnabled = true)

structure Inv (s : Stream) : Prop where
  idle : s.conn.Idle
  socket_eq : s.conn.socket = s.handed

theorem init_inv (fd : Int) (garbage : Nat → UInt8) : Inv (init fd garbage) :=
  ⟨TcpConnection.idle_tcpConnectionNew fd garbage, rfl⟩

variable {realloc : Realloc} {s : Stream} {op : Op}

theorem Inv.intact (hinv : Inv s) : Intact s := by
  have hnil : s.conn.outputBuffer.readable = [] := (Buffer.readable_eq_nil_iff hinv.idle.wf).mpr hinv.idle.empty
  refine ⟨?_, ?_⟩
  . rw [hnil, List.append_nil]
    exact hinv.socket_eq
  . intro hne
    exact absurd hnil hne

theorem Inv.sent (hinv : Inv s) (bytes : List UInt8)
    : Inv { conn := { s.conn with socket := s.conn.socket ++ bytes }, handed := s.handed ++ bytes } :=
  ⟨hinv.idle.setSocket _, congrArg (· ++ bytes) hinv.socket_eq⟩

theorem Inv.step_of_takesAll (hinv : Inv s) (hallowed : Allowed s op) (htakes : TakesAll s op)
    : ∃ s', step realloc s op = some s' ∧ Inv s' := by
  cases op with
  | sendData data size res =>
    have hres : res = .count size := htakes rfl
    subst hres
    have hsend := hinv.idle.sendData_of_count realloc data size
    unfold step
    dsimp only [Op.size] at hsend ⊢
    rw [hsend]
    exact ⟨_, rfl, hinv.sent _⟩
  | sendBuffer buffer outside res =>
    have hres : res = .count buffer.bufferReadableSize := htakes rfl
    subst hres
    have hsend := hinv.idle.sendData_of_count realloc (TcpConnection.readPtr buffer outside) buffer.bufferReadableSize
    unfold step TcpConnection.tcpConnectionSendBuffer
    dsimp only [Op.size] at hsend ⊢
    rw [hsend, TcpConnection.bytes_readPtr (hallowed.buffer_wf buffer outside _ rfl)]
    exact ⟨_, rfl, hinv.sent _⟩
  | handleWrite res =>
    have hhandle : s.conn.handleWrite res = some s.conn := hinv.idle.handleWrite (hallowed.accepted_le rfl)
    unfold step
    dsimp only
    rw [hhandle]
    exact ⟨_, rfl, hinv⟩

theorem Inv.takesAll_of_step (hinv : Inv s) (hallowed : Allowed s op) {s' : Stream} (hstep : step realloc s op = some s')
    : TakesAll s op := by
  intro hsend
  by_contra hne
  cases op with
  | sendData data size res =>
    have hnone : s.conn.tcpConnectionSendData realloc data size res = none :=
      hinv.idle.sendData_of_ne_count realloc data hallowed.size_lt (hallowed.accepted_le hinv.idle.writesDirectly) hne
    unfold step at hstep
    dsimp only at hstep
    rw [hnone] at hstep
    cases hstep
  | sendBuffer buffer outside res =>
    have hnone : s.conn.tcpConnectionSendData realloc (TcpConnection.readPtr buffer outside)
        buffer.bufferReadableSize res = none :=
      hinv.idle.sendData_of_ne_count realloc _ hallowed.size_lt (hallowed.accepted_le hinv.idle.writesDirectly) hne
    unfold step TcpConnection.tcpConnectionSendBuffer at hstep
    dsimp only at hstep
    rw [hnone] at hstep
    cases hstep
  | handleWrite res => cases hsend

/--
The stream is intact in every state of a run in which `write` takes all the bytes of every send, and a further step
keeps it so exactly if it is one of these.
-/
theorem intact_iff_takesAll (realloc : Realloc) (fd : Int) (garbage : Nat → UInt8) (s : Stream)
    (h : Run.Reaches (step realloc) (fun s op => Allowed s op ∧ TakesAll s op) (init fd garbage) s)
    : Intact s ∧ ∀ op, Allowed s op → ((∃ s', step realloc s op = some s' ∧ Intact s') ↔ TakesAll s op) := by
  have hinv : Inv s := by
    apply h.invariant Inv (init_inv fd garbage)
    intro s s' op hinv hok hstep
    obtain ⟨t, ht, hinv'⟩ := hinv.step_of_takesAll hok.left hok.right
    rw [hstep, Option.some.injEq] at ht
    exact ht ▸ hinv'
  refine ⟨hinv.intact, ?_⟩
  intro op hallowed
  constructor
  . intro ⟨s', hstep, _⟩
    exact hinv.takesAll_of_step hallowed hstep
  . intro htakes
    obtain ⟨s', hstep, hinv'⟩ := hinv.step_of_takesAll hallowed htakes
    exact ⟨s', hstep, hinv'.intact⟩

def hi : CharPtr := fun i =>
  if i = 0 then 0x68 else if i = 1 then 0x69 else 0

def reallocOk : Realloc := fun _ => some fun _ => 0

theorem allowed_sendData (s : Stream) (data : CharPtr) {size : Nat} (hsize : size < 2 ^ 31)
    : Allowed s (.sendData data size (.count size)) :=
  ⟨hsize, nofun, fun _ => Nat.le_refl _, nofun⟩

theorem intact_iff_takesAll_hi
    : ∃ s, Run.Reaches (step reallocOk) (fun s op => Allowed s op ∧ TakesAll s op) (init 5 fun _ => 0) s
        ∧ s.conn.socket = [0x68, 0x69, 0x68] ∧ Intact s := by
  have hexec : ∃ s, Run.exec (step reallocOk) (init 5 fun _ => 0)
        [.sendData hi 2 (.count 2), .handleWrite (.count 0), .sendData hi 1 (.count 1)] = some s
      ∧ s.conn.socket = [0x68, 0x69, 0x68] := by
    refine ⟨_, rfl, ?_⟩
    decide
  obtain ⟨s, hexec, hsocket⟩ := hexec
  have hreach : Run.Reaches (step reallocOk) (fun s op => Allowed s op ∧ TakesAll s op) (init 5 fun _ => 0) s := by
    refine .of_exec ?_ hexec
    refine ⟨⟨allowed_sendData _ hi (by decide), fun _ => rfl⟩, ?_⟩
    intro s₁ h₁
    obtain ⟨t₁, ht₁, hinv₁⟩ := @Inv.step_of_takesAll reallocOk _ _ (init_inv 5 fun _ => 0)
      (allowed_sendData _ hi (show 2 < 2 ^ 31 by decide)) fun _ => rfl
    cases h₁.symm.trans ht₁
    refine ⟨⟨⟨?_, nofun, fun _ => Nat.zero_le _, nofun⟩, nofun⟩, ?_⟩
    . unfold Op.size
      dsimp only
      rw [hinv₁.idle.empty]
      decide
    . intro s₂ _
      exact ⟨⟨allowed_sendData s₂ hi (by decide), fun _ => rfl⟩, fun _ _ => trivial⟩
  exact ⟨s, hreach, hsocket, (intact_iff_takesAll reallocOk 5 (fun _ => 0) s hreach).left⟩

-- `write` takes one byte of two, and the connection is locked as if it were an event loop.
theorem not_intact_of_partial
    : ¬ ∀ s, Run.Reaches (step reallocOk) Allowed (init 5 fun _ => 0) s →
        ∀ op, Allowed s op → ∃ s', step reallocOk s op = some s' ∧ Intact s' := by
  intro h
  have hallowed : Allowed (init 5 fun _ => 0) (.sendData hi 2 (.count 1)) :=
    ⟨by decide, nofun, fun _ => by decide, nofun⟩
  obtain ⟨s', hstep, _⟩ := h _ .refl _ hallowed
  have hinv := init_inv 5 fun _ => 0
  have htakes : WriteResult.count 1 = .count 2 := hinv.takesAll_of_step hallowed hstep rfl
  cases htakes

end SendStream
end NetWork
