import Mathlib.Algebra.Ring.Nat
import ByDoing.Lib.Run
import ByDoing.NetWork.Buffer
import ByDoing.NetWork.Channel

/-!
This module contains the sending side of `tcp_connection.c`. A `char *` is what can be read relative to
it, also before and behind the bytes it was made for. A connection carries the bytes its socket has
accepted so far. The `size_t` and `int` counters keep their widths. `none` is an access to memory that is
not there.
-/

namespace NetWork

abbrev CharPtr := Int → UInt8

def CharPtr.bytes (p : CharPtr) (off : Int) (n : Nat) : List UInt8 :=
  (List.range n).map fun (i : Nat) => p (off + i)

inductive Errno where
  | EWOULDBLOCK
  | EPIPE
  | ECONNRESET
  | other
  deriving Repr, DecidableEq

inductive WriteResult where
  | count (n : Nat)
  | error (errno : Errno)
  deriving Repr, DecidableEq

namespace WriteResult

def accepted : WriteResult → Nat
  | count n => n
  | error _ => 0

def toSizeT : WriteResult → BitVec 64
  | count n => BitVec.ofNat 64 n
  | error _ => -1

def isFault : WriteResult → Bool
  | error .EPIPE => true
  | error .ECONNRESET => true
  | _ => false

end WriteResult

structure TcpConnection where
  channel : Channel
  outputBuffer : Buffer
  socket : List UInt8
  deriving Repr, DecidableEq

namespace TcpConnection

def tcpConnectionNew (fd : Int) (garbage : Nat → UInt8) : TcpConnection :=
  {
    channel := Channel.channelNew fd EVENT_READ .tcpConnection
    outputBuffer := Buffer.bufferNew garbage
    socket := []
  }

def isEnabled (conn : TcpConnection) : Bool :=
  conn.channel.channelWriteEventIsEnabled

-- `event_loop_update_channel_event` locks the mutex of the loop, so its argument has to be one.
def updateChannelEvent (conn : TcpConnection) (res : Channel × CallbackData) : Option TcpConnection :=
  match res.snd with
  | .eventLoop => some { conn with channel := res.fst }
  | _ => none

def enable (conn : TcpConnection) : Option TcpConnection :=
  conn.updateChannelEvent conn.channel.channelWriteEventEnable

def disable (conn : TcpConnection) : Option TcpConnection :=
  conn.updateChannelEvent conn.channel.channelWriteEventDisable

def writesDirectly (conn : TcpConnection) : Bool :=
  !conn.isEnabled && conn.outputBuffer.bufferReadableSize == 0

-- `(int) n`
def intOfSizeT (n : BitVec 64) : Int :=
  (n.setWidth 32).toInt

namespace tcpConnectionSendData

structure Sent where
  socket : List UInt8
  nwrited : BitVec 64
  nleft : BitVec 64
  fault : Bool

def direct (conn : TcpConnection) (data : CharPtr) (size : Nat) (res : WriteResult) : Sent :=
  let nleft := BitVec.ofNat 64 size
  if conn.writesDirectly then
    let socket := conn.socket ++ data.bytes 0 res.accepted
    let nwrited := res.toSizeT
    if 0 ≤ nwrited then
      ⟨socket, nwrited, nleft - nwrited, false⟩
    else
      ⟨socket, 0, nleft, res.isFault⟩
  else
    ⟨conn.socket, 0, nleft, false⟩

def keep (realloc : Realloc) (conn : TcpConnection) (data : CharPtr) (sent : Sent)
    : Option TcpConnection :=
  let conn := { conn with socket := sent.socket }
  if !sent.fault && 0 < sent.nleft then
    let size := intOfSizeT sent.nleft
    if size < 0 then
      none
    else
      match conn.outputBuffer.bufferAppend realloc (data.bytes sent.nwrited.toInt size.toNat) with
      | none => none
      | some outputBuffer =>
        let conn := { conn with outputBuffer }
        if conn.isEnabled then some conn else conn.enable
  else
    some conn

end tcpConnectionSendData

def tcpConnectionSendData (realloc : Realloc) (conn : TcpConnection) (data : CharPtr) (size : Nat)
    (res : WriteResult)
    : Option (TcpConnection × Int) :=
  let sent := tcpConnectionSendData.direct conn data size res
  match tcpConnectionSendData.keep realloc conn data sent with
  | none => none
  | some conn => some (conn, intOfSizeT sent.nwrited)

-- `buffer->data + buffer->readIndex`, with `outside` the memory around the block of the buffer.
def readPtr (buffer : Buffer) (outside : CharPtr) : CharPtr := fun i =>
  if 0 ≤ buffer.readIndex + i then
    buffer.data.getD (buffer.readIndex + i).toNat (outside i)
  else
    outside i

def tcpConnectionSendBuffer (realloc : Realloc) (conn : TcpConnection) (buffer : Buffer)
    (outside : CharPtr) (res : WriteResult)
    : Option (TcpConnection × Buffer × Int) :=
  let size := buffer.bufferReadableSize
  match tcpConnectionSendData realloc conn (readPtr buffer outside) size res with
  | none => none
  | some (conn, result) => some (conn, buffer.advance size, result)

def handleWrite (conn : TcpConnection) (res : WriteResult) : Option TcpConnection :=
  let nwrited := res.accepted
  if 0 < nwrited then
    let conn :=
      { conn with
        socket := conn.socket ++ conn.outputBuffer.readable.take nwrited
        outputBuffer := conn.outputBuffer.advance nwrited
      }
    if conn.outputBuffer.bufferReadableSize == 0 then
      conn.disable
    else
      some conn
  else
    some conn

end TcpConnection

theorem CharPtr.bytes_zero (p : CharPtr) (off : Int) : p.bytes off 0 = [] := by
  rfl

namespace TcpConnection

theorem readPtr_natCast (buffer : Buffer) (outside : CharPtr) (i : Nat)
    : readPtr buffer outside i = buffer.data.getD (buffer.readIndex + i) (outside i) := by
  unfold readPtr
  rw [if_pos (by omega), show ((buffer.readIndex : Int) + (i : Int)).toNat = buffer.readIndex + i by omega]

theorem bytes_readPtr {buffer : Buffer} (hwf : buffer.Wf) (outside : CharPtr)
    : (readPtr buffer outside).bytes 0 buffer.bufferReadableSize = buffer.readable := by
  have hrw := hwf.read_le_write
  have hwt := hwf.write_le_total
  have hlen := hwf.length_data
  unfold CharPtr.bytes Buffer.readable Block.slice Buffer.bufferReadableSize
  apply List.ext_getElem
  . simp only [List.length_map, List.length_range, List.length_drop, List.length_take]
    omega
  . intro i hi1 hi2
    simp only [List.length_map, List.length_range] at hi1
    rw [List.getElem_map, List.getElem_range, Int.zero_add, readPtr_natCast, List.getElem_drop,
      List.getElem_take]
    rw [List.getD_eq_getElem?_getD, List.getElem?_eq_getElem (by omega), Option.getD_some]

theorem enable_of_tcpConnection {conn : TcpConnection} (h : conn.channel.data = .tcpConnection)
    : conn.enable = none := by
  unfold enable updateChannelEvent Channel.channelWriteEventEnable
  rw [h]

namespace tcpConnectionSendData

theorem direct_of_writesDirectly (conn : TcpConnection) (data : CharPtr) {size n : Nat} (hn : n ≤ size)
    (hdirect : conn.writesDirectly = true)
    : direct conn data size (.count n)
        =
      ⟨conn.socket ++ data.bytes 0 n, BitVec.ofNat 64 n, BitVec.ofNat 64 (size - n), false⟩ := by
  unfold direct
  have hsub : BitVec.ofNat 64 size - BitVec.ofNat 64 n = BitVec.ofNat 64 (size - n) := by
    apply BitVec.eq_of_toNat_eq
    simp only [BitVec.toNat_sub, BitVec.toNat_ofNat]
    omega
  have hpos : (0 : BitVec 64) ≤ BitVec.ofNat 64 n := by
    simp [BitVec.le_def]
  simp only [hdirect, WriteResult.accepted, WriteResult.toSizeT, hpos, hsub, ↓reduceIte]

theorem direct_of_error (conn : TcpConnection) (data : CharPtr) (size : Nat) (errno : Errno)
    (hdirect : conn.writesDirectly = true)
    : direct conn data size (.error errno)
        =
      ⟨conn.socket, -1, BitVec.ofNat 64 (size + 1), false⟩ := by
  unfold direct
  have hsub : BitVec.ofNat 64 size - (-1) = BitVec.ofNat 64 (size + 1) := by
    apply BitVec.eq_of_toNat_eq
    simp only [BitVec.sub_neg, BitVec.ofNat_eq_ofNat, BitVec.toNat_add, BitVec.toNat_ofNat]
    omega
  have hpos : (0 : BitVec 64) ≤ -1 := by decide
  simp only [hdirect, WriteResult.accepted, WriteResult.toSizeT, hpos, hsub, CharPtr.bytes_zero,
    List.append_nil, ↓reduceIte]

theorem keep_zero (realloc : Realloc) (conn : TcpConnection) (data : CharPtr) (socket : List UInt8)
    (nwrited : BitVec 64)
    : keep realloc conn data ⟨socket, nwrited, 0#64, false⟩ = some { conn with socket } := by
  unfold keep
  simp

theorem keep_eq_none {realloc : Realloc} {conn : TcpConnection} {data : CharPtr} {sent : Sent}
    (hdata : conn.channel.data = .tcpConnection) (hdisabled : conn.isEnabled = false)
    (hfault : sent.fault = false) (hleft : 0 < sent.nleft)
    : keep realloc conn data sent = none := by
  unfold keep
  rw [hfault, if_pos (by simpa using hleft)]
  dsimp only
  split
  . rfl
  . split
    . rfl
    . have hisEnabled : ∀ socket outputBuffer, isEnabled { conn with socket, outputBuffer } = false :=
        fun _ _ => hdisabled
      rw [hisEnabled]
      exact enable_of_tcpConnection hdata

end tcpConnectionSendData

theorem tcpConnectionSendData_eq {realloc : Realloc} {conn conn' : TcpConnection} {data : CharPtr}
    {size : Nat} {res : WriteResult} {sent : tcpConnectionSendData.Sent}
    (hdirect : tcpConnectionSendData.direct conn data size res = sent)
    (hkeep : tcpConnectionSendData.keep realloc conn data sent = some conn')
    : conn.tcpConnectionSendData realloc data size res = some (conn', intOfSizeT sent.nwrited) := by
  unfold tcpConnectionSendData
  dsimp only
  rw [hdirect, hkeep]

theorem tcpConnectionSendData_eq_none {realloc : Realloc} {conn : TcpConnection} {data : CharPtr}
    {size : Nat} {res : WriteResult}
    (hkeep : tcpConnectionSendData.keep realloc conn data (tcpConnectionSendData.direct conn data size res) = none)
    : conn.tcpConnectionSendData realloc data size res = none := by
  unfold tcpConnectionSendData
  dsimp only
  rw [hkeep]

-- A connection with nothing to send, as `tcp_connection_new` makes it.
structure Idle (conn : TcpConnection) : Prop where
  wf : conn.outputBuffer.Wf
  data_eq : conn.channel.data = .tcpConnection
  disabled : conn.isEnabled = false
  empty : conn.outputBuffer.bufferReadableSize = 0

theorem idle_tcpConnectionNew (fd : Int) (garbage : Nat → UInt8) : (tcpConnectionNew fd garbage).Idle where
  wf := Buffer.bufferNew_wf garbage
  data_eq := rfl
  disabled := show (EVENT_READ &&& EVENT_WRITE != 0) = false from by decide
  empty := rfl

namespace Idle

variable {conn : TcpConnection}

theorem writesDirectly (hidle : conn.Idle) : conn.writesDirectly = true := by
  unfold TcpConnection.writesDirectly
  rw [hidle.disabled, hidle.empty]
  rfl

theorem sendData_of_count (hidle : conn.Idle) (realloc : Realloc) (data : CharPtr) (size : Nat)
    : conn.tcpConnectionSendData realloc data size (.count size)
        = some ({ conn with socket := conn.socket ++ data.bytes 0 size }, intOfSizeT (BitVec.ofNat 64 size)) := by
  have hsent := tcpConnectionSendData.direct_of_writesDirectly conn data (Nat.le_refl size) hidle.writesDirectly
  rw [Nat.sub_self] at hsent
  have hkeep := tcpConnectionSendData.keep_zero realloc conn data (conn.socket ++ data.bytes 0 size)
    (BitVec.ofNat 64 size)
  have hsend := tcpConnectionSendData_eq hsent hkeep
  exact hsend

theorem sendData_of_ne_count (hidle : conn.Idle) (realloc : Realloc) (data : CharPtr) {size : Nat} {res : WriteResult}
    (hsize : size < 2 ^ 31) (hn : res.accepted ≤ size) (hne : res ≠ .count size)
    : conn.tcpConnectionSendData realloc data size res = none := by
  apply tcpConnectionSendData_eq_none
  cases res with
  | count n =>
    have hlt : n < size := Nat.lt_of_le_of_ne hn fun heq => hne (heq ▸ rfl)
    rw [tcpConnectionSendData.direct_of_writesDirectly conn data (Nat.le_of_lt hlt) hidle.writesDirectly]
    apply tcpConnectionSendData.keep_eq_none hidle.data_eq hidle.disabled rfl
    simp only [BitVec.ofNat_eq_ofNat, BitVec.lt_def, BitVec.toNat_ofNat]
    omega
  | error errno =>
    rw [tcpConnectionSendData.direct_of_error conn data size errno hidle.writesDirectly]
    apply tcpConnectionSendData.keep_eq_none hidle.data_eq hidle.disabled rfl
    simp only [BitVec.ofNat_eq_ofNat, BitVec.lt_def, BitVec.toNat_ofNat]
    omega

theorem handleWrite (hidle : conn.Idle) {res : WriteResult}
    (hn : res.accepted ≤ conn.outputBuffer.bufferReadableSize)
    : conn.handleWrite res = some conn := by
  rw [hidle.empty] at hn
  unfold TcpConnection.handleWrite
  dsimp only
  rw [if_neg (by omega)]

theorem setSocket (hidle : conn.Idle) (socket : List UInt8) : Idle { conn with socket } :=
  ⟨hidle.wf, hidle.data_eq, hidle.disabled, hidle.empty⟩

end Idle

end TcpConnection
end NetWork
