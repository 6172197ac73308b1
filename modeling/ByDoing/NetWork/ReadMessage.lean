import ByDoing.NetWork.ReadBytes

namespace NetWork

structure MessageResult where
  ret : BitVec 64
  buffer : List UInt8
  socket : Socket
  deriving Repr, DecidableEq

-- `ntohl` of a word whose bytes are in the order in which they have been read.
def ntohl (bytes : List UInt8) : BitVec 32 :=
  BitVec.ofNat 32 (bytes.foldl (fun n b => 256 * n + b.toNat) 0)

-- `rc != sizeof(u_int32_t)` compares them as `size_t`.
def failedOrShort (rc : BitVec 32) : BitVec 64 :=
  if rc.slt 0 then -1 else 0

def readMessage (length : BitVec 64) (s : Socket) : MessageResult :=
  let header := readn 4 s
  let rc : BitVec 32 := header.ret.setWidth 32
  if rc.signExtend 64 ≠ 4 then
    { ret := failedOrShort rc, buffer := [], socket := header.socket }
  else
    let msgLength := ntohl header.buffer
    let type := readn 4 header.socket
    let rc : BitVec 32 := type.ret.setWidth 32
    if rc.signExtend 64 ≠ 4 then
      { ret := failedOrShort rc, buffer := [], socket := type.socket }
    else if length.toNat < msgLength.toNat then
      { ret := -1, buffer := [], socket := type.socket }
    else
      let record := readn (msgLength.setWidth 64) type.socket
      let rc : BitVec 32 := record.ret.setWidth 32
      if rc ≠ msgLength then
        { ret := failedOrShort rc, buffer := record.buffer, socket := record.socket }
      else
        { ret := rc.signExtend 64, buffer := record.buffer, socket := record.socket }

def htonl (n : Nat) : List UInt8 :=
  [UInt8.ofNat (n / 2 ^ 24), UInt8.ofNat (n / 2 ^ 16), UInt8.ofNat (n / 2 ^ 8), UInt8.ofNat n]

structure Frame where
  type : BitVec 32
  payload : List UInt8
  length_pos : 0 < payload.length
  length_lt : payload.length < 2 ^ 32

namespace Frame

def bytes (f : Frame) : List UInt8 :=
  htonl f.payload.length ++ htonl f.type.toNat ++ f.payload

end Frame

/--
The calls return the payloads one after the other, and each takes one frame from the stream. Behind the last frame
`rest` is left, and the call there returns 0.
-/
def Messages (length : BitVec 64) (rest : List UInt8) : List Frame → Socket → Prop
  | [], s => s.delivered = rest ∧ (readMessage length s).ret = 0
  | f :: frames, s =>
    (readMessage length s).ret.toNat = f.payload.length ∧ (readMessage length s).buffer = f.payload
      ∧ (readMessage length s).socket.delivered = frames.flatMap Frame.bytes ++ rest
      ∧ Messages length rest frames (readMessage length s).socket

theorem ntohl_htonl {n : Nat} (h : n < 2 ^ 32) : (ntohl (htonl n)).toNat = n := by
  unfold ntohl htonl
  simp only [List.foldl_cons, List.foldl_nil, BitVec.toNat_ofNat, UInt8.toNat_ofNat']
  omega

theorem length_htonl (n : Nat) : (htonl n).length = 4 :=
  rfl

theorem toNat_rc (ret : BitVec 64) (h : ret.toNat < 2 ^ 31)
    : (ret.setWidth 32).toNat = ret.toNat ∧ ((ret.setWidth 32).signExtend 64).toNat = ret.toNat
        ∧ failedOrShort (ret.setWidth 32) = 0 := by
  have hrc : (ret.setWidth 32).toNat = ret.toNat := by
    rw [BitVec.toNat_setWidth, Nat.mod_eq_of_lt (by omega)]
  have hslt : (ret.setWidth 32).slt 0 = false := by
    rw [BitVec.slt, decide_eq_false_iff_not, BitVec.toInt_eq_toNat_cond, hrc]
    simp
    omega
  refine ⟨hrc, ?_, ?_⟩
  . rw [readn.toNat_signExtend (by omega), hrc]
  . unfold failedOrShort
    rw [hslt]
    rfl

section Readn
theorem readn_whole (size : BitVec 64) (s : Socket) (hsize : size.toNat < 2 ^ 31) (h : size.toNat ≤ s.delivered.length)
    : (readn size s).ret.toNat = size.toNat ∧ (readn size s).buffer = s.delivered.take size.toNat
        ∧ (readn size s).socket.delivered = s.delivered.drop size.toNat
        ∧ (readn size s).socket.fails = s.fails := by
  have hmod : size.toNat % 2 ^ 32 = size.toNat := Nat.mod_eq_of_lt (by omega)
  obtain ⟨hbuffer, hfailed, _, hok⟩ := readn_of_small (s := s) (hmod.symm ▸ hsize)
  rw [hmod] at hbuffer hfailed hok
  have hfail : (readn size s).failed = false := by
    rw [hfailed, Bool.and_eq_false_iff, decide_eq_false_iff_not]
    left
    omega
  obtain ⟨hret, hdelivered, hfails⟩ := hok hfail
  refine ⟨?_, hbuffer, hdelivered, hfails⟩
  omega

theorem readn_cut (size : BitVec 64) (s : Socket) (hsize : size.toNat < 2 ^ 31) (h : s.delivered.length < size.toNat) (hfails : s.fails = false)
    : (readn size s).ret.toNat = s.delivered.length := by
  have hmod : size.toNat % 2 ^ 32 = size.toNat := Nat.mod_eq_of_lt (by omega)
  obtain ⟨_, hfailed, _, hok⟩ := readn_of_small (s := s) (hmod.symm ▸ hsize)
  rw [hmod] at hfailed hok
  have hfail : (readn size s).failed = false := by
    rw [hfailed, hfails, Bool.and_false]
  have hret := (hok hfail).left
  omega

theorem length_readn_le (size : BitVec 64) (s : Socket) : (readn size s).buffer.length ≤ size.toNat := by
  by_cases h : size.toNat % 2 ^ 32 < 2 ^ 31
  . have hle := List.length_take_le (size.toNat % 2 ^ 32) s.delivered
    have hmod := Nat.mod_le size.toNat (2 ^ 32)
    rw [(readn_of_small h).left]
    omega
  . rw [(readn_of_large (Nat.not_lt.mp h)).left]
    exact Nat.zero_le _

end Readn

theorem length_readMessage_le (length : BitVec 64) (s : Socket)
    : (readMessage length s).buffer.length ≤ length.toNat := by
  unfold readMessage
  dsimp only
  split
  . exact Nat.zero_le _
  . split
    . exact Nat.zero_le _
    . split
      . exact Nat.zero_le _
      . next hle =>
        have hbuffer := length_readn_le ((ntohl (readn 4 s).buffer).setWidth 64) (readn 4 (readn 4 s).socket).socket
        have hwidth : ((ntohl (readn 4 s).buffer).setWidth 64).toNat = (ntohl (readn 4 s).buffer).toNat := by
          have hlt := (ntohl (readn 4 s).buffer).isLt
          rw [BitVec.toNat_setWidth, Nat.mod_eq_of_lt (by omega)]
        split
        . dsimp only
          omega
        . dsimp only
          omega

section Frames

variable {length : BitVec 64} {s : Socket}

theorem readMessage_short (h : s.delivered.length < 8) (hfails : s.fails = false) : (readMessage length s).ret = 0 := by
  have hfour : (4 : BitVec 64).toNat = 4 := rfl
  unfold readMessage
  dsimp only
  by_cases hfirst : s.delivered.length < 4
  . have hret := readn_cut 4 s (by rw [hfour]; omega) (by omega) hfails
    obtain ⟨_, hext, hzero⟩ := toNat_rc (readn 4 s).ret (by omega)
    rw [if_pos]
    . exact hzero
    . intro heq
      rw [heq, hfour] at hext
      omega
  . obtain ⟨hret, _, hdelivered, hfails'⟩ := readn_whole 4 s (by rw [hfour]; omega) (by rw [hfour]; omega)
    obtain ⟨_, hext, _⟩ := toNat_rc (readn 4 s).ret (by omega)
    have hlength := congrArg List.length hdelivered
    rw [List.length_drop, hfour] at hlength
    have hret' := readn_cut 4 (readn 4 s).socket (by rw [hfour]; omega) (by rw [hfour]; omega)
      (hfails'.trans hfails)
    obtain ⟨_, hext', hzero⟩ := toNat_rc (readn 4 (readn 4 s).socket).ret (by omega)
    rw [if_neg, if_pos]
    . exact hzero
    . intro heq
      rw [heq, hfour] at hext'
      omega
    . rw [not_not]
      apply BitVec.eq_of_toNat_eq
      rw [hext, hret]

def readRecord (n : Nat) (s : Socket) : MessageResult :=
  let record := readn (BitVec.ofNat 64 n) s
  let rc : BitVec 32 := record.ret.setWidth 32
  if rc ≠ BitVec.ofNat 32 n then
    { ret := failedOrShort rc, buffer := record.buffer, socket := record.socket }
  else
    { ret := rc.signExtend 64, buffer := record.buffer, socket := record.socket }

theorem readMessage_header {n : Nat} {type rest : List UInt8} (h : s.delivered = htonl n ++ type ++ rest)
    (htype : type.length = 4) (hn : n < 2 ^ 32) (hle : n ≤ length.toNat) (hfails : s.fails = false)
    : ∃ s', s'.delivered = rest ∧ s'.fails = false ∧ readMessage length s = readRecord n s' := by
  have hfour : (4 : BitVec 64).toNat = 4 := rfl
  have hlength : s.delivered.length = 8 + rest.length := by
    rw [h, List.length_append, List.length_append, htype, length_htonl]
  obtain ⟨hret, hbuffer, hdelivered, hfails₁⟩ :=
    readn_whole 4 s (by rw [hfour]; omega) (by rw [hfour]; omega)
  rw [hfour, h, List.append_assoc] at hbuffer hdelivered
  rw [List.take_left' (length_htonl n)] at hbuffer
  rw [List.drop_left' (length_htonl n)] at hdelivered
  obtain ⟨_, hext, _⟩ := toNat_rc (readn 4 s).ret (by omega)
  obtain ⟨hret', _, hdelivered', hfails₂⟩ :=
    readn_whole 4 (readn 4 s).socket (by rw [hfour]; omega)
      (by rw [hfour, hdelivered, List.length_append, htype]; omega)
  rw [hfour, hdelivered, List.drop_left' htype] at hdelivered'
  obtain ⟨_, hext', _⟩ := toNat_rc (readn 4 (readn 4 s).socket).ret (by omega)
  have hword : ntohl (readn 4 s).buffer = BitVec.ofNat 32 n := by
    apply BitVec.eq_of_toNat_eq
    rw [hbuffer, ntohl_htonl hn, BitVec.toNat_ofNat, Nat.mod_eq_of_lt hn]
  have hwide : (BitVec.ofNat 32 n).setWidth 64 = BitVec.ofNat 64 n := by
    apply BitVec.eq_of_toNat_eq
    rw [BitVec.toNat_setWidth, BitVec.toNat_ofNat, BitVec.toNat_ofNat]
    omega
  refine ⟨(readn 4 (readn 4 s).socket).socket, hdelivered', ?_, ?_⟩
  . rw [hfails₂, hfails₁]
    exact hfails
  . unfold readMessage readRecord
    dsimp only
    rw [if_neg, if_neg, if_neg, hword, hwide]
    . rw [hword, BitVec.toNat_ofNat, Nat.mod_eq_of_lt hn]
      omega
    . rw [not_not]
      apply BitVec.eq_of_toNat_eq
      rw [hext', hret']
    . rw [not_not]
      apply BitVec.eq_of_toNat_eq
      rw [hext, hret]

section Record

variable {n : Nat}

theorem readRecord_large (hn : 2 ^ 31 ≤ n) (hlt : n < 2 ^ 32) : (readRecord n s).ret = 0 := by
  have hsize : (BitVec.ofNat 64 n).toNat = n := by
    rw [BitVec.toNat_ofNat, Nat.mod_eq_of_lt (by omega)]
  obtain ⟨_, _, _, hret⟩ := @readn_of_large (BitVec.ofNat 64 n) s (by omega)
  have hrc : ((readn (BitVec.ofNat 64 n) s).ret.setWidth 32) = 0 := by
    apply BitVec.eq_of_toNat_eq
    rw [BitVec.toNat_setWidth, hret, hsize]
    simp
    omega
  unfold readRecord
  dsimp only
  rw [hrc, if_pos]
  . rfl
  . intro heq
    have htoNat := congrArg BitVec.toNat heq
    rw [BitVec.toNat_ofNat] at htoNat
    simp at htoNat
    omega

theorem readRecord_whole (hn : n < 2 ^ 31) (h : n ≤ s.delivered.length)
    : (readRecord n s).ret.toNat = n ∧ (readRecord n s).buffer = s.delivered.take n
        ∧ (readRecord n s).socket.delivered = s.delivered.drop n ∧ (readRecord n s).socket.fails = s.fails := by
  have hsize : (BitVec.ofNat 64 n).toNat = n := by
    rw [BitVec.toNat_ofNat, Nat.mod_eq_of_lt (by omega)]
  obtain ⟨hret, hbuffer, hdelivered, hfails⟩ := readn_whole (BitVec.ofNat 64 n) s (by omega) (by omega)
  rw [hsize] at hret hbuffer hdelivered
  obtain ⟨hrc, hext, _⟩ := toNat_rc (readn (BitVec.ofNat 64 n) s).ret (by omega)
  unfold readRecord
  dsimp only
  rw [if_neg]
  . exact ⟨hext.trans hret, hbuffer, hdelivered, hfails⟩
  . rw [not_not]
    apply BitVec.eq_of_toNat_eq
    rw [hrc, hret, BitVec.toNat_ofNat, Nat.mod_eq_of_lt (by omega)]

theorem readRecord_cut (hn : n < 2 ^ 31) (h : s.delivered.length < n) (hfails : s.fails = false)
    : (readRecord n s).ret = 0 := by
  have hsize : (BitVec.ofNat 64 n).toNat = n := by
    rw [BitVec.toNat_ofNat, Nat.mod_eq_of_lt (by omega)]
  have hret := readn_cut (BitVec.ofNat 64 n) s (by omega) (by omega) hfails
  obtain ⟨hrc, _, hzero⟩ := toNat_rc (readn (BitVec.ofNat 64 n) s).ret (by omega)
  unfold readRecord
  dsimp only
  rw [if_pos]
  . exact hzero
  . intro heq
    rw [heq, BitVec.toNat_ofNat, Nat.mod_eq_of_lt (by omega)] at hrc
    omega

end Record

section Frame

variable {f : Frame} {rest : List UInt8}

theorem readMessage_frame (h : s.delivered = f.bytes ++ rest) (hle : f.payload.length ≤ length.toNat)
    (hfails : s.fails = false)
    : ∃ s', s'.delivered = f.payload ++ rest ∧ s'.fails = false
        ∧ readMessage length s = readRecord f.payload.length s' := by
  apply readMessage_header _ (length_htonl f.type.toNat) f.length_lt hle hfails
  rw [h, Frame.bytes, List.append_assoc]

theorem readMessage_small (h : s.delivered = f.bytes ++ rest) (hle : f.payload.length ≤ length.toNat)
    (hfails : s.fails = false) (hsmall : f.payload.length < 2 ^ 31)
    : (readMessage length s).ret.toNat = f.payload.length ∧ (readMessage length s).buffer = f.payload
        ∧ (readMessage length s).socket.delivered = rest ∧ (readMessage length s).socket.fails = false := by
  obtain ⟨s', hdelivered, hfails', heq⟩ := readMessage_frame h hle hfails
  have henough : f.payload.length ≤ s'.delivered.length := by
    rw [hdelivered, List.length_append]
    omega
  obtain ⟨hret, hbuffer, hrest, hfails''⟩ := readRecord_whole hsmall henough
  rw [hdelivered, List.take_left] at hbuffer
  rw [hdelivered, List.drop_left] at hrest
  rw [heq]
  exact ⟨hret, hbuffer, hrest, hfails''.trans hfails'⟩

theorem toNat_readMessage_large (h : s.delivered = f.bytes ++ rest) (hle : f.payload.length ≤ length.toNat)
    (hfails : s.fails = false) (hlarge : 2 ^ 31 ≤ f.payload.length) : (readMessage length s).ret.toNat = 0 := by
  obtain ⟨s', _, _, heq⟩ := readMessage_frame h hle hfails
  rw [heq, readRecord_large hlarge f.length_lt]
  rfl

theorem readMessage_cut (hstart : s.delivered <+: f.bytes) (hne : s.delivered ≠ f.bytes)
    (hle : f.payload.length ≤ length.toNat) (hfails : s.fails = false) : (readMessage length s).ret = 0 := by
  by_cases hshort : s.delivered.length < 8
  . exact readMessage_short hshort hfails
  . have hlength : s.delivered.length < f.bytes.length := by
      apply Nat.lt_of_le_of_ne hstart.length_le
      intro heq
      exact hne (hstart.eq_of_length heq)
    have hwords : (htonl f.payload.length ++ htonl f.type.toNat).length = 8 := rfl
    have hsplit : s.delivered
        = htonl f.payload.length ++ htonl f.type.toNat ++ f.payload.take (s.delivered.length - 8) := by
      conv => lhs; rw [List.prefix_iff_eq_take.mp hstart]
      rw [Frame.bytes, List.take_append, hwords, List.take_of_length_le]
      rw [hwords]
      omega
    obtain ⟨s', hdelivered, hfails', heq⟩ :=
      readMessage_header hsplit (length_htonl f.type.toNat) f.length_lt hle hfails
    rw [heq]
    by_cases hlarge : 2 ^ 31 ≤ f.payload.length
    . exact readRecord_large hlarge f.length_lt
    . apply readRecord_cut (by omega) _ hfails'
      rw [Frame.bytes, List.length_append, hwords] at hlength
      rw [hdelivered, List.length_take]
      omega

end Frame

/--
Every call stays inside the buffer, and the frames are read back exactly if the length of each one fits into the `int`.
The stream may end behind a frame or inside one.
-/
theorem messages_iff_small {frames : List Frame} {tail : List UInt8}
    (hs : s.delivered = frames.flatMap Frame.bytes ++ tail) (hfails : s.fails = false)
    (hfit : ∀ f ∈ frames, f.payload.length ≤ length.toNat)
    (hcut : ∃ f : Frame, f.payload.length ≤ length.toNat ∧ tail <+: f.bytes ∧ tail ≠ f.bytes)
    : (∀ s', (readMessage length s').buffer.length ≤ length.toNat)
        ∧ (Messages length tail frames s ↔ ∀ f ∈ frames, f.payload.length < 2 ^ 31) := by
  refine ⟨length_readMessage_le length, ?_⟩
  induction frames generalizing s with
  | nil =>
    obtain ⟨f, hle, hstart, hne⟩ := hcut
    rw [List.flatMap_nil, List.nil_append] at hs
    subst hs
    simp only [Messages, List.not_mem_nil, IsEmpty.forall_iff, implies_true, iff_true, true_and]
    exact readMessage_cut hstart hne hle hfails
  | cons f frames ih =>
    rw [List.flatMap_cons, List.append_assoc] at hs
    have hle := hfit f (by simp)
    have hfits : ∀ f ∈ frames, f.payload.length ≤ length.toNat := by
      intro f' hf'
      exact hfit f' (by simp [hf'])
    rw [List.forall_mem_cons, Messages]
    by_cases hsmall : f.payload.length < 2 ^ 31
    . obtain ⟨hret, hbuffer, hrest, hfails'⟩ := readMessage_small hs hle hfails hsmall
      have hmessages := ih hrest hfails' hfits
      constructor
      . intro h
        exact ⟨hsmall, hmessages.mp h.right.right.right⟩
      . intro h
        exact ⟨hret, hbuffer, hrest, hmessages.mpr h.right⟩
    . have hret := toNat_readMessage_large hs hle hfails (Nat.not_lt.mp hsmall)
      have hpos := f.length_pos
      constructor
      . intro h
        have hfirst := h.left
        omega
      . intro h
        exact absurd h.left hsmall

def letter : Frame where
  type := 1
  payload := [65]
  length_pos := by decide
  length_lt := by decide

-- One frame and the first byte of another, in three pieces and with an interruption between them.
theorem messages_letter
    : Messages 16 [0] [letter]
        [.data 0 [0], .error EINTR, .data 0 [1, 0, 0, 0, 1, 65], .data 0 []] := by
  apply (messages_iff_small (by decide) (by decide) (by decide) ⟨letter, by decide, by decide, by decide⟩).right.mpr
  decide

def zeros : Frame where
  type := 1
  payload := List.replicate (2 ^ 31) 0
  length_pos := by
    rw [List.length_replicate]
    decide
  length_lt := by
    rw [List.length_replicate]
    decide

def bytewise (bytes : List UInt8) : Socket :=
  bytes.map fun b => .data b []

theorem delivered_bytewise (bytes : List UInt8) : (bytewise bytes).delivered = bytes := by
  induction bytes with
  | nil => rfl
  | cons b bytes ih =>
    unfold bytewise at ih ⊢
    rw [List.map_cons, Socket.delivered, ih]
    rfl

theorem fails_bytewise (bytes : List UInt8) : (bytewise bytes).fails = false := by
  simp [bytewise, Socket.fails]

-- The whole frame of 2 GB is there and has room, and the call returns 0.
theorem not_messages_zeros
    : zeros.payload.length ≤ (BitVec.ofNat 64 (2 ^ 31)).toNat
        ∧ ¬Messages (BitVec.ofNat 64 (2 ^ 31)) [] [zeros] (bytewise zeros.bytes) := by
  have hlength : zeros.payload.length = 2 ^ 31 := List.length_replicate
  have hle : zeros.payload.length ≤ (BitVec.ofNat 64 (2 ^ 31)).toNat := by
    rw [hlength]
    decide
  refine ⟨hle, ?_⟩
  intro h
  have hstream : (bytewise zeros.bytes).delivered = zeros.bytes ++ [] := by
    rw [delivered_bytewise, List.append_nil]
  have hfirst := h.left
  rw [toNat_readMessage_large hstream hle (fails_bytewise _) (Nat.le_of_eq hlength.symm), hlength] at hfirst
  cases hfirst

end Frames

end NetWork
