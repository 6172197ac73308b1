import ByDoing.NetWork.Socket

namespace NetWork

structure ReadResult where
  ret : BitVec 64
  buffer : List UInt8
  -- An error other than `EINTR` has ended the call.
  failed : Bool
  socket : Socket
  deriving Repr, DecidableEq

namespace readn

structure Reading where
  length : BitVec 32
  buffer : List UInt8
  failed : Bool
  socket : Socket

def loop (length : BitVec 32) (buffer : List UInt8) (s : Socket) : Reading :=
  if 0 < length.toInt then
    match h : s.recv length.toNat with
    | (.error errno, s') =>
      if errno = EINTR then loop length buffer s' else { length, buffer, failed := true, socket := s' }
    | (.ok [], s') => { length, buffer, failed := false, socket := s' }
    | (.ok (b :: bs), s') => loop (length - BitVec.ofNat 32 (b :: bs).length) (buffer ++ (b :: bs)) s'
  else
    { length, buffer, failed := false, socket := s }
termination_by s.weight
decreasing_by
  . rw [Socket.recv_error h, Socket.weight]
    omega
  . obtain ⟨_, _, _, _, _, hweight, _⟩ := Socket.recv_ok h
    rw [hweight, List.length_cons]
    omega

end readn

def readn (size : BitVec 64) (s : Socket) : ReadResult :=
  let r := readn.loop (size.setWidth 32) [] s
  {
    ret := if r.failed then -1 else size - r.length.signExtend 64
    buffer := r.buffer
    failed := r.failed
    socket := r.socket
  }

-- The copy in `server.cc`.
def Server.readn (size : BitVec 64) (s : Socket) : ReadResult :=
  NetWork.readn size s

namespace readn

variable {length : BitVec 32} {buffer : List UInt8} {s : Socket}

theorem toInt_pos_iff : 0 < length.toInt ↔ 0 < length.toNat ∧ length.toNat < 2 ^ 31 := by
  rw [BitVec.toInt_eq_toNat_cond]
  have hlt := length.isLt
  split <;> omega

theorem loop_of_not_pos (h : ¬0 < length.toInt) (buffer : List UInt8) (s : Socket)
    : loop length buffer s = { length, buffer, failed := false, socket := s } := by
  rw [loop, if_neg h]

theorem loop_eintr (hpos : 0 < length.toInt) (buffer : List UInt8) (s : Socket)
    : loop length buffer (.error EINTR :: s) = loop length buffer s := by
  rw [loop, if_pos hpos]
  split
  . next heq =>
    cases heq
    rw [if_pos rfl]
  . next heq => cases heq
  . next heq => cases heq

theorem loop_error (hpos : 0 < length.toInt) {errno : Nat} (hne : errno ≠ EINTR) (buffer : List UInt8) (s : Socket)
    : loop length buffer (.error errno :: s) = { length, buffer, failed := true, socket := s } := by
  rw [loop, if_pos hpos]
  split
  . next heq =>
    cases heq
    rw [if_neg hne]
  . next heq => cases heq
  . next heq => cases heq

theorem loop_nil (length : BitVec 32) (buffer : List UInt8)
    : loop length buffer [] = { length, buffer, failed := false, socket := [] } := by
  rw [loop]
  split
  . split
    . next heq => cases heq
    . next heq =>
      cases heq
      rfl
    . next heq => cases heq
  . rfl

theorem loop_bytes (hpos : 0 < length.toInt) {b : UInt8} {bs : List UInt8} {s' : Socket}
    (h : s.recv length.toNat = (.ok (b :: bs), s')) (buffer : List UInt8)
    : loop length buffer s = loop (length - BitVec.ofNat 32 (b :: bs).length) (buffer ++ (b :: bs)) s' := by
  rw [loop, if_pos hpos]
  split
  . next heq =>
    rw [h] at heq
    cases heq
  . next heq =>
    rw [h] at heq
    cases heq
  . next heq =>
    rw [h] at heq
    cases heq
    rfl

theorem toNat_sub_length {bytes : List UInt8} (hle : bytes.length ≤ length.toNat)
    : (length - BitVec.ofNat 32 bytes.length).toNat = length.toNat - bytes.length := by
  have hlt := length.isLt
  rw [BitVec.toNat_sub_of_le, BitVec.toNat_ofNat, Nat.mod_eq_of_lt (by omega)]
  rw [BitVec.le_def, BitVec.toNat_ofNat, Nat.mod_eq_of_lt (by omega)]
  exact hle

theorem loop_spec (hlength : length.toNat < 2 ^ 31)
    : (loop length buffer s).buffer = buffer ++ s.delivered.take length.toNat
        ∧ (loop length buffer s).length.toNat = length.toNat - s.delivered.length
        ∧ (loop length buffer s).failed = (decide (s.delivered.length < length.toNat) && s.fails)
        ∧ ((loop length buffer s).failed = false →
          (loop length buffer s).socket.delivered = s.delivered.drop length.toNat
            ∧ (loop length buffer s).socket.fails = s.fails) := by
  induction length, buffer, s using loop.induct with
  | case1 length buffer s hpos s' hrecv ih =>
    have heq := Socket.recv_error hrecv
    subst heq
    rw [loop_eintr hpos, Socket.delivered_eintr, Socket.fails_eintr]
    exact ih hlength
  | case2 length buffer s hpos errno s' hrecv hne =>
    have heq := Socket.recv_error hrecv
    subst heq
    rw [loop_error hpos hne, Socket.delivered_error hne, Socket.fails_error hne]
    simp [(toInt_pos_iff.mp hpos).left]
  | case3 length buffer s hpos s' hrecv =>
    obtain ⟨rfl, rfl⟩ := Socket.recv_nil (toInt_pos_iff.mp hpos).left hrecv
    rw [loop_nil]
    simp [Socket.delivered, Socket.fails]
  | case4 length buffer s hpos b bs s' hrecv ih =>
    obtain ⟨hle, _, _, hdelivered, hfails, _, _⟩ := Socket.recv_ok hrecv
    have hsub := toNat_sub_length hle
    have hless : length.toNat - (b :: bs).length < 2 ^ 31 := by omega
    rw [hsub] at ih
    obtain ⟨hbuffer, hleft, hfailed, hrest⟩ := ih hless
    have hlt : (b :: bs ++ s'.delivered).length < length.toNat
        ↔ s'.delivered.length < length.toNat - (b :: bs).length := by
      rw [List.length_append]
      omega
    rw [loop_bytes hpos hrecv, hdelivered, hfails, List.take_append, List.take_of_length_le hle, List.drop_append,
      List.drop_of_length_le hle, List.nil_append]
    refine ⟨?_, ?_, ?_, hrest⟩
    . rw [hbuffer, List.append_assoc]
    . rw [hleft, List.length_append]
      omega
    . rw [hfailed]
      simp only [hlt]
  | case5 length buffer s hpos =>
    rw [loop_of_not_pos hpos]
    have hzero : length.toNat = 0 := by
      apply Nat.eq_zero_of_not_pos
      intro h
      exact hpos (toInt_pos_iff.mpr ⟨h, hlength⟩)
    simp [hzero]

theorem toNat_signExtend (h : length.toNat < 2 ^ 31) : (length.signExtend 64).toNat = length.toNat := by
  have hmsb : length.msb = false := by
    rw [BitVec.msb_eq_decide]
    simpa using h
  rw [BitVec.toNat_signExtend, hmsb, BitVec.toNat_setWidth, Nat.mod_eq_of_lt (by omega)]
  rfl

theorem toNat_signExtend_neg (h : 2 ^ 31 ≤ length.toNat)
    : (length.signExtend 64).toNat = length.toNat + (2 ^ 64 - 2 ^ 32) := by
  have hmsb : length.msb = true := by
    rw [BitVec.msb_eq_decide]
    simpa using h
  have hlt := length.isLt
  rw [BitVec.toNat_signExtend, hmsb, BitVec.toNat_setWidth, Nat.mod_eq_of_lt (by omega)]
  rfl

end readn

/--
The result is the number of bytes that are in the buffer, these are the next ones of the stream, and there are fewer
than `size` only if the stream ends behind them. It is -1 only after an error.
-/
structure ReadResult.Correct (r : ReadResult) (size : BitVec 64) (s : Socket) : Prop where
  ret_error : r.ret = -1 → r.failed = true
  failed_ret : r.failed = true → r.ret = -1 ∧ s.fails = true
  count : r.failed = false → r.ret.toNat = r.buffer.length
  stored : r.buffer <+: s.delivered
  complete : r.failed = false → r.buffer.length = size.toNat ∨ (r.buffer = s.delivered ∧ s.fails = false)

/--
The size fits into the `int`; or what is left of it there is positive, and an error comes before so many bytes; or it
is negative there and the sum wraps to 0, and the stream has ended.
-/
def SizeFits (size : BitVec 64) (s : Socket) : Prop :=
  size.toNat < 2 ^ 31
    ∨ (size.toNat % 2 ^ 32 < 2 ^ 31 ∧ s.delivered.length < size.toNat % 2 ^ 32 ∧ s.fails = true)
    ∨ (2 ^ 64 - 2 ^ 31 ≤ size.toNat ∧ s.delivered = [] ∧ s.fails = false)

section Correct

variable {size : BitVec 64} {s : Socket}

theorem readn_of_small (h : size.toNat % 2 ^ 32 < 2 ^ 31)
    : (readn size s).buffer = s.delivered.take (size.toNat % 2 ^ 32)
        ∧ (readn size s).failed = (decide (s.delivered.length < size.toNat % 2 ^ 32) && s.fails)
        ∧ ((readn size s).failed = true → (readn size s).ret = -1)
        ∧ ((readn size s).failed = false →
          (readn size s).ret.toNat = size.toNat - (size.toNat % 2 ^ 32 - s.delivered.length)
            ∧ (readn size s).socket.delivered = s.delivered.drop (size.toNat % 2 ^ 32)
            ∧ (readn size s).socket.fails = s.fails) := by
  have hlength : (size.setWidth 32).toNat = size.toNat % 2 ^ 32 := BitVec.toNat_setWidth 32 size
  have hlt := size.isLt
  have hsmall : (size.setWidth 32).toNat < 2 ^ 31 := by
    rw [hlength]
    exact h
  obtain ⟨hbuffer, hleft, hfailed, hrest⟩ := @readn.loop_spec _ [] s hsmall
  rw [hlength] at hbuffer hleft hfailed hrest
  unfold readn
  dsimp only
  refine ⟨hbuffer, hfailed, ?_, ?_⟩
  . intro hfail
    rw [if_pos hfail]
  . intro hok
    refine ⟨?_, hrest hok⟩
    have hless : (readn.loop (size.setWidth 32) [] s).length.toNat < 2 ^ 31 := by omega
    have hext := readn.toNat_signExtend hless
    rw [if_neg (by simp [hok]), BitVec.toNat_sub_of_le, hext, hleft]
    rw [BitVec.le_def, hext, hleft]
    omega

theorem readn_of_large (h : 2 ^ 31 ≤ size.toNat % 2 ^ 32)
    : (readn size s).buffer = [] ∧ (readn size s).failed = false ∧ (readn size s).socket = s
        ∧ (readn size s).ret.toNat = (size.toNat + 2 ^ 32 - size.toNat % 2 ^ 32) % 2 ^ 64 := by
  have hlength : (size.setWidth 32).toNat = size.toNat % 2 ^ 32 := BitVec.toNat_setWidth 32 size
  have hnot : ¬0 < (size.setWidth 32).toInt := by
    rw [readn.toInt_pos_iff, hlength]
    omega
  have hlt := size.isLt
  unfold readn
  rw [readn.loop_of_not_pos hnot]
  refine ⟨rfl, rfl, rfl, ?_⟩
  dsimp only
  rw [if_neg (by simp), BitVec.toNat_sub, readn.toNat_signExtend_neg (by omega), hlength]
  omega

theorem toNat_minusOne : (-1 : BitVec 64).toNat = 2 ^ 64 - 1 := by
  decide

theorem correct_iff_of_small (h : size.toNat % 2 ^ 32 < 2 ^ 31) : (readn size s).Correct size s ↔ SizeFits size s := by
  obtain ⟨hbuffer, hfailed, herror, hok⟩ := readn_of_small (s := s) h
  have hlt := size.isLt
  have hlength := congrArg List.length hbuffer
  rw [List.length_take] at hlength
  constructor
  . intro hcorrect
    by_cases hfail : (readn size s).failed = true
    . rw [hfailed, Bool.and_eq_true, decide_eq_true_eq] at hfail
      exact .inr (.inl ⟨h, hfail.left, hfail.right⟩)
    . rw [Bool.not_eq_true] at hfail
      have hcount := hcorrect.count hfail
      have hret := (hok hfail).left
      left
      omega
  . intro hfits
    have hcases : (readn size s).failed = true ∨ (readn size s).failed = false ∧ size.toNat < 2 ^ 31 := by
      cases hfail : (readn size s).failed with
      | true => exact .inl rfl
      | false =>
        rw [hfailed, Bool.and_eq_false_iff, decide_eq_false_iff_not] at hfail
        refine .inr ⟨rfl, ?_⟩
        obtain hsmall | ⟨_, hless, hfails⟩ | ⟨hbig, _⟩ := hfits
        . exact hsmall
        . rw [hfails] at hfail
          simp at hfail
          omega
        . omega
    constructor
    case ret_error =>
      intro hret
      apply Classical.byContradiction
      intro hfail
      have ⟨hfalse, hsmall⟩ := hcases.resolve_left hfail
      have hcount := (hok hfalse).left
      rw [hret, toNat_minusOne] at hcount
      omega
    case failed_ret =>
      intro hfail
      refine ⟨herror hfail, ?_⟩
      rw [hfailed, Bool.and_eq_true] at hfail
      exact hfail.right
    case count =>
      intro hfail
      have hret := (hok hfail).left
      have ⟨_, hsmall⟩ := hcases.resolve_left (by simp [hfail])
      omega
    case stored =>
      rw [hbuffer]
      apply List.take_prefix
    case complete =>
      intro hfail
      have ⟨_, hsmall⟩ := hcases.resolve_left (by simp [hfail])
      rw [hfailed, Bool.and_eq_false_iff, decide_eq_false_iff_not] at hfail
      by_cases henough : size.toNat % 2 ^ 32 ≤ s.delivered.length
      . left
        omega
      . right
        refine ⟨?_, hfail.resolve_left (by omega)⟩
        rw [hbuffer, List.take_of_length_le]
        omega

theorem correct_iff_of_large (h : 2 ^ 31 ≤ size.toNat % 2 ^ 32)
    : (readn size s).Correct size s ↔ SizeFits size s := by
  obtain ⟨hbuffer, hfailed, _, hret⟩ := readn_of_large (s := s) h
  have hlt := size.isLt
  have hlength : (readn size s).buffer.length = 0 := by
    rw [hbuffer]
    rfl
  constructor
  . intro hcorrect
    have hcount := hcorrect.count hfailed
    rw [hlength, hret] at hcount
    obtain hsize | ⟨hnil, hfails⟩ := hcorrect.complete hfailed
    . omega
    . refine .inr (.inr ⟨by omega, ?_, hfails⟩)
      rw [← hnil, hbuffer]
  . intro hfits
    obtain hsmall | ⟨hsmall, _⟩ | ⟨hbig, hnil, hfails⟩ := hfits
    . omega
    . omega
    . have hzero : (readn size s).ret.toNat = 0 := by
        rw [hret]
        omega
      constructor
      case ret_error =>
        intro hminus
        rw [hminus, toNat_minusOne] at hzero
        omega
      case failed_ret =>
        intro hfail
        rw [hfailed] at hfail
        cases hfail
      case count =>
        intro _
        rw [hzero, hlength]
      case stored =>
        rw [hbuffer]
        apply List.nil_prefix
      case complete =>
        intro _
        right
        rw [hbuffer, hnil]
        exact ⟨rfl, hfails⟩

/--
`readn` does what it is to do exactly for the sizes that fit.
-/
theorem correct_iff_sizeFits (size : BitVec 64) (s : Socket)
    : (readn size s).Correct size s ∧ (Server.readn size s).Correct size s ↔ SizeFits size s := by
  unfold Server.readn
  rw [and_self]
  by_cases h : size.toNat % 2 ^ 32 < 2 ^ 31
  . exact correct_iff_of_small h
  . exact correct_iff_of_large (Nat.not_lt.mp h)

-- It is asked for 4 GB and says that it has read them, but has not called `read`.
theorem not_correct_fourGigabytes
    : ¬(readn (BitVec.ofNat 64 (2 ^ 32)) [.data 65 [66]]).Correct (BitVec.ofNat 64 (2 ^ 32)) [.data 65 [66]] := by
  rw [correct_iff_of_small (by decide)]
  unfold SizeFits
  decide

end Correct
end NetWork
