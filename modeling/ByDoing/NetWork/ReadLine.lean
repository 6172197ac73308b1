import ByDoing.NetWork.Socket

namespace NetWork

def newline : UInt8 := 10

def carriageReturn : UInt8 := 13

structure LineResult (ρ : Type) where
  ret : ρ
  -- What the call has stored, with the offset from the start of the buffer.
  stores : List (UInt8 × Nat)
  -- What the call has received and not stored.
  ahead : List UInt8
  socket : Socket
  deriving Repr, DecidableEq

namespace readline

-- `left` is what is left of the read buffer, which is filled again only if nothing is.
def receive (left : List UInt8) (s : Socket) : Except Nat (List UInt8) × Socket :=
  if left = [] then s.recv 512 else (.ok left, s)

theorem receive_weight {left : List UInt8} {s s' : Socket} {c : UInt8} {left' : List UInt8}
    (h : receive left s = (.ok (c :: left'), s')) : left.length + s.weight = left'.length + s'.weight + 1 := by
  unfold receive at h
  split at h
  . next hnil =>
    obtain ⟨_, _, _, _, _, hweight, _⟩ := Socket.recv_ok h
    rw [hnil, hweight, List.length_nil, List.length_cons]
    omega
  . cases h
    rw [List.length_cons]
    omega

theorem receive_error {left : List UInt8} {s s' : Socket} {errno : Nat} (h : receive left s = (.error errno, s'))
    : left = [] ∧ s = .error errno :: s' := by
  unfold receive at h
  split at h
  . next hnil => exact ⟨hnil, Socket.recv_error h⟩
  . cases h

def loop (length : BitVec 64) (left : List UInt8) (offset : Nat) (stores : List (UInt8 × Nat)) (s : Socket)
    : LineResult (BitVec 64) :=
  if 0 < (length - 1).toNat then
    match h : receive left s with
    | (.error errno, s') =>
      if errno = EINTR then
        loop (length - 1 + 1) left offset stores s'
      else
        { ret := -1, stores, ahead := [], socket := s' }
    | (.ok [], s') => { ret := 0, stores, ahead := [], socket := s' }
    | (.ok (c :: left), s') =>
      if c = newline then
        {
          ret := BitVec.ofNat 64 (offset + 1)
          stores := stores ++ [(c, offset)] ++ [(0, offset + 1)]
          ahead := left
          socket := s'
        }
      else
        loop (length - 1) left (offset + 1) (stores ++ [(c, offset)]) s'
  else
    { ret := -1, stores, ahead := left, socket := s }
termination_by left.length + s.weight
decreasing_by
  . rw [(receive_error h).right, Socket.weight]
    omega
  . have hweight := receive_weight h
    omega

end readline

-- `nleft` is a local variable: what an earlier call has left in the read buffer is not used.
def readline (length : BitVec 64) (s : Socket) : LineResult (BitVec 64) :=
  readline.loop length [] 0 [] s

def readline2.loop (length : BitVec 64) (offset : Nat) (stores : List (UInt8 × Nat)) (s : Socket)
    : LineResult (BitVec 64) :=
  if 0 < length.toNat then
    match hrecv : s.recv 1 with
    | (.ok [c], s') =>
      if c = newline then
        {
          ret := BitVec.ofNat 64 (offset + 1)
          stores := stores ++ [(c, offset)] ++ [(0, offset + 1)]
          ahead := []
          socket := s'
        }
      else
        loop (length - 1) (offset + 1) (stores ++ [(c, offset)]) s'
    | (_, s') => { ret := -1, stores, ahead := [], socket := s' }
  else
    { ret := -1, stores, ahead := [], socket := s }
termination_by s.weight
decreasing_by
  obtain ⟨_, _, _, _, _, hweight, _⟩ := Socket.recv_ok hrecv
  rw [hweight, List.length_singleton]
  omega

def readline2 (length : BitVec 64) (s : Socket) : LineResult (BitVec 64) :=
  readline2.loop length 0 [] s

namespace readLine

-- `n = recv(fd, &c, 1, flags)`
def recvChar (c : UInt8) (r : Except Nat (List UInt8) × Socket) : Int × UInt8 × Socket :=
  match r with
  | (.ok (b :: _), s) => (1, b, s)
  | (.ok [], s) => (0, c, s)
  | (.error _, s) => (-1, c, s)

def afterReturn (c : UInt8) (s : Socket) : UInt8 × Socket :=
  if c = carriageReturn then
    match recvChar c (s.peek 1) with
    | (n, c, s) =>
      if 0 < n ∧ c = newline then
        match recvChar c (s.recv 1) with
        | (_, c, s) => (c, s)
      else
        (newline, s)
  else
    (c, s)

def loop (size : Int) (i : Nat) (c : UInt8) (stores : List (UInt8 × Nat)) (s : Socket) : LineResult Nat :=
  if h : (i : Int) < size - 1 ∧ c ≠ newline then
    match recvChar c (s.recv 1) with
    | (n, c', s') =>
      if 0 < n then
        match afterReturn c' s' with
        | (c', s') => loop size (i + 1) c' (stores ++ [(c', i)]) s'
      else
        loop size i newline stores s'
  else
    { ret := i, stores := stores ++ [(0, i)], ahead := [], socket := s }
termination_by 2 * (size - 1 - i).toNat + (if c = newline then 0 else 1)
decreasing_by
  . split <;> split <;> omega
  . simp [h.right]

end readLine

def readLine (size : Int) (s : Socket) : LineResult Nat :=
  readLine.loop size 0 0 [] s

end NetWork

namespace NetWork

theorem append_zipIdx_cons (stores : List (UInt8 × Nat)) (c : UInt8) (line : List UInt8) (offset : Nat)
    : stores ++ (c :: line).zipIdx offset = stores ++ [(c, offset)] ++ line.zipIdx (offset + 1) := by
  rw [List.zipIdx_cons, List.append_assoc, List.singleton_append]

theorem add_length_cons (offset : Nat) (c : UInt8) (line : List UInt8)
    : offset + (c :: line).length = offset + 1 + line.length := by
  rw [List.length_cons]
  omega

section Readline

variable {length : BitVec 64} {left : List UInt8} {offset : Nat} {stores : List (UInt8 × Nat)} {s : Socket}

namespace readline

theorem toNat_pred (hpos : 0 < length.toNat) : (length - 1).toNat = length.toNat - 1 := by
  rw [BitVec.toNat_sub_of_le]
  . rfl
  . rw [BitVec.le_def]
    exact hpos

theorem loop_stores (hpos : 0 < length.toNat) (hlt : offset + length.toNat ≤ 2 ^ 64)
    : ∃ line : List UInt8, line.length < length.toNat
        ∧ (((loop length left offset stores s).ret = -1 ∨ (loop length left offset stores s).ret = 0)
            ∧ (loop length left offset stores s).stores = stores ++ line.zipIdx offset
          ∨ (loop length left offset stores s).ret.toNat = offset + line.length
            ∧ (loop length left offset stores s).stores
              = stores ++ line.zipIdx offset ++ [(0, offset + line.length)]) := by
  fun_induction loop length left offset stores s with
  | case1 length left offset stores s hmore s' h ih =>
    rw [BitVec.sub_add_cancel] at ih ⊢
    exact ih hpos hlt
  | case2 length left offset stores s hmore errno s' h hne =>
    exact ⟨[], hpos, .inl ⟨.inl rfl, by simp⟩⟩
  | case3 length left offset stores s hmore s' h =>
    exact ⟨[], hpos, .inl ⟨.inr rfl, by simp⟩⟩
  | case4 length left offset stores s hmore left' s' h =>
    rw [toNat_pred hpos] at hmore
    refine ⟨[newline], ?_, .inr ⟨?_, rfl⟩⟩
    . rw [List.length_singleton]
      omega
    . rw [BitVec.toNat_ofNat, Nat.mod_eq_of_lt (by omega)]
      rfl
  | case5 length left offset stores s hmore c left' s' h hc ih =>
    rw [toNat_pred hpos] at hmore ih
    obtain ⟨line, hlength, hstores⟩ := ih hmore (by omega)
    have hlength' : (c :: line).length < length.toNat := Nat.add_lt_of_lt_sub hlength
    refine ⟨c :: line, hlength', ?_⟩
    rw [append_zipIdx_cons, add_length_cons]
    exact hstores
  | case6 length left offset stores s hmore =>
    exact ⟨[], hpos, .inl ⟨.inl rfl, by simp⟩⟩

end readline

namespace readline2

theorem loop_stores (hlt : offset + length.toNat < 2 ^ 64)
    : (∃ line : List UInt8, line.length ≤ length.toNat ∧ (loop length offset stores s).ret = -1
          ∧ (loop length offset stores s).stores = stores ++ line.zipIdx offset)
        ∨ (∃ line : List UInt8, newline ∉ line ∧ line.length < length.toNat ∧ line ++ [newline] <+: s.unbroken
          ∧ (loop length offset stores s).ret.toNat = offset + (line ++ [newline]).length
          ∧ (loop length offset stores s).stores
            = stores ++ (line ++ [newline]).zipIdx offset ++ [(0, offset + (line ++ [newline]).length)]) := by
  fun_induction loop length offset stores s with
  | case1 length offset stores s hmore s' h =>
    obtain ⟨_, _, hunbroken, _⟩ := Socket.recv_ok h
    right
    refine ⟨[], by simp, hmore, ?_, ?_, rfl⟩
    . rw [hunbroken, List.nil_append]
      apply List.prefix_append
    . rw [BitVec.toNat_ofNat, Nat.mod_eq_of_lt (by omega)]
      rfl
  | case2 length offset stores s hmore c s' h hc ih =>
    obtain ⟨_, _, hunbroken, _⟩ := Socket.recv_ok h
    rw [readline.toNat_pred hmore] at ih
    obtain ⟨line, hlength, hret, hstores⟩ | ⟨line, hline, hlength, hprefix, hret, hstores⟩ := ih (by omega)
    . left
      refine ⟨c :: line, ?_, hret, ?_⟩
      . rw [List.length_cons]
        omega
      . rw [append_zipIdx_cons]
        exact hstores
    . right
      refine ⟨c :: line, ?_, ?_, ?_, ?_, ?_⟩
      . rw [List.mem_cons, not_or]
        exact ⟨Ne.symm hc, hline⟩
      . rw [List.length_cons]
        omega
      . rw [hunbroken, List.cons_append, List.singleton_append, List.cons_prefix_cons]
        exact ⟨rfl, hprefix⟩
      . rw [List.cons_append, add_length_cons]
        exact hret
      . rw [List.cons_append, append_zipIdx_cons, add_length_cons]
        exact hstores
  | case3 length offset stores s hmore r s' h hr =>
    exact .inl ⟨[], Nat.zero_le _, rfl, by simp⟩
  | case4 length offset stores s hmore =>
    exact .inl ⟨[], Nat.zero_le _, rfl, by simp⟩

theorem loop_char {c : UInt8} {s' : Socket} (hpos : 0 < length.toNat) (h : s.recv 1 = (.ok [c], s'))
    : loop length offset stores s
      = if c = newline then
          {
            ret := BitVec.ofNat 64 (offset + 1)
            stores := stores ++ [(c, offset)] ++ [(0, offset + 1)]
            ahead := []
            socket := s'
          }
        else
          loop (length - 1) (offset + 1) (stores ++ [(c, offset)]) s' := by
  rw [loop, if_pos hpos]
  split
  . next heq =>
    rw [h] at heq
    cases heq
    rfl
  . next hne heq =>
    rw [h] at heq
    cases heq
    exact absurd rfl (hne c)

theorem loop_line {line rest : List UInt8} (hline : newline ∉ line) (hlength : line.length < length.toNat)
    (hlt : offset + length.toNat < 2 ^ 64) (hs : s.unbroken = line ++ newline :: rest)
    : (loop length offset stores s).ret.toNat = offset + (line ++ [newline]).length
        ∧ (loop length offset stores s).stores
          = stores ++ (line ++ [newline]).zipIdx offset ++ [(0, offset + (line ++ [newline]).length)]
        ∧ (loop length offset stores s).socket.unbroken = rest
        ∧ (s.Calm → (loop length offset stores s).socket.Calm) := by
  induction line generalizing length offset stores s with
  | nil =>
    obtain ⟨s', hrecv, hrest, hcalm⟩ := Socket.recv_one hs
    rw [loop_char hlength hrecv, if_pos rfl]
    refine ⟨?_, rfl, hrest, hcalm⟩
    rw [List.length_nil] at hlength
    rw [BitVec.toNat_ofNat, Nat.mod_eq_of_lt (by omega)]
    rfl
  | cons c line ih =>
    obtain ⟨s', hrecv, hrest, hcalm⟩ := Socket.recv_one hs
    rw [List.mem_cons, not_or] at hline
    rw [List.length_cons] at hlength
    have hpos : 0 < length.toNat := by omega
    have hpred := readline.toNat_pred hpos
    rw [loop_char hpos hrecv, if_neg (Ne.symm hline.left), List.cons_append, append_zipIdx_cons, add_length_cons]
    obtain ⟨hret, hstores, hrest', hcalm'⟩ := @ih (length - 1) (offset + 1) (stores ++ [(c, offset)]) s' hline.right
      (by omega) (by omega) hrest
    exact ⟨hret, hstores, hrest', hcalm' ∘ hcalm⟩

end readline2

theorem readLine.loop_stores {size : Int} {i : Nat} {c : UInt8} (hi : (i : Int) < size)
    : ∃ line : List UInt8, (i + line.length : Int) < size
        ∧ (loop size i c stores s).ret = i + line.length
        ∧ (loop size i c stores s).stores = stores ++ line.zipIdx i ++ [(0, i + line.length)] := by
  fun_induction loop size i c stores s with
  | case1 i c stores s hmore n c' s' hrecv hn c'' s'' hreturn ih =>
    obtain ⟨line, hlength, hret, hstores⟩ := ih (by omega)
    refine ⟨c'' :: line, ?_, ?_, ?_⟩
    . rw [List.length_cons]
      omega
    . rw [add_length_cons]
      exact hret
    . rw [append_zipIdx_cons, add_length_cons]
      exact hstores
  | case2 i c stores s hmore n c' s' hrecv hn ih => exact ih hi
  | case3 i c stores s hmore => exact ⟨[], by simpa using hi, rfl, by simp⟩

end Readline

namespace LineResult

variable {ρ : Type}

-- Nothing is stored outside of a buffer of `length` bytes.
def InBounds (r : LineResult ρ) (length : Nat) : Prop :=
  ∀ p ∈ r.stores, p.2 < length

-- The call has stored `count` bytes at the start of the buffer, and a NUL behind them.
def Terminated (r : LineResult ρ) (count : Nat) : Prop :=
  ∃ line : List UInt8, r.stores = line.zipIdx ++ [(0, line.length)] ∧ count = line.length

def Counted (r : LineResult (BitVec 64)) : Prop :=
  r.ret = -1 ∨ r.ret = 0 ∨ r.Terminated r.ret.toNat

variable {r : LineResult ρ} {line : List UInt8} {length : Nat}

theorem inBounds_line (h : r.stores = line.zipIdx) (hlength : line.length ≤ length) : r.InBounds length := by
  intro p hp
  rw [h] at hp
  have hlt := List.snd_lt_of_mem_zipIdx hp
  omega

theorem inBounds_terminated (h : r.stores = line.zipIdx ++ [(0, line.length)])
    : r.InBounds length ↔ line.length < length := by
  constructor
  . intro hbounds
    apply hbounds (0, line.length)
    rw [h]
    simp
  . intro hlength p hp
    rw [h, List.mem_append, List.mem_singleton] at hp
    cases hp with
    | inl hp => exact Nat.lt_trans (by simpa using List.snd_lt_of_mem_zipIdx hp) hlength
    | inr hp =>
      rw [hp]
      exact hlength

end LineResult

def LineFills (length : BitVec 64) (s : Socket) : Prop :=
  ∃ line, newline ∉ line ∧ line.length + 1 = length.toNat ∧ line ++ [newline] <+: s.unbroken

section Bounds

variable {length : BitVec 64} {size : Int}

theorem readline_inBounds (hlength : 0 < length.toNat) (s : Socket)
    : (readline length s).InBounds length.toNat ∧ (readline length s).Counted := by
  obtain ⟨line, hline, ⟨hret, hstores⟩ | ⟨hret, hstores⟩⟩ :=
    @readline.loop_stores length [] 0 [] s hlength (by omega)
  . refine ⟨LineResult.inBounds_line hstores (Nat.le_of_lt hline), ?_⟩
    rw [LineResult.Counted, ← or_assoc]
    exact .inl hret
  . rw [Nat.zero_add] at hret hstores
    exact ⟨(LineResult.inBounds_terminated hstores).mpr hline, .inr (.inr ⟨line, hstores, hret⟩)⟩

theorem readLine_inBounds (hsize : 0 < size) (s : Socket)
    : (readLine size s).InBounds size.toNat ∧ (readLine size s).Terminated (readLine size s).ret := by
  obtain ⟨line, hline, hret, hstores⟩ := @readLine.loop_stores [] s size 0 0 hsize
  rw [Nat.zero_add] at hret hstores
  have hlength : line.length < size.toNat := by omega
  exact ⟨(LineResult.inBounds_terminated hstores).mpr hlength, line, hstores, hret⟩

theorem readline2_inBounds_iff (s : Socket)
    : (readline2 length s).InBounds length.toNat ∧ (readline2 length s).Counted ↔ ¬LineFills length s := by
  have hlt : 0 + length.toNat < 2 ^ 64 := by
    rw [Nat.zero_add]
    exact length.isLt
  constructor
  . rintro ⟨hbounds, _⟩ ⟨line, hline, hfills, rest, hrest⟩
    rw [List.append_assoc, List.singleton_append] at hrest
    obtain ⟨_, hstores, _, _⟩ := @readline2.loop_line length 0 [] s line rest hline (by omega) hlt hrest.symm
    rw [Nat.zero_add] at hstores
    have hroom := (LineResult.inBounds_terminated hstores).mp hbounds
    rw [List.length_append, List.length_singleton] at hroom
    omega
  . intro hnot
    obtain ⟨line, hline, hret, hstores⟩ | ⟨line, hline, hlength, hprefix, hret, hstores⟩ :=
      @readline2.loop_stores length 0 [] s hlt
    . exact ⟨LineResult.inBounds_line hstores hline, .inl hret⟩
    . rw [Nat.zero_add] at hret hstores
      refine ⟨(LineResult.inBounds_terminated hstores).mpr ?_, .inr (.inr ⟨line ++ [newline], hstores, hret⟩)⟩
      rw [List.length_append, List.length_singleton]
      apply Nat.lt_of_le_of_ne hlength
      intro hfills
      exact hnot ⟨line, hline, hfills, hprefix⟩

/--
The three functions keep to their buffers and count what they have stored, unless a line fills the buffer of
`readline_2` up to the last byte.
-/
theorem inBounds_iff_not_lineFills (hlength : 0 < length.toNat) (hsize : 0 < size) (s : Socket)
    : ((readline length s).InBounds length.toNat ∧ (readline length s).Counted)
          ∧ ((readline2 length s).InBounds length.toNat ∧ (readline2 length s).Counted)
          ∧ ((readLine size s).InBounds size.toNat ∧ (readLine size s).Terminated (readLine size s).ret)
        ↔ ¬LineFills length s := by
  rw [readline2_inBounds_iff]
  constructor
  . intro h
    exact h.right.left
  . intro h
    exact ⟨readline_inBounds hlength s, h, readLine_inBounds hsize s⟩

-- A line that is one byte shorter than the buffer.
theorem inBounds_short : (readline2 3 [.data 65 [], .data 10 [66]]).InBounds 3 := by
  have hnot : ¬LineFills 3 [.data 65 [], .data 10 [66]] := by
    rintro ⟨line, _, hlength, hprefix⟩
    match line with
    | [b, c] =>
      simp [Socket.unbroken, newline] at hprefix
  exact ((inBounds_iff_not_lineFills (by decide) (by decide : (0 : Int) < 3) _).mpr hnot).right.left.left

-- An empty line and a buffer of one byte: the NUL goes behind the buffer.
theorem not_inBounds_emptyLine : ¬(readline2 1 [.data 10 []]).InBounds 1 := by
  rw [readline2, readline2.loop_char (by decide) rfl, if_pos (by decide)]
  intro h
  exact absurd (h (0, 1) (by simp)) (by decide)

end Bounds

end NetWork
