import ByDoing.OS.UserMemory

namespace OS

structure Space where
  -- The blocks of 4 MB that have a page table.
  mapped : PageIndex → Bool
  page : PageIndex × PageIndex → Option Contents

namespace Space

def empty : Space :=
  {
    mapped := fun _ => false
    page := fun _ => none
  }

-- The first `n` blocks of a range.
abbrev InRange (nr : UserSlot) (n : Nat) (d : PageIndex) : Prop :=
  d.val / 16 = nr.val.val ∧ d.val % 16 < n

def copyRange (s : Space) (from_ to_ : UserSlot) (n : Nat) : Except MemError Space :=
  if ∃ j < n, s.mapped (to_.block j) = true then
    .error .alreadyExist
  else
    .ok
      {
        mapped := fun d => if InRange to_ n d then s.mapped (from_.block (d.val % 16)) else s.mapped d
        page := fun k => if InRange to_ n k.fst then s.page (from_.block (k.fst.val % 16), k.snd) else s.page k
      }

def freeRange (s : Space) (nr : UserSlot) (n : Nat) : Except MemError Space :=
  .ok
    {
      mapped := fun d => if InRange nr n d then false else s.mapped d
      page := fun k => if InRange nr n k.fst then none else s.page k
    }

def writeByte (s : Space) (address : UserAddress) (byte : BitVec 8) : Except MemError Space :=
  match s.page address.key with
  | none => .error .notPresent
  | some contents =>
    .ok { s with page := Function.update s.page address.key (some (setByteAt contents (offsetOf address.val) byte)) }

def access (s : Space) (address : UserAddress) (contents : Contents) : Except MemError Space :=
  match s.page address.key with
  | some _ => .ok s
  | none =>
    .ok
      {
        mapped := Function.update s.mapped address.key.fst true
        page := Function.update s.page address.key (some contents)
      }

def readByte (s : Space) (address : UserAddress) : Option (BitVec 8) :=
  (s.page address.key).map fun contents => byteAt contents (offsetOf address.val)

def step (s : Space) : UserAct → Except MemError Space
  | .copy from_ to_ size => s.copyRange from_ to_ (Memory.tables size.val)
  | .write address byte => s.writeByte address byte
  | .verify _ => .ok s
  | .kernelWrite address byte => s.writeByte address byte
  | .access address contents => s.access address contents
  | .free nr size => s.freeRange nr (Memory.tables size.val)

def run (acts : List UserAct) : Except MemError Space :=
  acts.foldlM step empty

theorem readByte_writeByte {s s' : Space} {address : UserAddress} {byte : BitVec 8}
    (h : s.writeByte address byte = .ok s') (other : UserAddress)
    : s'.readByte other = if other = address then some byte else s.readByte other := by
  unfold writeByte at h
  split at h
  . cases h
  . next contents hpage =>
    cases h
    unfold readByte
    dsimp only
    by_cases hkey : other.key = address.key
    . rw [hkey, Function.update_self, Option.map_some, byteAt_setByteAt, hpage, Option.map_some]
      simp only [UserAddress.ext_key, hkey, true_and]
      split <;> rfl
    . have hne : other ≠ address := by
        intro heq
        exact hkey (heq ▸ rfl)
      rw [Function.update_of_ne hkey, if_neg hne]

def copyBlock (s : Space) (d d' : PageIndex) : Except MemError Space :=
  if s.mapped d' then
    .error .alreadyExist
  else
    .ok
      {
        mapped := Function.update s.mapped d' (s.mapped d)
        page := fun k => if k.fst = d' then s.page (d, k.snd) else s.page k
      }

def freeBlock (s : Space) (d : PageIndex) : Except MemError Space :=
  .ok
    {
      mapped := Function.update s.mapped d false
      page := fun k => if k.fst = d then none else s.page k
    }

theorem inRange_succ {nr : UserSlot} {n : Nat} (hn : n < 16) (d : PageIndex)
    : InRange nr (n + 1) d ↔ d = nr.block n ∨ InRange nr n d := by
  rw [Fin.ext_iff, nr.block_val hn]
  unfold InRange
  omega

theorem not_inRange_block (nr from_ : UserSlot) {n : Nat} (hn : n < 16) : ¬InRange nr n (from_.block n) := by
  unfold InRange
  rw [from_.block_val hn]
  omega

theorem block_mod (from_ : UserSlot) {nr : UserSlot} {n : Nat} (hn : n < 16)
    : from_.block ((nr.block n).val % 16) = from_.block n := by
  rw [nr.block_val hn]
  congr 1
  omega

theorem copyRange_succ (s : Space) (from_ to_ : UserSlot) {n : Nat} (hn : n < 16)
    : (s.copyRange from_ to_ n >>= fun s => s.copyBlock (from_.block n) (to_.block n))
        = s.copyRange from_ to_ (n + 1) := by
  have hexists : (∃ j < n + 1, s.mapped (to_.block j) = true)
      ↔ s.mapped (to_.block n) = true ∨ ∃ j < n, s.mapped (to_.block j) = true := by
    rw [Nat.exists_lt_succ_right, Or.comm]
  unfold copyRange
  simp only [hexists]
  by_cases hbefore : ∃ j < n, s.mapped (to_.block j) = true
  . rw [if_pos hbefore, if_pos (.inr hbefore)]
    rfl
  . rw [if_neg hbefore]
    show copyBlock _ _ _ = _
    unfold copyBlock
    dsimp only
    simp only [not_inRange_block to_ to_ hn, not_inRange_block to_ from_ hn, if_false]
    by_cases hlast : s.mapped (to_.block n) = true
    . rw [if_pos hlast, if_pos (.inl hlast)]
    . rw [if_neg hlast, if_neg (not_or.mpr ⟨hlast, hbefore⟩), Except.ok.injEq, Space.mk.injEq]
      constructor
      . funext d
        simp only [inRange_succ hn]
        by_cases hd : d = to_.block n
        . rw [hd, Function.update_self, if_pos (.inl rfl), block_mod from_ hn]
        . rw [Function.update_of_ne hd]
          simp only [hd, false_or]
      . funext k
        simp only [inRange_succ hn]
        by_cases hk : k.fst = to_.block n
        . rw [if_pos hk, if_pos (.inl hk), hk, block_mod from_ hn]
        . simp only [hk, if_false, false_or]

theorem foldlM_copyBlock (s : Space) (from_ to_ : UserSlot) {n : Nat} (hn : n ≤ 16)
    : (List.range n).foldlM (fun s j => s.copyBlock (from_.block j) (to_.block j)) s = s.copyRange from_ to_ n := by
  induction n with
  | zero =>
    unfold copyRange
    simp [InRange]
    rfl
  | succ n ih =>
    rw [List.range_succ, List.foldlM_append, ih (by omega), ← copyRange_succ s from_ to_ (by omega)]
    simp

theorem freeRange_succ (s : Space) (nr : UserSlot) {n : Nat} (hn : n < 16)
    : (s.freeRange nr n >>= fun s => s.freeBlock (nr.block n)) = s.freeRange nr (n + 1) := by
  show freeBlock _ _ = _
  unfold freeBlock freeRange
  rw [Except.ok.injEq, Space.mk.injEq]
  constructor
  . funext d
    simp only [inRange_succ hn]
    by_cases hd : d = nr.block n
    . rw [hd, Function.update_self, if_pos (.inl rfl)]
    . rw [Function.update_of_ne hd]
      simp only [hd, false_or]
  . funext k
    simp only [inRange_succ hn]
    by_cases hk : k.fst = nr.block n
    . rw [if_pos hk, if_pos (.inl hk)]
    . simp only [hk, if_false, false_or]

theorem foldlM_freeBlock (s : Space) (nr : UserSlot) {n : Nat} (hn : n ≤ 16)
    : (List.range n).foldlM (fun s j => s.freeBlock (nr.block j)) s = s.freeRange nr n := by
  induction n with
  | zero =>
    unfold freeRange
    simp [InRange]
    rfl
  | succ n ih =>
    rw [List.range_succ, List.foldlM_append, ih (by omega), ← freeRange_succ s nr (by omega)]
    simp

end Space
end OS
