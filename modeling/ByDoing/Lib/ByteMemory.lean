import Mathlib.Algebra.Ring.Nat
import Mathlib.Data.List.Basic

abbrev ByteMemory (w : Nat) := BitVec w → BitVec 8

namespace ByteMemory

variable {w : Nat} {m m' : ByteMemory w} {a b : BitVec w} {l l' : List (BitVec 8)}

def Holds (m : ByteMemory w) (a : BitVec w) (l : List (BitVec 8)) : Prop :=
  ∀ i (h : i < l.length), m (a + BitVec.ofNat w i) = l[i]

def store (m : ByteMemory w) (a : BitVec w) (l : List (BitVec 8)) : ByteMemory w :=
  fun x => l[(x - a).toNat]?.getD (m x)

def Apart (a : BitVec w) (n : Nat) (b : BitVec w) (k : Nat) : Prop :=
  a.toNat + n ≤ b.toNat ∧ b.toNat + k ≤ 2 ^ w ∨ b.toNat + k ≤ a.toNat ∧ a.toNat + n ≤ 2 ^ w

theorem add_ofNat_add (a : BitVec w) (i j : Nat)
    : a + BitVec.ofNat w i + BitVec.ofNat w j = a + BitVec.ofNat w (i + j) := by
  rw [BitVec.ofNat_add, BitVec.add_assoc]

theorem Holds.congr (h : Holds m a l) (heq : ∀ i < l.length, m' (a + BitVec.ofNat w i) = m (a + BitVec.ofNat w i))
    : Holds m' a l := by
  intro i hi
  rw [heq i hi]
  exact h i hi

@[simp]
theorem holds_nil : Holds m a [] := by
  intro i hi
  exact absurd hi (Nat.not_lt_zero i)

theorem holds_append : Holds m a (l ++ l') ↔ Holds m a l ∧ Holds m (a + BitVec.ofNat w l.length) l' := by
  constructor
  . intro h
    constructor
    . intro i hi
      rw [h i (by rw [List.length_append]; omega), List.getElem_append_left hi]
    . intro i hi
      rw [add_ofNat_add, h (l.length + i) (by rw [List.length_append]; omega), List.getElem_append_right (by omega)]
      congr 1
      omega
  . rintro ⟨hl, hl'⟩ i hi
    rw [List.length_append] at hi
    rcases Nat.lt_or_ge i l.length with hlt | hge
    . rw [List.getElem_append_left hlt]
      exact hl i hlt
    . rw [List.getElem_append_right hge, ← hl' (i - l.length) (by omega), add_ofNat_add]
      congr 3
      omega

theorem holds_singleton {c : BitVec 8} : Holds m a [c] ↔ m a = c := by
  constructor
  . intro h
    simpa using h 0 (by simp)
  . intro h i hi
    have hzero : i = 0 := by
      rw [List.length_singleton] at hi
      omega
    subst hzero
    simpa using h

theorem holds_cons {c : BitVec 8} : Holds m a (c :: l) ↔ m a = c ∧ Holds m (a + 1) l := by
  rw [← List.singleton_append, holds_append, holds_singleton]
  rfl

theorem store_of_outside {x : BitVec w} (h : l.length ≤ (x - a).toNat) : store m a l x = m x := by
  unfold store
  rw [List.getElem?_eq_none h]
  rfl

theorem holds_store (h : l.length ≤ 2 ^ w) : Holds (store m a l) a l := by
  intro i hi
  have hoffset : (a + BitVec.ofNat w i - a).toNat = i := by
    rw [BitVec.add_comm, BitVec.add_sub_cancel, BitVec.toNat_ofNat, Nat.mod_eq_of_lt (by omega)]
  unfold store
  rw [hoffset, List.getElem?_eq_getElem hi]
  rfl

theorem Apart.outside {n k i : Nat} (h : Apart a n b k) (hi : i < k) : n ≤ (b + BitVec.ofNat w i - a).toNat := by
  have ha := a.isLt
  have hb := b.isLt
  rcases h with ⟨hle, hend⟩ | ⟨hle, hend⟩
  . have hsum : (b + BitVec.ofNat w i).toNat = b.toNat + i := by
      rw [BitVec.toNat_add, BitVec.toNat_ofNat, Nat.mod_eq_of_lt (a := i) (by omega), Nat.mod_eq_of_lt (by omega)]
    rw [BitVec.toNat_sub, hsum]
    have hsub : 2 ^ w - a.toNat + (b.toNat + i) = b.toNat + i - a.toNat + 2 ^ w := by omega
    rw [hsub, Nat.add_mod_right, Nat.mod_eq_of_lt (by omega)]
    omega
  . have hsum : (b + BitVec.ofNat w i).toNat = b.toNat + i := by
      rw [BitVec.toNat_add, BitVec.toNat_ofNat, Nat.mod_eq_of_lt (a := i) (by omega), Nat.mod_eq_of_lt (by omega)]
    rw [BitVec.toNat_sub, hsum, Nat.mod_eq_of_lt (by omega)]
    omega

-- Nothing but the `n` bytes from `a` on has changed.
def Frame (m m' : ByteMemory w) (a : BitVec w) (n : Nat) : Prop :=
  ∀ x : BitVec w, n ≤ (x - a).toNat → m' x = m x

theorem frame_store : Frame m (store m a l) a l.length :=
  fun _ h => store_of_outside h

theorem Frame.trans {m'' : ByteMemory w} {n : Nat} (h : Frame m m' a n) (h' : Frame m' m'' a n) : Frame m m'' a n :=
  fun x hx => (h' x hx).trans (h x hx)

theorem Frame.within {n k : Nat} (h : Frame m m' a n) (hstart : b.toNat ≤ a.toNat)
    (hend : a.toNat + n ≤ b.toNat + k) (hlast : b.toNat + k ≤ 2 ^ w)
    : Frame m m' b k := by
  intro x hx
  apply h x
  have ha := a.isLt
  have hb := b.isLt
  have hlt := x.isLt
  rw [BitVec.toNat_sub] at *
  rcases Nat.lt_or_ge x.toNat b.toNat with hbelow | habove
  . rw [Nat.mod_eq_of_lt (by omega)]
    omega
  . have hsub : 2 ^ w - b.toNat + x.toNat = x.toNat - b.toNat + 2 ^ w := by omega
    rw [hsub, Nat.add_mod_right, Nat.mod_eq_of_lt (by omega)] at hx
    have hsub' : 2 ^ w - a.toNat + x.toNat = x.toNat - a.toNat + 2 ^ w := by omega
    rw [hsub', Nat.add_mod_right, Nat.mod_eq_of_lt (by omega)]
    omega

theorem Holds.frame {n : Nat} (h : Holds m b l) (hframe : Frame m m' a n) (hapart : Apart a n b l.length)
    : Holds m' b l :=
  h.congr fun _ hi => hframe _ (hapart.outside hi)

def longBytes (v : BitVec 32) : List (BitVec 8) :=
  [v.extractLsb' 0 8, v.extractLsb' 8 8, v.extractLsb' 16 8, v.extractLsb' 24 8]

def getLong (m : ByteMemory w) (a : BitVec w) : BitVec 32 :=
  m (a + 3) ++ m (a + 2) ++ m (a + 1) ++ m a

def putLong (m : ByteMemory w) (a : BitVec w) (v : BitVec 32) : ByteMemory w :=
  store m a (longBytes v)

@[simp]
theorem length_longBytes (v : BitVec 32) : (longBytes v).length = 4 :=
  rfl

theorem frame_putLong {v : BitVec 32} : Frame m (putLong m a v) a 4 :=
  frame_store

theorem getLong_of_holds {v : BitVec 32} (h : Holds m a (longBytes v)) : getLong m a = v := by
  have h0 := h 0 (by simp)
  have h1 := h 1 (by simp)
  have h2 := h 2 (by simp)
  have h3 := h 3 (by simp)
  rw [BitVec.add_zero] at h0
  unfold getLong
  have h3' : m (a + 3) = v.extractLsb' 24 8 := h3
  have h2' : m (a + 2) = v.extractLsb' 16 8 := h2
  have h1' : m (a + 1) = v.extractLsb' 8 8 := h1
  have h0' : m a = v.extractLsb' 0 8 := h0
  rw [h3', h2', h1', h0']
  rw [BitVec.extractLsb'_append_extractLsb'_eq_extractLsb' (by omega),
    BitVec.extractLsb'_append_extractLsb'_eq_extractLsb' (by omega),
    BitVec.extractLsb'_append_extractLsb'_eq_extractLsb' (by omega)]
  simp

-- The number of bytes up to the first 0, which is one of them, if it is not more than `fuel` bytes away.
def scan (m : ByteMemory w) : Nat → BitVec w → Option Nat
  | 0, _ => none
  | fuel + 1, a => if m a = 0 then some 1 else (scan m fuel (a + 1)).map (· + 1)

theorem scan_of_holds {fuel : Nat} (hnonzero : ∀ c ∈ l, c ≠ 0) (h : Holds m a (l ++ [0])) (hfuel : l.length < fuel)
    : scan m fuel a = some (l.length + 1) := by
  induction l generalizing a fuel with
  | nil =>
    cases fuel with
    | zero => exact absurd hfuel (Nat.not_lt_zero _)
    | succ fuel => exact if_pos (holds_singleton.mp h)
  | cons c l ih =>
    cases fuel with
    | zero => exact absurd hfuel (Nat.not_lt_zero _)
    | succ fuel =>
      rw [List.cons_append, holds_cons] at h
      have hc : m a ≠ 0 := by
        rw [h.left]
        exact hnonzero c List.mem_cons_self
      have hrest := ih (fun d hd => hnonzero d (List.mem_cons_of_mem c hd)) h.right (Nat.lt_of_succ_lt_succ hfuel)
      rw [scan, if_neg hc, hrest]
      rfl

theorem length_lt_of_holds (hnonzero : ∀ c ∈ l, c ≠ 0) (h : Holds m a (l ++ [0])) : l.length < 2 ^ w := by
  by_contra hlong
  have hpos : 0 < 2 ^ w := Nat.two_pow_pos w
  have hlt : l.length - 2 ^ w < l.length := by omega
  have hlength : (l ++ [0]).length = l.length + 1 := List.length_append
  have hend := h l.length (by omega)
  have hchar := h (l.length - 2 ^ w) (by omega)
  have hsame : BitVec.ofNat w (l.length - 2 ^ w) = BitVec.ofNat w l.length := by
    apply BitVec.eq_of_toNat_eq
    rw [BitVec.toNat_ofNat, BitVec.toNat_ofNat, Nat.mod_eq_sub_mod (Nat.le_of_not_lt hlong)]
  rw [List.getElem_append_right (Nat.le_refl _)] at hend
  rw [hsame, hend, List.getElem_append_left hlt, List.getElem_singleton] at hchar
  exact hnonzero _ (List.getElem_mem hlt) hchar.symm

end ByteMemory
