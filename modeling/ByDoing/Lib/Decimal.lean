import Mathlib.Algebra.Group.Nat.Defs
import Mathlib.Data.List.Basic

namespace Decimal

def bytes (cs : List Char) : List UInt8 :=
  cs.map fun c => UInt8.ofNat c.toNat

def nat (n : Nat) : List UInt8 :=
  bytes (Nat.toDigits 10 n)

def int : Int → List UInt8
  | .ofNat n => nat n
  | .negSucc n => 45 :: nat (n + 1)

def chars : Int → List Char
  | .ofNat n => Nat.toDigits 10 n
  | .negSucc n => '-' :: Nat.toDigits 10 (n + 1)

def readNat (ds : List UInt8) : Nat :=
  ds.foldl (fun n d => 10 * n + (d.toNat - 48)) 0

def readInt : List UInt8 → Int
  | 45 :: ds => -(readNat ds : Int)
  | ds => (readNat ds : Int)

theorem isDigit_byte {c : Char} (h : c.isDigit = true)
    : (UInt8.ofNat c.toNat).toNat = c.toNat ∧ 48 ≤ c.toNat ∧ c.toNat ≤ 57 := by
  have hrange : 48 ≤ c.toNat ∧ c.toNat ≤ 57 := by
    simpa [Char.isDigit, UInt32.le_iff_toNat_le] using h
  refine ⟨?_, hrange⟩
  rw [UInt8.toNat_ofNat']
  omega

theorem mem_nat {n : Nat} {b : UInt8} (h : b ∈ nat n) : 48 ≤ b.toNat ∧ b.toNat ≤ 57 := by
  unfold nat bytes at h
  rw [List.mem_map] at h
  obtain ⟨c, hc, rfl⟩ := h
  obtain ⟨hbyte, hrange⟩ := isDigit_byte (Nat.isDigit_of_mem_toDigits (by omega) (by omega) hc)
  rw [hbyte]
  exact hrange

theorem foldl_bytes {cs : List Char} (h : ∀ c ∈ cs, c.isDigit = true) (m : Nat)
    : (bytes cs).foldl (fun n d => 10 * n + (d.toNat - 48)) m = Nat.ofDigitChars 10 cs m := by
  induction cs generalizing m with
  | nil => simp [bytes]
  | cons c cs ih =>
    rw [List.forall_mem_cons] at h
    obtain ⟨hbyte, _⟩ := isDigit_byte h.left
    rw [Nat.ofDigitChars_cons, ← ih h.right, bytes, List.map_cons, List.foldl_cons, hbyte]
    rfl

@[simp]
theorem readNat_nat (n : Nat) : readNat (nat n) = n := by
  unfold readNat nat
  rw [foldl_bytes]
  . exact Nat.ofDigitChars_ten_toDigits
  . intro c hc
    exact Nat.isDigit_of_mem_toDigits (by omega) (by omega) hc

@[simp]
theorem readInt_int (i : Int) : readInt (int i) = i := by
  cases i with
  | ofNat n =>
    -- A sign would be the first digit of `n`.
    have hsign : 45 ∉ nat n := by
      intro hmem
      have := mem_nat hmem
      simp at this
    rw [show int (Int.ofNat n) = nat n from rfl]
    unfold readInt
    split
    . next ds hds =>
      rw [hds] at hsign
      simp at hsign
    . rw [readNat_nat]
      rfl
  | negSucc n =>
    rw [show int (Int.negSucc n) = 45 :: nat (n + 1) from rfl, readInt, readNat_nat]
    omega

theorem mem_int {i : Int} {b : UInt8} (h : b ∈ int i) : b = 45 ∨ 48 ≤ b.toNat ∧ b.toNat ≤ 57 := by
  cases i with
  | ofNat n => exact .inr (mem_nat h)
  | negSucc n =>
    unfold int at h
    rw [List.mem_cons] at h
    cases h with
    | inl heq => exact .inl heq
    | inr hmem => exact .inr (mem_nat hmem)

theorem chars_eq (i : Int) : chars i = (if i < 0 then ['-'] else []) ++ Nat.toDigits 10 i.natAbs := by
  cases i with
  | ofNat n => rfl
  | negSucc n =>
    rw [if_pos (Int.negSucc_lt_zero n)]
    rfl

theorem mem_chars {i : Int} {c : Char} (h : c ∈ chars i) : c = '-' ∨ c.isDigit = true := by
  rw [chars_eq, List.mem_append] at h
  cases h with
  | inl hsign =>
    split at hsign
    . exact .inl (List.mem_singleton.mp hsign)
    . cases hsign
  | inr hdigit => exact .inr (Nat.isDigit_of_mem_toDigits (by omega) (by omega) hdigit)

theorem length_nat_le {n k : Nat} (hk : 0 < k) (h : n < 10 ^ k) : (nat n).length ≤ k := by
  unfold nat bytes
  rw [List.length_map, Nat.length_toDigits_le_iff (by omega) hk]
  exact h

theorem length_int_le {i : Int} {k : Nat} (hk : 0 < k) (h : i.natAbs < 10 ^ k) : (int i).length ≤ k + 1 := by
  cases i with
  | ofNat n =>
    have := @length_nat_le n k hk h
    rw [show int (Int.ofNat n) = nat n from rfl]
    omega
  | negSucc n =>
    have := @length_nat_le (n + 1) k hk h
    rw [show int (Int.negSucc n) = 45 :: nat (n + 1) from rfl, List.length_cons]
    omega

end Decimal
