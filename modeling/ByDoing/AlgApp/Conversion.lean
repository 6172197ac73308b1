import Mathlib
import ByDoing.Lib.StableSort

namespace AlgApp

universe u

abbrev Machine (lo hi : Int) : Type :=
  { i : Int // lo ≤ i ∧ i < hi }

abbrev int : Type :=
  Machine (-2147483648) 2147483648

abbrev long : Type :=
  Machine (-9223372036854775808) 9223372036854775808

abbrev ulong : Type :=
  Machine 0 18446744073709551616

/--
The conversions from an element to `int` and back, where an `int` is compared with an element or assigned to one.
-/
class Conversion (T : Type u) where
  toInt : T → int
  ofInt : int → T
  toInt_ofInt : ∀ n, toInt (ofInt n) = n

namespace Conversion

-- The element that an `int` with the value of `x` stands for.
def held {T : Type u} [Conversion T] (x : T) : T :=
  ofInt (toInt x)

theorem held_held {T : Type u} [Conversion T] (x : T) : held (held x) = held x := by
  unfold held
  rw [toInt_ofInt]

def narrow (i : Int) : int :=
  ⟨i.bmod 4294967296, by
    have hle := @Int.le_bmod i 4294967296 (by omega)
    have hlt := @Int.bmod_lt i 4294967296 (by omega)
    omega⟩

theorem narrow_val (n : int) : narrow n.val = n := by
  apply Subtype.ext
  have hrange := n.property
  unfold narrow
  dsimp only
  rw [Int.bmod_eq_of_le] <;> omega

theorem narrow_emod (n : int) : narrow (n.val % 18446744073709551616) = n := by
  have hrange := n.property
  have hdvd : narrow (n.val % 18446744073709551616) = narrow n.val := by
    apply Subtype.ext
    unfold narrow
    dsimp only
    rw [Int.bmod_def, Int.bmod_def, Int.emod_emod_of_dvd _ (by decide)]
  rw [hdvd, narrow_val]

theorem tdiv_den (n : Int) : (n : Rat).num.tdiv (n : Rat).den = n := by
  simp

-- What `arr.size()` becomes in an `int`.
def sizeInt {T : Type u} (arr : List T) : int :=
  narrow arr.length

def reached {T : Type u} (arr : List T) : Nat :=
  (sizeInt arr).val.toNat

theorem sizeInt_of_lt {T : Type u} {arr : List T} (h : arr.length < 2147483648) : (sizeInt arr).val = arr.length := by
  unfold sizeInt narrow
  dsimp only
  rw [Int.bmod_eq_of_le] <;> omega

theorem reached_of_lt {T : Type u} {arr : List T} (h : arr.length < 2147483648) : reached arr = arr.length := by
  unfold reached
  rw [sizeInt_of_lt h, Int.toNat_natCast]

theorem reached_le {T : Type u} (arr : List T) : reached arr ≤ arr.length := by
  unfold reached sizeInt narrow
  dsimp only
  rw [Int.bmod_def]
  split <;> omega

instance : Conversion int where
  toInt x := x
  ofInt n := n
  toInt_ofInt _ := rfl

instance : Conversion long where
  toInt x := narrow x.val
  ofInt n := ⟨n.val, by have := n.property; omega⟩
  toInt_ofInt n := narrow_val n

instance : Conversion ulong where
  toInt x := narrow x.val
  ofInt n := ⟨n.val % 18446744073709551616, by omega⟩
  toInt_ofInt n := narrow_emod n

-- The conversion truncates. What it gives outside of the range of `int` is up to the machine.
@[reducible]
def rational (outside : Rat → int) : Conversion Rat where
  toInt x :=
    if h : -2147483648 ≤ x.num.tdiv x.den ∧ x.num.tdiv x.den < 2147483648 then
      ⟨x.num.tdiv x.den, h⟩
    else
      outside x
  ofInt n := n.val
  toInt_ofInt n := by
    have hrange := n.property
    simp only [tdiv_den]
    rw [dif_pos hrange]

instance : Conversion Rat :=
  rational fun _ => ⟨-2147483648, by omega⟩

end Conversion

open Conversion

-- The fractional vector that each `main` sorts.
def arrf : List Rat :=
  [17.5, 19.1, 0.6, 1.9, 10.5, 12.4, 3.8, 19.7, 1.5, 25.4, 28.6, 4.4, 23.8, 5.4]

-- A vector whose size becomes the `int` 0.
def wrapping : List Int :=
  List.replicate 4294967295 1 ++ [0]

theorem length_wrapping : wrapping.length = 4294967295 + 1 := by
  unfold wrapping
  rw [List.length_append, List.length_replicate, List.length_singleton]

theorem sizeInt_wrapping : (sizeInt wrapping).val = 0 := by
  have hlength := length_wrapping
  unfold sizeInt narrow
  dsimp only
  rw [Int.bmod_def]
  split <;> omega

theorem not_inPlace_wrapping : ¬StableSort.InPlace wrapping (reached wrapping) := by
  intro hrest
  have hsorted := hrest.sorted
  rw [reached, sizeInt_wrapping, Int.toNat_zero, List.drop_zero] at hsorted
  unfold wrapping at hsorted
  have hle := (List.pairwise_append.mp hsorted).right.right 1 (List.mem_replicate.mpr ⟨by decide, rfl⟩) 0
    List.mem_cons_self
  exact absurd hle (by decide)

end AlgApp
