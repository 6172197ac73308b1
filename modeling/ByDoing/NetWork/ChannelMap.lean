import Mathlib.Algebra.Ring.Nat
import Mathlib.Algebra.Ring.Int.Defs
import Mathlib.Algebra.Order.Ring.Int
import Mathlib.Data.List.Defs
import ByDoing.Lib.Checked
import ByDoing.Lib.Run
import ByDoing.Lib.While

/-!
This module contains `map_make_space` with the words it computes in: the capacity is doubled in an `int`,
where a shift loses the bits that leave the word, and a product of two `int`s that leaves the word is an
error. `grow` is what `realloc` does: `none` if there is no memory for a number of bytes, else what the
new part of the block happens to hold.
-/

namespace NetWork

open Checked

inductive DataModel where
  | ilp32
  | lp64
  deriving DecidableEq

def DataModel.sizeOfPointer : DataModel → Int
  | ilp32 => 4
  | lp64 => 8

structure ChannelMap (α : Type) where
  entries : List (Option α)
  nentries : Int

namespace ChannelMap

inductive Fault where
  | overflow
  | outOfBlock
  deriving DecidableEq

-- The result of the call, the map after it, and the capacity and the bytes of the call of `realloc`.
structure Outcome (α : Type) where
  ret : Int
  map : ChannelMap α
  request : Option (Int × Int)

-- `n << 1`.
def shiftLeft (n : Int) : Int :=
  (2 * n).bmod 4294967296

def short (slot nentries : Int) : Bool :=
  nentries ≤ slot

def double (nentries : Int) : Except Fault Int :=
  .ok (shiftLeft nentries)

def int (x : Int) : Except Fault Int :=
  checked .overflow x

-- `memset(&tmp[start], 0, bytes)`.
def memset {α : Type} (size : Int) (tmp : List (Option α)) (start bytes : Int) : Except Fault (List (Option α)) :=
  if start * size + bytes ≤ tmp.length * size then
    .ok (tmp.mapIdx fun i e => if start ≤ i ∧ i * size < start * size + bytes then none else e)
  else
    .error .outOfBlock

-- The block after a call of `realloc` that has found memory.
def reallocated {α : Type} (size : Int) (entries : List (Option α)) (fresh : Nat → Option α) (bytes : Int)
    : List (Option α) :=
  (List.range (bytes / size).toNat).map fun i => (entries[i]?).getD (fresh i)

def allocate {α : Type} (dm : DataModel) (grow : Int → Option (Nat → Option α)) (map : ChannelMap α)
    (nentries msize : Int) : Except Fault (Outcome α) := do
  let bytes ← int (nentries * msize)
  match grow bytes with
  | none => return { ret := -1, map := map, request := some (nentries, bytes) }
  | some fresh =>
    let tmp := reallocated dm.sizeOfPointer map.entries fresh bytes
    let added ← int ((nentries - map.nentries) * msize)
    let tmp ← memset dm.sizeOfPointer tmp map.nentries added
    return { ret := 0, map := { entries := tmp, nentries := nentries }, request := some (nentries, bytes) }

def start {α : Type} (map : ChannelMap α) : Int :=
  if map.nentries ≠ 0 then map.nentries else 32

-- `none` if the loop takes more than `fuel` evaluations of its condition.
def mapMakeSpace {α : Type} (dm : DataModel) (grow : Int → Option (Nat → Option α)) (fuel : Nat)
    (map : ChannelMap α) (slot msize : Int) : Option (Except Fault (Outcome α)) :=
  if map.nentries ≤ slot then
    match While.run (short slot) double fuel map.start with
    | none => none
    | some (.error e) => some (.error e)
    | some (.ok nentries) => some (allocate dm grow map nentries msize)
  else
    some (.ok { ret := 0, map := map, request := none })

structure Valid {α : Type} (map : ChannelMap α) : Prop where
  nonneg : 0 ≤ map.nentries
  inInt : map.nentries < 2147483648
  length : (map.entries.length : Int) = map.nentries

structure Done {α : Type} (map : ChannelMap α) (slot msize : Int) (out : Outcome α) : Prop where
  ret : out.ret = 0 ∨ out.ret = -1
  valid : out.ret = 0 → Valid out.map
  covers : out.ret = 0 → slot < out.map.nentries
  kept : out.ret = 0 → ∀ i : Nat, i < map.nentries → out.map.entries[i]? = map.entries[i]?
  cleared : out.ret = 0 → ∀ i : Nat, map.nentries ≤ i → i < out.map.nentries → out.map.entries[i]? = some none
  request : ∀ nentries bytes, out.request = some (nentries, bytes) →
    bytes = nentries * msize ∧ (out.ret = 0 → nentries = out.map.nentries)
  failed : out.ret = -1 → out.map = map

def Makes {α : Type} (dm : DataModel) (grow : Int → Option (Nat → Option α)) (map : ChannelMap α)
    (slot msize : Int) : Prop :=
  ∃ fuel out, mapMakeSpace dm grow fuel map slot msize = some (.ok out) ∧ Done map slot msize out

def Fits {α : Type} (map : ChannelMap α) (slot msize : Int) : Prop :=
  slot < map.nentries ∨ ∃ k : Nat, slot < map.start * 2 ^ k ∧ map.start * 2 ^ k * msize < 2147483648

variable {α : Type} {dm : DataModel} {grow : Int → Option (Nat → Option α)} {map : ChannelMap α} {slot : Int}

theorem shiftLeft_of_lt {n : Int} (h0 : 0 ≤ n) (h : n < 1073741824) : shiftLeft n = 2 * n := by
  unfold shiftLeft
  rw [Int.bmod_def]
  split
  . omega
  . omega

theorem short_iff {n : Int} : short slot n = true ↔ n ≤ slot := by
  unfold short
  exact decide_eq_true_iff

theorem short_eq_false_iff {n : Int} : short slot n = false ↔ slot < n := by
  rw [← Bool.not_eq_true, short_iff, Int.not_le]

theorem start_pos (hmap : Valid map) : 0 < map.start := by
  have hnonneg := hmap.nonneg
  unfold start
  split
  . omega
  . decide

theorem run_double {n : Int} {k : Nat} (hpos : 0 < n) (hslot : slot < n * 2 ^ k) (hword : n * 2 ^ k < 2147483648)
    : ∃ j ≤ k, slot < n * 2 ^ j ∧ While.run (short slot) double (k + 1) n = some (.ok (n * 2 ^ j)) := by
  induction k generalizing n with
  | zero =>
    refine ⟨0, Nat.le_refl _, hslot, ?_⟩
    rw [pow_zero, mul_one] at hslot ⊢
    apply While.run_of_false
    exact short_eq_false_iff.mpr hslot
  | succ k ih =>
    by_cases hlt : slot < n
    . refine ⟨0, Nat.zero_le _, ?_, ?_⟩
      . rw [pow_zero, mul_one]
        exact hlt
      . rw [pow_zero, mul_one]
        apply While.run_of_false
        exact short_eq_false_iff.mpr hlt
    . have hpow : n * 2 ^ (k + 1) = 2 * n * 2 ^ k := by rw [pow_succ]; ac_rfl
      have hone : (1 : Int) ≤ 2 ^ k := one_le_pow₀ (by decide)
      have hle : 2 * n ≤ 2 * n * 2 ^ k := le_mul_of_one_le_right (by omega) hone
      rw [hpow] at hslot hword
      obtain ⟨j, hj, hcovers, hrun⟩ := ih (by omega) hslot hword
      have hpow' : n * 2 ^ (j + 1) = 2 * n * 2 ^ j := by rw [pow_succ]; ac_rfl
      refine ⟨j + 1, by omega, ?_, ?_⟩
      . rw [hpow']
        exact hcovers
      . have hbody : double n = .ok (2 * n) := by
          unfold double
          rw [shiftLeft_of_lt (by omega) (by omega)]
        rw [hpow', While.run_of_ok (short_iff.mpr (by omega)) hbody]
        exact hrun

theorem doubled_of_reaches {m n : Int} (hpos : 0 < m) (hm : m < 2147483648)
    (h : While.Reaches (short slot) double m n)
    : 1073741824 ≤ slot ∨ n < 2147483648 ∧ ∃ k : Nat, n = m * 2 ^ k := by
  induction h with
  | refl =>
    right
    refine ⟨hm, 0, ?_⟩
    rw [pow_zero, mul_one]
  | step _ hcond hbody ih =>
    rw [short_iff] at hcond
    rcases ih with hslot | ⟨hword, k, rfl⟩
    . left
      exact hslot
    . by_cases hlt : 1073741824 ≤ slot
      . left
        exact hlt
      . right
        unfold double at hbody
        obtain rfl := Except.ok.inj hbody
        have hnonneg : 0 ≤ m * 2 ^ k := mul_nonneg (by omega) (pow_nonneg (by decide) k)
        rw [shiftLeft_of_lt hnonneg (by omega)]
        refine ⟨by omega, k + 1, ?_⟩
        rw [pow_succ]
        ac_rfl

theorem length_reallocated {size n : Int} (hsize : 0 < size) (entries : List (Option α))
    (fresh : Nat → Option α)
    : (reallocated size entries fresh (n * size)).length = n.toNat := by
  unfold reallocated
  rw [List.length_map, List.length_range, Int.mul_ediv_cancel n (Int.ne_of_gt hsize)]

theorem getElem?_reallocated {size n : Int} (hsize : 0 < size) (entries : List (Option α))
    (fresh : Nat → Option α) {i : Nat} (h : i < n)
    : (reallocated size entries fresh (n * size))[i]? = some ((entries[i]?).getD (fresh i)) := by
  unfold reallocated
  rw [List.getElem?_map, Int.mul_ediv_cancel n (Int.ne_of_gt hsize), List.getElem?_range (by omega)]
  rfl

theorem memset_to_end {size n : Int} (hsize : 0 < size) (start : Int) {tmp : List (Option α)}
    (hlength : tmp.length = n)
    : ∃ tmp', memset size tmp start ((n - start) * size) = .ok tmp' ∧ tmp'.length = n
        ∧ (∀ i : Nat, i < start → tmp'[i]? = tmp[i]?)
        ∧ ∀ i : Nat, start ≤ i → i < n → tmp'[i]? = some none := by
  have hend : start * size + (n - start) * size = n * size := by
    rw [← Int.add_mul]
    congr 1
    omega
  unfold memset
  rw [hend, hlength, if_pos (Int.le_refl _)]
  refine ⟨_, rfl, ?_, ?_, ?_⟩
  . rw [List.length_mapIdx, hlength]
  . intro i hi
    rw [List.getElem?_mapIdx]
    cases htmp : tmp[i]? with
    | none => rfl
    | some e => simp only [Option.map_some, Int.not_le.mpr hi, false_and, if_false]
  . intro i hi hlt
    have hsome : i < tmp.length := by omega
    have hmul : (i : Int) * size < n * size := Int.mul_lt_mul_of_pos_right hlt hsize
    rw [List.getElem?_mapIdx, List.getElem?_eq_getElem hsome]
    simp only [Option.map_some, hi, hmul, and_self, if_true]

theorem sizeOfPointer_bounds (dm : DataModel) : 4 ≤ dm.sizeOfPointer ∧ dm.sizeOfPointer ≤ 8 := by
  cases dm with
  | ilp32 => decide
  | lp64 => decide

theorem int_of_range {x : Int} (h0 : 0 ≤ x) (h : x < 2147483648) : int x = .ok x := by
  unfold int
  exact checked_of_inInt ⟨by omega, h⟩

theorem allocate_done (hmap : Valid map) {n : Int} (hlt : slot < n) (hle : map.nentries ≤ slot)
    (hbytes : n * dm.sizeOfPointer < 2147483648)
    : ∃ out, allocate dm grow map n dm.sizeOfPointer = .ok out ∧ Done map slot dm.sizeOfPointer out := by
  obtain ⟨hlo, hhi⟩ := sizeOfPointer_bounds dm
  have hpos : 0 < dm.sizeOfPointer := by omega
  have hnonneg := hmap.nonneg
  have hn : n ≤ n * dm.sizeOfPointer := le_mul_of_one_le_right (by omega) (by omega)
  have hadded : (n - map.nentries) * dm.sizeOfPointer ≤ n * dm.sizeOfPointer :=
    Int.mul_le_mul_of_nonneg_right (by omega) (by omega)
  have hadded0 : 0 ≤ (n - map.nentries) * dm.sizeOfPointer := mul_nonneg (by omega) (by omega)
  unfold allocate
  rw [int_of_range (by omega) hbytes]
  dsimp only [bind, Except.bind]
  cases hgrow : grow (n * dm.sizeOfPointer) with
  | none =>
    refine ⟨_, rfl, ?_⟩
    refine ⟨.inr rfl, nofun, nofun, nofun, nofun, ?_, fun _ => rfl⟩
    intro nentries bytes hrequest
    obtain ⟨rfl, rfl⟩ := Prod.mk.inj (Option.some.inj hrequest)
    exact ⟨rfl, nofun⟩
  | some fresh =>
    have hlength : ((reallocated dm.sizeOfPointer map.entries fresh (n * dm.sizeOfPointer)).length : Int) = n := by
      rw [length_reallocated hpos]
      omega
    obtain ⟨tmp, hmemset, htmp, hkept, hcleared⟩ := memset_to_end hpos map.nentries hlength
    dsimp only
    rw [int_of_range hadded0 (by omega)]
    dsimp only
    rw [hmemset]
    refine ⟨_, rfl, ?_⟩
    refine ⟨.inl rfl, fun _ => ⟨?_, ?_, htmp⟩, fun _ => hlt, fun _ => ?_, fun _ => hcleared, ?_, nofun⟩
    . change 0 ≤ n
      omega
    . change n < 2147483648
      omega
    . intro i hi
      have hentry : i < map.entries.length := by
        have := hmap.length
        omega
      rw [hkept i hi, getElem?_reallocated hpos _ _ (by omega), List.getElem?_eq_getElem hentry]
      rfl
    . intro nentries bytes hrequest
      obtain ⟨rfl, rfl⟩ := Prod.mk.inj (Option.some.inj hrequest)
      exact ⟨rfl, fun _ => rfl⟩

theorem start_lt (hmap : Valid map) : map.start < 2147483648 := by
  have hword := hmap.inInt
  unfold start
  split
  . exact hword
  . decide

theorem mapMakeSpace_of_lt (h : slot < map.nentries) (fuel : Nat) (msize : Int)
    : mapMakeSpace dm grow fuel map slot msize = some (.ok { ret := 0, map := map, request := none }) := by
  unfold mapMakeSpace
  rw [if_neg (Int.not_le.mpr h)]

theorem done_of_lt (hmap : Valid map) (h : slot < map.nentries) (msize : Int)
    : Done map slot msize { ret := 0, map := map, request := none } :=
  ⟨.inl rfl, fun _ => hmap, fun _ => h, fun _ _ _ => rfl, fun _ _ hle hlt => absurd hlt (Int.not_lt.mpr hle),
    nofun, fun _ => rfl⟩

theorem lt_of_pow_lt {n : Int} {k : Nat} (hpos : 0 < n) (h : n * 2 ^ k * 4 < 2147483648) : k < 32 := by
  by_contra hle
  have hpow : (2 : Int) ^ 32 ≤ 2 ^ k := pow_le_pow_right₀ (by decide) (Nat.le_of_not_lt hle)
  have hmul : (2 : Int) ^ k ≤ n * 2 ^ k := le_mul_of_one_le_left (pow_nonneg (by decide) k) hpos
  have hword : (2 : Int) ^ 32 = 4294967296 := by decide
  omega

theorem mapMakeSpace_of_fits (hmap : Valid map) (h : Fits map slot dm.sizeOfPointer)
    : ∃ out, mapMakeSpace dm grow 33 map slot dm.sizeOfPointer = some (.ok out)
        ∧ Done map slot dm.sizeOfPointer out := by
  by_cases hlt : slot < map.nentries
  . exact ⟨_, mapMakeSpace_of_lt hlt _ _, done_of_lt hmap hlt _⟩
  . obtain ⟨k, hslot, hbytes⟩ := h.resolve_left hlt
    obtain ⟨hlo, hhi⟩ := sizeOfPointer_bounds dm
    have hpos := start_pos hmap
    have hnonneg : 0 ≤ map.start * 2 ^ k := mul_nonneg (by omega) (pow_nonneg (by decide) k)
    have hword : map.start * 2 ^ k ≤ map.start * 2 ^ k * dm.sizeOfPointer :=
      le_mul_of_one_le_right hnonneg (by omega)
    have hfour : map.start * 2 ^ k * 4 ≤ map.start * 2 ^ k * dm.sizeOfPointer := Int.mul_le_mul_of_nonneg_left hlo hnonneg
    have hk := @lt_of_pow_lt _ k hpos (by omega)
    obtain ⟨j, hj, hcovers, hrun⟩ := run_double hpos hslot (by omega)
    have hpow : map.start * 2 ^ j ≤ map.start * 2 ^ k :=
      Int.mul_le_mul_of_nonneg_left (pow_le_pow_right₀ (by decide) hj) (by omega)
    have hfewer : map.start * 2 ^ j * dm.sizeOfPointer ≤ map.start * 2 ^ k * dm.sizeOfPointer :=
      Int.mul_le_mul_of_nonneg_right hpow (by omega)
    obtain ⟨out, hallocate, hdone⟩ : ∃ out, allocate dm grow map (map.start * 2 ^ j) dm.sizeOfPointer = .ok out
        ∧ Done map slot dm.sizeOfPointer out := by
      apply allocate_done hmap hcovers
      . omega
      . omega
    refine ⟨out, ?_, hdone⟩
    unfold mapMakeSpace
    rw [if_pos (by omega), While.run_mono (show k + 1 ≤ 33 by omega) hrun]
    exact congrArg some hallocate

theorem request_of_allocate {n msize : Int} {out : Outcome α} (h : allocate dm grow map n msize = .ok out)
    : n * msize < 2147483648 := by
  unfold allocate at h
  obtain ⟨bytes, hbytes, _⟩ := Run.bind_eq_ok_iff.mp h
  unfold int checked at hbytes
  split at hbytes
  . next hword => exact hword.right
  . cases hbytes

theorem fits_of_mapMakeSpace (hmap : Valid map) (hslot : 0 ≤ slot) {fuel : Nat} {out : Outcome α}
    (hmake : mapMakeSpace dm grow fuel map slot dm.sizeOfPointer = some (.ok out))
    : Fits map slot dm.sizeOfPointer := by
  unfold mapMakeSpace at hmake
  split at hmake
  . cases hrun : While.run (short slot) double fuel map.start with
    | none => simp only [hrun, reduceCtorEq] at hmake
    | some res =>
      cases res with
      | error e => simp only [hrun, Option.some.injEq, reduceCtorEq] at hmake
      | ok n =>
        simp only [hrun, Option.some.injEq] at hmake
        have hbytes := request_of_allocate hmake
        obtain ⟨hreaches, hcovers⟩ := While.Ends.reaches ⟨fuel, hrun⟩
        rw [short_eq_false_iff] at hcovers
        obtain ⟨hlo, hhi⟩ := sizeOfPointer_bounds dm
        have hfour : n * 4 ≤ n * dm.sizeOfPointer := Int.mul_le_mul_of_nonneg_left hlo (by omega)
        rcases doubled_of_reaches (start_pos hmap) (start_lt hmap) hreaches with hlarge | ⟨_, k, rfl⟩
        . omega
        . right
          exact ⟨k, hcovers, hbytes⟩
  . next hlt =>
    left
    exact Int.not_le.mp hlt

theorem lt_of_mapMakeSpace {fuel : Nat} {out : Outcome α}
    (hmake : mapMakeSpace dm grow fuel map slot dm.sizeOfPointer = some (.ok out)) (hle : map.nentries ≤ slot)
    : map.nentries < 2147483648 := by
  unfold mapMakeSpace at hmake
  rw [if_pos hle] at hmake
  cases hrun : While.run (short slot) double fuel map.start with
  | none => simp only [hrun, reduceCtorEq] at hmake
  | some res =>
    cases res with
    | error e => simp only [hrun, Option.some.injEq, reduceCtorEq] at hmake
    | ok n =>
      simp only [hrun, Option.some.injEq] at hmake
      have hbytes := request_of_allocate hmake
      have hcovers := short_eq_false_iff.mp (While.Ends.reaches ⟨fuel, hrun⟩).right
      obtain ⟨hlo, hhi⟩ := sizeOfPointer_bounds dm
      by_contra hlarge
      have hn : n ≤ n * dm.sizeOfPointer := le_mul_of_one_le_right (by omega) (by omega)
      omega

theorem lt_of_fits (h : Fits map slot dm.sizeOfPointer) (hle : map.nentries ≤ slot) : map.nentries < 2147483648 := by
  obtain ⟨k, hcovers, hbytes⟩ := h.resolve_left (Int.not_lt.mpr hle)
  obtain ⟨hlo, hhi⟩ := sizeOfPointer_bounds dm
  by_contra hlarge
  have hn : map.start * 2 ^ k ≤ map.start * 2 ^ k * dm.sizeOfPointer :=
    le_mul_of_one_le_right (by omega) (by omega)
  omega

theorem ret_of_roomy (hgrow : ∀ n, grow n ≠ none) {fuel : Nat} {msize : Int} {out : Outcome α}
    (hmake : mapMakeSpace dm grow fuel map slot msize = some (.ok out))
    : out.ret = 0 := by
  unfold mapMakeSpace at hmake
  split at hmake
  . cases hrun : While.run (short slot) double fuel map.start with
    | none => simp only [hrun, reduceCtorEq] at hmake
    | some res =>
      cases res with
      | error e => simp only [hrun, Option.some.injEq, reduceCtorEq] at hmake
      | ok n =>
        simp only [hrun, Option.some.injEq] at hmake
        unfold allocate at hmake
        obtain ⟨bytes, _, hmake⟩ := Run.bind_eq_ok_iff.mp hmake
        split at hmake
        . next hnone => exact absurd hnone (hgrow bytes)
        . obtain ⟨added, _, hmake⟩ := Run.bind_eq_ok_iff.mp hmake
          obtain ⟨tmp, _, hmake⟩ := Run.bind_eq_ok_iff.mp hmake
          cases hmake
          rfl
  . cases hmake
    rfl

/--
`map_make_space` ends and does what it is to do, with the exact number of bytes for `realloc`, exactly if
the map has the slot or some doubling of its capacity (of 32 for an empty map) is above the slot and takes
less than 2^31 bytes.
-/
theorem makes_iff_fits (hmap : Valid map) (hslot : 0 ≤ slot)
    : Makes dm grow map slot dm.sizeOfPointer ↔ Fits map slot dm.sizeOfPointer := by
  constructor
  . intro ⟨fuel, out, hmake, _⟩
    exact fits_of_mapMakeSpace hmap hslot hmake
  . intro h
    obtain ⟨out, hmake, hdone⟩ := mapMakeSpace_of_fits hmap h
    exact ⟨33, out, hmake, hdone⟩

theorem exists_doubling (h : slot < 134217728) (d : Nat) {n : Int} (hpos : 0 < n) (hword : n < 268435456)
    (hslot : slot < n + d)
    : ∃ k : Nat, slot < n * 2 ^ k ∧ n * 2 ^ k < 268435456 := by
  induction d generalizing n with
  | zero =>
    refine ⟨0, ?_, ?_⟩
    . rw [pow_zero, mul_one]
      omega
    . rw [pow_zero, mul_one]
      exact hword
  | succ d ih =>
    by_cases hlt : slot < n
    . refine ⟨0, ?_, ?_⟩
      . rw [pow_zero, mul_one]
        exact hlt
      . rw [pow_zero, mul_one]
        exact hword
    . obtain ⟨k, hcovers, hfew⟩ := @ih (2 * n) (by omega) (by omega) (by omega)
      have hpow : n * 2 ^ (k + 1) = 2 * n * 2 ^ k := by rw [pow_succ]; ac_rfl
      exact ⟨k + 1, hpow ▸ hcovers, hpow ▸ hfew⟩

theorem fits_of_lt (hmap : Valid map) (h : slot < 134217728) : Fits map slot dm.sizeOfPointer := by
  obtain ⟨hlo, hhi⟩ := sizeOfPointer_bounds dm
  have hpos := start_pos hmap
  by_cases hlt : slot < map.nentries
  . exact .inl hlt
  . have hstart : map.start < 268435456 := by
      unfold start
      split
      . omega
      . decide
    obtain ⟨k, hcovers, hfew⟩ := exists_doubling h (slot + 1).toNat hpos hstart (by omega)
    have hnonneg : 0 ≤ map.start * 2 ^ k := mul_nonneg (by omega) (pow_nonneg (by decide) k)
    have hbytes : map.start * 2 ^ k * dm.sizeOfPointer ≤ map.start * 2 ^ k * 8 :=
      Int.mul_le_mul_of_nonneg_left hhi hnonneg
    exact .inr ⟨k, hcovers, by omega⟩

theorem endless_of_run {n : Int} (h : While.run (short slot) double 33 n = none) (fuel : Nat)
    : While.run (short slot) double fuel n = none := by
  have hshifts : ∀ (i : Nat) (m x : Int), m = (2 ^ (32 - i) * x).bmod 4294967296 → i ≤ 32
      → While.run (short slot) double (i + 1) m = none → ∀ fuel, While.run (short slot) double fuel m = none := by
    intro i
    induction i with
    | zero =>
      intro m x hm _ hrun fuel
      have hpow : (2 : Int) ^ (32 - 0) = 4294967296 := by decide
      have hzero : m = 0 := by
        rw [hm, hpow]
        exact Int.bmod_eq_zero_of_dvd ⟨x, rfl⟩
      subst hzero
      cases hshort : short slot 0 with
      | false =>
        rw [While.run_of_false hshort] at hrun
        cases hrun
      | true =>
        have hbody : double 0 = .ok 0 := rfl
        exact While.run_of_fixed hshort hbody fuel
    | succ i ih =>
      intro m x hm hi hrun fuel
      cases hshort : short slot m with
      | false =>
        rw [While.run_of_false hshort] at hrun
        cases hrun
      | true =>
        have hbody : double m = .ok (shiftLeft m) := rfl
        rw [While.run_of_ok hshort hbody] at hrun
        have hpow : (2 : Int) ^ (32 - i) = 2 * 2 ^ (32 - (i + 1)) := by
          rw [show 32 - i = 32 - (i + 1) + 1 by omega, pow_succ]
          ac_rfl
        have hshift : shiftLeft m = (2 ^ (32 - i) * x).bmod 4294967296 := by
          rw [hm, shiftLeft, Int.mul_bmod_bmod, hpow, mul_assoc]
        have hnext := ih (shiftLeft m) x hshift (by omega) hrun
        cases fuel with
        | zero => rfl
        | succ fuel =>
          rw [While.run_of_ok hshort hbody]
          exact hnext fuel
  cases hshort : short slot n with
  | false =>
    rw [While.run_of_false hshort] at h
    cases h
  | true =>
    have hbody : double n = .ok (shiftLeft n) := rfl
    rw [While.run_of_ok hshort hbody] at h
    cases fuel with
    | zero => rfl
    | succ fuel =>
      rw [While.run_of_ok hshort hbody]
      apply hshifts 31 (shiftLeft n) n
      . rfl
      . decide
      . exact h

def empty : ChannelMap Nat where
  entries := []
  nentries := 0

theorem valid_empty : Valid empty :=
  ⟨Int.le_refl _, by decide, rfl⟩

/--
An empty map and the descriptor 100, for which the capacity of 32 is doubled twice.
-/
theorem makes_hundred
    : Makes .lp64 (fun _ => some fun _ => some 7) empty 100 DataModel.lp64.sizeOfPointer
        ↔
      Fits empty 100 DataModel.lp64.sizeOfPointer := by
  apply makes_iff_fits
  . exact valid_empty
  . decide

-- What the capacity of 32 becomes: the powers of 2 up to 2^30, the smallest `int`, and 0 for ever.
def capacities : List Int :=
  List.iterate shiftLeft 32 28

theorem capacities_short : ∀ n ∈ capacities, short 1073741824 n = true ∧ shiftLeft n ∈ capacities := by
  decide

theorem mapMakeSpace_endless (fuel : Nat)
    : mapMakeSpace .lp64 (fun _ => none) fuel empty 1073741824 DataModel.lp64.sizeOfPointer = none := by
  have hrun : While.run (short 1073741824) double fuel empty.start = none := by
    have hstart : empty.start ∈ capacities := by decide
    generalize empty.start = n at hstart
    induction fuel generalizing n with
    | zero => rfl
    | succ fuel ih =>
      obtain ⟨hshort, hnext⟩ := capacities_short n hstart
      have hbody : double n = .ok (shiftLeft n) := rfl
      rw [While.run_of_ok hshort hbody]
      exact ih _ hnext
  unfold mapMakeSpace
  rw [if_pos (by decide), hrun]

/--
For the slot 2^30 the loop of an empty map never ends.
-/
theorem not_makes_top
    : ¬ ∀ (map : ChannelMap Nat) (slot : Int), Valid map → 0 ≤ slot → slot < 2147483648 →
        Makes .lp64 (fun _ => none) map slot DataModel.lp64.sizeOfPointer := by
  intro hall
  obtain ⟨fuel, out, hmake, _⟩ := hall empty 1073741824 valid_empty (by decide) (by decide)
  rw [mapMakeSpace_endless] at hmake
  cases hmake

end ChannelMap
end NetWork
