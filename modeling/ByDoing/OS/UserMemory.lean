import ByDoing.OS.Memory
import ByDoing.OS.Pid

/-!
This module contains the accesses to the ranges of the user tasks, which go through the page tables. The range of
the task in slot `nr` are the 64 MB from `nr * 0x4000000` on, and the pages of a range are shared and released as a
whole when its task forks and exits.
-/

namespace OS

def offsetOf (address : Word) : Fin 4096 :=
  Fin.ofNat 4096 address.toNat

def wordOf (offset : Fin 4096) : PageIndex :=
  ⟨offset.val / 4, by omega⟩

def byteAt (contents : Contents) (offset : Fin 4096) : BitVec 8 :=
  (contents (wordOf offset) >>> (8 * (offset.val % 4))).setWidth 8

def setByteAt (contents : Contents) (offset : Fin 4096) (byte : BitVec 8) : Contents :=
  let shift := 8 * (offset.val % 4)
  Function.update contents (wordOf offset)
    (contents (wordOf offset) &&& ~~~((0xff : Word) <<< shift) ||| byte.setWidth 32 <<< shift)

theorem getLsbD_ff (k : Nat) : (0xff : Word).getLsbD k = decide (k < 8) := by
  by_cases hk : k < 32
  . have hall : ∀ k < 32, (0xff : Word).getLsbD k = decide (k < 8) := by decide
    exact hall k hk
  . rw [BitVec.getLsbD_of_ge _ _ (by omega)]
    symm
    simp
    omega

theorem byte_replaced (w : Word) (byte : BitVec 8) {n n' : Nat} (hn : n < 4) (hn' : n' < 4)
    : ((w &&& ~~~((0xff : Word) <<< (8 * n)) ||| byte.setWidth 32 <<< (8 * n)) >>> (8 * n')).setWidth 8
        = if n' = n then byte else (w >>> (8 * n')).setWidth 8 := by
  apply BitVec.eq_of_getLsbD_eq
  intro i hi
  simp only [BitVec.getLsbD_setWidth, BitVec.getLsbD_ushiftRight, BitVec.getLsbD_or, BitVec.getLsbD_and,
    BitVec.getLsbD_not, BitVec.getLsbD_shiftLeft, getLsbD_ff]
  split
  . next heq =>
    subst heq
    have h1 : 8 * n' + i < 32 := by omega
    have h2 : 8 * n' + i - 8 * n' = i := by omega
    have h3 : ¬ 8 * n' + i < 8 * n' := by omega
    have h4 : i < 32 := by omega
    simp [hi, h1, h2, h3, h4]
  . next hne =>
    rw [BitVec.getLsbD_setWidth, BitVec.getLsbD_ushiftRight]
    have h1 : 8 * n' + i < 32 := by omega
    rcases Nat.lt_or_gt_of_ne hne with hlt | hgt
    . have h2 : 8 * n' + i < 8 * n := by omega
      simp [hi, h1, h2]
    . have h2 : ¬ 8 * n' + i - 8 * n < 8 := by omega
      have h3 : ¬ 8 * n' + i < 8 * n := by omega
      rw [BitVec.getLsbD_of_ge byte _ (by omega)]
      simp [hi, h1, h2, h3]

theorem byteAt_setByteAt (contents : Contents) (offset other : Fin 4096) (byte : BitVec 8)
    : byteAt (setByteAt contents offset byte) other = if other = offset then byte else byteAt contents other := by
  unfold byteAt setByteAt
  by_cases hword : wordOf other = wordOf offset
  . have hsame : other.val % 4 = offset.val % 4 ↔ other = offset := by
      have hdiv := congrArg Fin.val hword
      simp only [wordOf] at hdiv
      rw [Fin.ext_iff]
      omega
    rw [hword, Function.update_self, byte_replaced _ _ (Nat.mod_lt _ (by omega)) (Nat.mod_lt _ (by omega))]
    simp only [hsame]
  . have hne : other ≠ offset := by
      intro heq
      exact hword (heq ▸ rfl)
    rw [Function.update_of_ne hword, if_neg hne]

namespace Memory

def translate (m : Memory) (address : Word) : Option Word :=
  if Entry.present (m.dir (dirOf address)) then
    let entry := m.ram (m.table (dirOf address)) (entryOf address)
    if Entry.present entry then some entry else none
  else
    none

def readByte (m : Memory) (address : Word) : Option (BitVec 8) :=
  (m.translate address).map fun entry => byteAt (m.ram (Entry.frame entry)) (offsetOf address)

def storeByte (m : Memory) (address : Word) (byte : BitVec 8) : Except MemError Memory :=
  match m.translate address with
  | none => .error .notPresent
  | some entry =>
    let page := Entry.frame entry
    .ok (m.setPage page (setByteAt (m.ram page) (offsetOf address) byte))

def userWrite (m : Memory) (address : Word) (byte : BitVec 8) : Except MemError Memory :=
  match m.translate address with
  | none => .error .notPresent
  | some entry => do
    let m ← if Entry.writable entry then .ok m else m.doWpPage address
    m.storeByte address byte

-- A write of the kernel to a user task, such as `put_fs_byte`. The processor does not look at the entry's right
-- to write then, so `write_verify` comes first.
def kernelWrite (m : Memory) (address : Word) (byte : BitVec 8) : Except MemError Memory := do
  let m ← m.writeVerify address
  m.storeByte address byte

-- An access to a page that is missing and that `share_page` does not find elsewhere. `contents` is what
-- `do_no_page` fills the new page with.
def noPage (m : Memory) (address : Word) (contents : Contents) : Except MemError Memory :=
  match m.translate address with
  | some _ => .ok m
  | none =>
    match m.getFreePage with
    | none => .error .outOfMemory
    | some (page, m) => (m.setPage page contents).putPage page address

end Memory

def TASK_SIZE : Word := 0x4000000

abbrev UserSlot := { nr : Slot // nr ≠ 0 }

-- The base of a range in `copy_mem`.
def UserSlot.base (nr : UserSlot) : Word :=
  BitVec.ofNat 32 nr.val.val * TASK_SIZE

abbrev RangeSize := { size : Word // size ≤ TASK_SIZE }

abbrev UserAddress := { address : Word // TASK_SIZE ≤ address }

def UserAddress.key (address : UserAddress) : PageIndex × PageIndex :=
  (Memory.dirOf address.val, Memory.entryOf address.val)

theorem UserAddress.ext_key {address other : UserAddress}
    : other = address ↔ other.key = address.key ∧ offsetOf other.val = offsetOf address.val := by
  constructor
  . intro heq
    subst heq
    exact ⟨rfl, rfl⟩
  . intro ⟨hkey, hoffset⟩
    unfold UserAddress.key Memory.dirOf Memory.entryOf at hkey
    unfold offsetOf at hoffset
    simp only [Prod.mk.injEq, Fin.ext_iff, Fin.ofNat, BitVec.toNat_ushiftRight, Nat.shiftRight_eq_div_pow]
      at hkey hoffset
    have hlt := address.val.isLt
    have hlt' := other.val.isLt
    apply Subtype.ext
    apply BitVec.eq_of_toNat_eq
    omega

theorem UserAddress.le_dirOf (address : UserAddress) : 16 ≤ (Memory.dirOf address.val).val := by
  have hle := BitVec.le_def.mp address.property
  rw [show TASK_SIZE.toNat = 0x4000000 from rfl] at hle
  have hlt := address.val.isLt
  unfold Memory.dirOf
  simp only [Fin.ofNat, BitVec.toNat_ushiftRight, Nat.shiftRight_eq_div_pow]
  omega

namespace UserSlot

def block (nr : UserSlot) (j : Nat) : PageIndex :=
  ⟨(16 * nr.val.val + j) % 1024, Nat.mod_lt _ (by decide)⟩

theorem block_val (nr : UserSlot) {j : Nat} (hj : j < 16) : (nr.block j).val = 16 * nr.val.val + j := by
  have hnr := nr.val.isLt
  unfold NR_TASKS at hnr
  unfold block
  simp only
  omega

theorem le_block (nr : UserSlot) {j : Nat} (hj : j < 16) : 16 ≤ (nr.block j).val := by
  have hnr : nr.val.val ≠ 0 := fun heq => nr.property (Fin.ext heq)
  rw [nr.block_val hj]
  omega

theorem base_toNat (nr : UserSlot) : nr.base.toNat = nr.val.val * 0x4000000 := by
  have hnr := nr.val.isLt
  unfold NR_TASKS at hnr
  unfold base
  rw [BitVec.toNat_mul, BitVec.toNat_ofNat, show TASK_SIZE.toNat = 0x4000000 from rfl]
  omega

theorem base_ne_zero (nr : UserSlot) : nr.base ≠ 0 := by
  intro hzero
  have hnat := nr.base_toNat
  rw [hzero, show (0 : Word).toNat = 0 from rfl] at hnat
  have hnr : nr.val.val ≠ 0 := fun heq => nr.property (Fin.ext heq)
  omega

theorem base_aligned (nr : UserSlot) : nr.base &&& 0x3fffff = 0 := by
  apply BitVec.eq_of_toNat_eq
  rw [BitVec.toNat_and, nr.base_toNat, show (0x3fffff : Word).toNat = 2 ^ 22 - 1 from rfl,
    Nat.and_two_pow_sub_one_eq_mod]
  show _ = 0
  omega

theorem dirAt_base (nr : UserSlot) {j : Nat} (hj : j < 16)
    : Memory.dirAt ((Memory.dirOf nr.base).val + j) = .ok (nr.block j) := by
  have hnr := nr.val.isLt
  unfold NR_TASKS at hnr
  have hdir : (Memory.dirOf nr.base).val = 16 * nr.val.val := by
    unfold Memory.dirOf
    simp only [Fin.ofNat, BitVec.toNat_ushiftRight, Nat.shiftRight_eq_div_pow, nr.base_toNat]
    omega
  unfold Memory.dirAt
  rw [hdir, dif_pos (by omega)]
  congr 1
  apply Fin.ext
  rw [nr.block_val hj]

end UserSlot

theorem RangeSize.tables_le (size : RangeSize) : Memory.tables size.val ≤ 16 := by
  have hle := BitVec.le_def.mp size.property
  rw [show TASK_SIZE.toNat = 0x4000000 from rfl] at hle
  unfold Memory.tables
  rw [BitVec.toNat_ushiftRight, Nat.shiftRight_eq_div_pow, BitVec.toNat_add,
    show (0x3fffff : Word).toNat = 0x3fffff from rfl]
  omega

inductive UserAct where
  | copy (from_ to_ : UserSlot) (size : RangeSize)
  | write (address : UserAddress) (byte : BitVec 8)
  | verify (address : UserAddress)
  | kernelWrite (address : UserAddress) (byte : BitVec 8)
  | access (address : UserAddress) (contents : Contents)
  | free (nr : UserSlot) (size : RangeSize)

namespace UserAct

def step (m : Memory) : UserAct → Except MemError Memory
  | .copy from_ to_ size => m.copyPageTables from_.base to_.base size.val
  | .write address byte => m.userWrite address.val byte
  | .verify address => m.writeVerify address.val
  | .kernelWrite address byte => m.kernelWrite address.val byte
  | .access address contents => m.noPage address.val contents
  | .free nr size => m.freePageTables nr.base size.val

def pages : UserAct → Nat
  | .copy _ _ size => Memory.tables size.val
  | .write .. => 1
  | .verify _ => 1
  | .kernelWrite .. => 1
  | .access .. => 2
  | .free .. => 0

end UserAct

-- The memory after `setup_paging` and `main`. There are no page tables yet beyond those of the first 16 MB.
structure Boot where
  ram : Nat → Contents
  startMem : Nat
  endMem : Nat
  low_le : LOW_MEM.toNat ≤ startMem
  le_high : endMem ≤ 16 * 1024 * 1024
  boundary : endMem % 4096 = 0
  unmapped : ∀ d : PageIndex, 4 ≤ d.val → ram 0 d = 0

namespace Boot

def memory (b : Boot) : Memory :=
  Memory.memInit b.ram b.startMem b.endMem

def run (b : Boot) (acts : List UserAct) : Except MemError Memory :=
  acts.foldlM UserAct.step b.memory

end Boot

end OS
