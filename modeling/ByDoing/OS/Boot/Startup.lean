import Mathlib.Order.Interval.Finset.Nat
import ByDoing.OS.MemMap
import ByDoing.OS.Paging

/-!
This module contains the memory that the kernel starts with: `setup_paging` of `head.s` writes the page directory and
four page tables over its own code, and `main` divides the rest among the buffers, the ramdisk and the tasks. The words
of the memory are numbered one page after the other.
-/

namespace OS
namespace Startup

def indexOf (a : Nat) : PageIndex :=
  ⟨a % 1024, by omega⟩

def wordAt (ram : Nat → Contents) (a : Nat) : Word :=
  ram (a / 1024) (indexOf a)

-- The store of `eax` at the address in `edi`, which is a multiple of 4.
def stosl (ram : Nat → Contents) (edi : Nat) (eax : Word) : Nat → Contents :=
  let a := edi / 4
  Function.update ram (a / 1024) (Function.update (ram (a / 1024)) (indexOf a) eax)

def pgDir : Nat := 0
def pg0 : Nat := 0x1000
def pg1 : Nat := 0x2000
def pg2 : Nat := 0x3000
def pg3 : Nat := 0x4000

-- `cld;rep;stosl`
def clear : Nat → (Nat → Contents) → Nat → (Nat → Contents)
  | 0, ram, _ => ram
  | ecx + 1, ram, edi => clear ecx (stosl ram edi 0) (edi + 4)

-- `std`, and the loop that fills the page tables backwards.
def fill (ram : Nat → Contents) (edi : Nat) (eax : Int) : Nat → Contents :=
  let ram := stosl ram edi (BitVec.ofInt 32 eax)
  if 0 ≤ eax - 0x1000 then fill ram (edi - 4) (eax - 0x1000) else ram
termination_by eax.toNat
decreasing_by omega

def setupPaging (ram : Nat → Contents) : Nat → Contents :=
  let ram := clear (1024 * 5) ram 0
  let ram := stosl ram pgDir (BitVec.ofNat 32 (pg0 + 7))
  let ram := stosl ram (pgDir + 4) (BitVec.ofNat 32 (pg1 + 7))
  let ram := stosl ram (pgDir + 8) (BitVec.ofNat 32 (pg2 + 7))
  let ram := stosl ram (pgDir + 12) (BitVec.ofNat 32 (pg3 + 7))
  fill ram (pg3 + 4092) 0xfff007

-- The variables of `main` for the size of the memory above 1 MB in kB.
def memoryEnd (extMemK : BitVec 16) : Nat :=
  min (((1 <<< 20) + (extMemK.toNat <<< 10)) / 4096 * 4096) (16 * 1024 * 1024)

def bufferMemoryEnd (extMemK : BitVec 16) : Nat :=
  if memoryEnd extMemK > 12 * 1024 * 1024 then
    4 * 1024 * 1024
  else if memoryEnd extMemK > 6 * 1024 * 1024 then
    2 * 1024 * 1024
  else
    1 * 1024 * 1024

def byteOf (a : Nat) : Fin 4096 :=
  ⟨a % 4096, by omega⟩

def loadByte (ram : Nat → Contents) (a : Nat) : BitVec 8 :=
  byteAt (ram (a / 4096)) (byteOf a)

def storeByte (ram : Nat → Contents) (a : Nat) (byte : BitVec 8) : Nat → Contents :=
  Function.update ram (a / 4096) (setByteAt (ram (a / 4096)) (byteOf a) byte)

-- The loop of `rd_init`.
def zeroBytes : Nat → (Nat → Contents) → Nat → (Nat → Contents)
  | 0, ram, _ => ram
  | length + 1, ram, cp => zeroBytes length (storeByte ram cp 0) (cp + 1)

-- What `rd_init` leaves of the memory, and what it returns.
def rdInit (ram : Nat → Contents) (mem_start length : Nat) : (Nat → Contents) × Nat :=
  (zeroBytes length ram mem_start, length)

-- `ramdisk` is the constant `RAMDISK`, or 0 if it is not defined.
def mainMemoryStart (ram : Nat → Contents) (extMemK : BitVec 16) (ramdisk : Nat) : Nat :=
  bufferMemoryEnd extMemK + (rdInit ram (bufferMemoryEnd extMemK) (ramdisk * 1024)).snd

section Stores

variable {ram : Nat → Contents} {n : Nat}

theorem wordAt_stosl (ram : Nat → Contents) {edi a : Nat} (h : edi = 4 * a) (eax : Word) (b : Nat)
    : wordAt (stosl ram edi eax) b = if b = a then eax else wordAt ram b := by
  subst h
  unfold wordAt stosl
  rw [Nat.mul_div_cancel_left _ (by omega)]
  by_cases hframe : b / 1024 = a / 1024
  . rw [hframe, Function.update_self]
    by_cases hb : b = a
    . rw [hb, Function.update_self, if_pos rfl]
    . rw [if_neg hb, Function.update_of_ne]
      intro heq
      have hmod : b % 1024 = a % 1024 := congrArg Fin.val heq
      omega
  . rw [Function.update_of_ne hframe, if_neg]
    intro hb
    exact hframe (hb ▸ rfl)

theorem wordAt_clear (ecx : Nat) (ram : Nat → Contents) (a b : Nat)
    : wordAt (clear ecx ram (4 * a)) b = if a ≤ b ∧ b < a + ecx then 0 else wordAt ram b := by
  induction ecx generalizing ram a with
  | zero => rw [clear, if_neg (by omega)]
  | succ ecx ih =>
    rw [clear, show 4 * a + 4 = 4 * (a + 1) by omega, ih, wordAt_stosl ram rfl]
    by_cases hb : b = a
    . rw [if_neg (by omega), if_pos hb, if_pos (by omega)]
    . by_cases hrange : a ≤ b ∧ b < a + (ecx + 1)
      . rw [if_pos (by omega), if_pos hrange]
      . rw [if_neg (by omega), if_neg hb, if_neg hrange]

theorem toNat_make {f : Nat} (h : f < 2 ^ 20) : (Entry.make f).toNat = 0x1000 * f + 7 := by
  unfold Entry.make
  rw [BitVec.toNat_or, BitVec.toNat_shiftLeft, BitVec.toNat_ofNat, Nat.mod_eq_of_lt (by omega : f < 2 ^ 32),
    Nat.shiftLeft_eq, Nat.mod_eq_of_lt (by omega : f * 2 ^ 12 < 2 ^ 32), show (7 : Word).toNat = 7 from rfl,
    ← Nat.shiftLeft_eq, ← Nat.shiftLeft_add_eq_or_of_lt (by decide : 7 < 2 ^ 12), Nat.shiftLeft_eq]
  omega

theorem ofInt_eq_make {k : Nat} (h : k < 2 ^ 20) : BitVec.ofInt 32 (0x1000 * k + 7) = Entry.make k := by
  apply BitVec.eq_of_toNat_eq
  rw [toNat_make h, BitVec.toNat_ofInt]
  omega

theorem wordAt_fill (ram : Nat → Contents) {k : Nat} (hk : k < 2 ^ 20) (b : Nat)
    : wordAt (fill ram (4 * (1024 + k)) (0x1000 * k + 7)) b
        = if 1024 ≤ b ∧ b ≤ 1024 + k then Entry.make (b - 1024) else wordAt ram b := by
  induction k generalizing ram with
  | zero =>
    unfold fill
    dsimp only
    rw [if_neg (by omega), wordAt_stosl ram rfl, ofInt_eq_make hk]
    by_cases hb : b = 1024
    . rw [if_pos hb, if_pos (by omega), hb]
    . rw [if_neg hb, if_neg (by omega)]
  | succ k ih =>
    unfold fill
    dsimp only
    rw [if_pos (by omega), show 4 * (1024 + (k + 1)) - 4 = 4 * (1024 + k) by omega,
      show 0x1000 * ((k + 1 : Nat) : Int) + 7 - 0x1000 = 0x1000 * k + 7 by omega, ih _ (by omega),
      wordAt_stosl ram rfl, ofInt_eq_make hk]
    by_cases hb : b = 1024 + (k + 1)
    . rw [if_neg (by omega), if_pos hb, if_pos (by omega), hb, Nat.add_sub_cancel_left]
    . rw [if_neg hb]
      by_cases hrange : 1024 ≤ b ∧ b ≤ 1024 + k
      . rw [if_pos hrange, if_pos (by omega)]
      . rw [if_neg hrange, if_neg (by omega)]

theorem ofNat_eq_make {d : Nat} (h : d < 2 ^ 20) : BitVec.ofNat 32 (0x1000 * d + 7) = Entry.make d := by
  apply BitVec.eq_of_toNat_eq
  rw [toNat_make h, BitVec.toNat_ofNat]
  omega

theorem wordAt_setupPaging (ram : Nat → Contents) (b : Nat)
    : wordAt (setupPaging ram) b
        = if b < 4 then Entry.make (b + 1) else if b < 1024 then 0 else if b < 5120 then Entry.make (b - 1024)
          else wordAt ram b := by
  have hfill : ∀ ram : Nat → Contents, wordAt (fill ram (pg3 + 4092) 0xfff007) b
      = if 1024 ≤ b ∧ b ≤ 1024 + 4095 then Entry.make (b - 1024) else wordAt ram b :=
    fun ram => wordAt_fill ram (k := 4095) (by omega) b
  unfold setupPaging
  dsimp only
  rw [hfill]
  by_cases htables : 1024 ≤ b ∧ b ≤ 1024 + 4095
  . rw [if_pos htables, if_neg (by omega), if_neg (by omega), if_pos (by omega)]
  . have hclear := wordAt_clear (1024 * 5) ram 0 b
    rw [if_neg htables, wordAt_stosl _ (show pgDir + 12 = 4 * 3 from rfl),
      wordAt_stosl _ (show pgDir + 8 = 4 * 2 from rfl), wordAt_stosl _ (show pgDir + 4 = 4 * 1 from rfl),
      wordAt_stosl _ (show pgDir = 4 * 0 from rfl)]
    by_cases hdir : b < 4
    . rw [if_pos hdir]
      rcases (by omega : b = 0 ∨ b = 1 ∨ b = 2 ∨ b = 3) with rfl | rfl | rfl | rfl
      . exact ofNat_eq_make (d := 1) (by omega)
      . exact ofNat_eq_make (d := 2) (by omega)
      . exact ofNat_eq_make (d := 3) (by omega)
      . exact ofNat_eq_make (d := 4) (by omega)
    . rw [if_neg hdir, if_neg (by omega), if_neg (by omega), if_neg (by omega), if_neg (by omega), hclear]
      by_cases hrest : b < 1024
      . rw [if_pos hrest, if_pos (by omega)]
      . rw [if_neg hrest, if_neg (by omega), if_neg (by omega)]

end Stores

section Tables

variable (ram : Nat → Contents)

theorem wordAt_page (f : Nat) (i : PageIndex) : wordAt ram (1024 * f + i.val) = ram f i := by
  have hi := i.isLt
  unfold wordAt
  rw [show (1024 * f + i.val) / 1024 = f by omega]
  congr 1
  apply Fin.ext
  change (1024 * f + i.val) % 1024 = i.val
  omega

theorem setupPaging_pgDir (d : PageIndex) (h : d.val < 4) : setupPaging ram 0 d = Entry.make (d.val + 1) := by
  rw [← wordAt_page (setupPaging ram), wordAt_setupPaging, if_pos (by omega), Nat.mul_zero, Nat.zero_add]

theorem setupPaging_unmapped (d : PageIndex) (h : 4 ≤ d.val) : setupPaging ram 0 d = 0 := by
  have hd := d.isLt
  rw [← wordAt_page (setupPaging ram), wordAt_setupPaging, if_neg (by omega), if_pos (by omega)]

theorem setupPaging_identity (d i : PageIndex) (h : d.val < 4)
    : setupPaging ram (d.val + 1) i = Entry.make (1024 * d.val + i.val) := by
  have hi := i.isLt
  rw [← wordAt_page (setupPaging ram), wordAt_setupPaging, if_neg (by omega), if_neg (by omega), if_pos (by omega)]
  exact congrArg Entry.make (by omega)

theorem setupPaging_of_le {f : Nat} (h : 5 ≤ f) : setupPaging ram f = ram f := by
  funext i
  rw [← wordAt_page (setupPaging ram), wordAt_setupPaging, if_neg (by omega), if_neg (by omega), if_neg (by omega), wordAt_page]

end Tables

section Ramdisk

variable (ram : Nat → Contents)

theorem loadByte_storeByte (a b : Nat) (byte : BitVec 8)
    : loadByte (storeByte ram a byte) b = if b = a then byte else loadByte ram b := by
  unfold loadByte storeByte
  by_cases hframe : b / 4096 = a / 4096
  . rw [hframe, Function.update_self, byteAt_setByteAt]
    have hplace : byteOf b = byteOf a ↔ b = a := by
      unfold byteOf
      rw [Fin.mk.injEq]
      omega
    simp only [hplace]
  . rw [Function.update_of_ne hframe, if_neg]
    intro hb
    exact hframe (hb ▸ rfl)

theorem loadByte_zeroBytes (length cp a : Nat)
    : loadByte (zeroBytes length ram cp) a = if cp ≤ a ∧ a < cp + length then 0 else loadByte ram a := by
  induction length generalizing ram cp with
  | zero => rw [zeroBytes, if_neg (by omega)]
  | succ length ih =>
    rw [zeroBytes, ih, loadByte_storeByte]
    by_cases ha : a = cp
    . rw [if_neg (by omega), if_pos ha, if_pos (by omega)]
    . by_cases hrange : cp ≤ a ∧ a < cp + (length + 1)
      . rw [if_pos (by omega), if_pos hrange]
      . rw [if_neg (by omega), if_neg ha, if_neg hrange]

theorem zeroBytes_of_lt {length cp f : Nat} (h : f < cp / 4096) : zeroBytes length ram cp f = ram f := by
  induction length generalizing ram cp with
  | zero => rfl
  | succ length ih =>
    rw [zeroBytes, ih _ (by omega)]
    exact Function.update_of_ne (by omega) _ _

end Ramdisk

section Sizes

variable (ram : Nat → Contents) (extMemK : BitVec 16) (ramdisk : Nat)

theorem memoryEnd_le : memoryEnd extMemK ≤ 16 * 1024 * 1024 :=
  Nat.min_le_right _ _

theorem memoryEnd_mod : memoryEnd extMemK % 4096 = 0 := by
  unfold memoryEnd
  omega

theorem le_bufferMemoryEnd : 1024 * 1024 ≤ bufferMemoryEnd extMemK := by
  unfold bufferMemoryEnd
  split
  . omega
  . split
    . omega
    . omega

theorem bufferMemoryEnd_mod : bufferMemoryEnd extMemK % 4096 = 0 := by
  unfold bufferMemoryEnd
  split
  . rfl
  . split
    . rfl
    . rfl

theorem mainMemoryStart_eq
    : mainMemoryStart ram extMemK ramdisk = bufferMemoryEnd extMemK + ramdisk * 1024 :=
  rfl

theorem low_le : LOW_MEM.toNat ≤ mainMemoryStart ram extMemK ramdisk :=
  Nat.le_trans (le_bufferMemoryEnd extMemK) (Nat.le_add_right _ _)

end Sizes

-- What `main` makes of the memory.
def divided (ram : Nat → Contents) (extMemK : BitVec 16) (ramdisk : Nat) : Nat → Contents :=
  (rdInit ram (bufferMemoryEnd extMemK) (ramdisk * 1024)).fst

theorem divided_of_lt (ram : Nat → Contents) (extMemK : BitVec 16) (ramdisk : Nat) {f : Nat} (h : f < 5)
    : divided ram extMemK ramdisk f = ram f := by
  have hle := le_bufferMemoryEnd extMemK
  exact zeroBytes_of_lt ram (by omega)

-- The memory when `main` has called `mem_init`.
def kernelBoot (ram : Nat → Contents) (extMemK : BitVec 16) (ramdisk : Nat) : KernelBoot where
  ram := divided (setupPaging ram) extMemK ramdisk
  startMem := mainMemoryStart (setupPaging ram) extMemK ramdisk
  endMem := memoryEnd extMemK
  low_le := low_le (setupPaging ram) extMemK ramdisk
  le_high := memoryEnd_le extMemK
  boundary := memoryEnd_mod extMemK
  unmapped d h := (congrFun (divided_of_lt _ extMemK ramdisk (by omega)) d).trans (setupPaging_unmapped ram d h)
  pgDir d h := (congrFun (divided_of_lt _ extMemK ramdisk (by omega)) d).trans (setupPaging_pgDir ram d h)
  identity d i h :=
    (congrFun (divided_of_lt _ extMemK ramdisk (by omega)) i).trans (setupPaging_identity ram d i h)

theorem dirOf_val (address : Word) : (Memory.dirOf address).val = address.toNat / 0x400000 := by
  have hlt := address.isLt
  unfold Memory.dirOf
  rw [BitVec.toNat_ushiftRight, Nat.shiftRight_eq_div_pow]
  exact Nat.mod_eq_of_lt (by omega)

theorem entryOf_val (address : Word) : (Memory.entryOf address).val = address.toNat / 4096 % 1024 := by
  unfold Memory.entryOf
  rw [BitVec.toNat_ushiftRight, Nat.shiftRight_eq_div_pow]
  rfl

section Kernel

variable (ram : Nat → Contents) (extMemK : BitVec 16) (ramdisk : Nat)

theorem translate_of_lt {address : Word} (h : address.toNat < 0x1000000)
    : (kernelBoot ram extMemK ramdisk).toBoot.memory.translate address
        = some (Entry.make (address.toNat / 4096)) := by
  have hdir := dirOf_val address
  have hentry := entryOf_val address
  have hlt : (Memory.dirOf address).val < 4 := by omega
  have hpd : (kernelBoot ram extMemK ramdisk).toBoot.memory.dir (Memory.dirOf address)
      = Entry.make ((Memory.dirOf address).val + 1) :=
    (kernelBoot ram extMemK ramdisk).pgDir _ hlt
  have htable : (kernelBoot ram extMemK ramdisk).toBoot.memory.table (Memory.dirOf address)
      = (Memory.dirOf address).val + 1 := by
    unfold Memory.table
    rw [hpd, Entry.frame_make (by omega)]
  have hword : (kernelBoot ram extMemK ramdisk).toBoot.memory.ram ((Memory.dirOf address).val + 1)
      (Memory.entryOf address) = Entry.make (address.toNat / 4096) := by
    rw [show address.toNat / 4096 = 1024 * (Memory.dirOf address).val + (Memory.entryOf address).val by omega]
    exact (kernelBoot ram extMemK ramdisk).identity _ _ hlt
  unfold Memory.translate
  rw [hpd, Entry.present_make, if_pos rfl, htable]
  dsimp only
  rw [hword, Entry.present_make, if_pos rfl]

theorem translate_of_le {address : Word} (h : 0x1000000 ≤ address.toNat)
    : (kernelBoot ram extMemK ramdisk).toBoot.memory.translate address = none := by
  have hdir := dirOf_val address
  have hpd : (kernelBoot ram extMemK ramdisk).toBoot.memory.dir (Memory.dirOf address) = 0 :=
    (kernelBoot ram extMemK ramdisk).unmapped _ (by omega)
  unfold Memory.translate
  rw [hpd, Entry.present_zero]
  rfl

theorem memMap_kernelBoot (nr : Nat)
    : (kernelBoot ram extMemK ramdisk).toBoot.memory.memMap nr = 0
        ↔ (bufferMemoryEnd extMemK + ramdisk * 1024 - 0x100000) / 4096 ≤ nr
          ∧ nr < (bufferMemoryEnd extMemK + ramdisk * 1024 - 0x100000) / 4096
            + (memoryEnd extMemK - (bufferMemoryEnd extMemK + ramdisk * 1024)) / 4096 := by
  rw [← mainMemoryStart_eq (setupPaging ram)]
  have hmap : (kernelBoot ram extMemK ramdisk).toBoot.memory.memMap nr
      = if (mainMemoryStart (setupPaging ram) extMemK ramdisk - 0x100000) / 4096 ≤ nr
          ∧ nr < (mainMemoryStart (setupPaging ram) extMemK ramdisk - 0x100000) / 4096
            + (memoryEnd extMemK - mainMemoryStart (setupPaging ram) extMemK ramdisk) / 4096
        then 0 else USED := rfl
  rw [hmap]
  split
  . next hin => exact ⟨fun _ => hin, fun _ => rfl⟩
  . next hout => exact ⟨fun hzero => absurd hzero (by decide), fun hin => absurd hin hout⟩

-- The memory `m` that the page management starts from, made of `ram`: the pages lie at 1 MB and above.
structure Divided (ram : Nat → Contents) (extMemK : BitVec 16) (ramdisk : Nat) (m : Memory) : Prop where
  identity : ∀ address : Word, address.toNat < 0x1000000 → m.translate address = some (Entry.make (address.toNat / 4096))
  unmapped : ∀ address : Word, 0x1000000 ≤ address.toNat → m.translate address = none
  -- Behind the page tables nothing but the ramdisk has changed, and that is zero.
  kept : ∀ a ≥ 0x5000, loadByte m.ram a =
    if bufferMemoryEnd extMemK ≤ a ∧ a < mainMemoryStart ram extMemK ramdisk then 0 else loadByte ram a
  -- With a ramdisk of whole pages all that is behind it is free.
  free : 4 ∣ ramdisk → ∀ nr, m.memMap nr = 0 ↔
    mainMemoryStart ram extMemK ramdisk ≤ 0x100000 + 4096 * nr
      ∧ 0x100000 + 4096 * (nr + 1) ≤ memoryEnd extMemK
  -- With another one the page in which it ends is free too, and the last one of the memory is not.
  torn : ¬4 ∣ ramdisk → ∀ nr, m.memMap nr = 0 ↔
    mainMemoryStart ram extMemK ramdisk < 0x100000 + 4096 * (nr + 1)
      ∧ 0x100000 + 4096 * (nr + 2) ≤ memoryEnd extMemK

/--
The state that the page management starts from is the one that `head.s` and `main` make of any contents of the memory,
if the ramdisk fits into it.
-/
theorem kernelBoot_identity (hfits : mainMemoryStart ram extMemK ramdisk ≤ memoryEnd extMemK)
    : Divided ram extMemK ramdisk (kernelBoot ram extMemK ramdisk).toBoot.memory where
  identity _ h := translate_of_lt ram extMemK ramdisk h
  unmapped _ h := translate_of_le ram extMemK ramdisk h
  kept a ha := by
    have hkept : loadByte (setupPaging ram) a = loadByte ram a := by
      unfold loadByte
      rw [setupPaging_of_le ram (by omega)]
    have hclear := loadByte_zeroBytes (setupPaging ram) (ramdisk * 1024) (bufferMemoryEnd extMemK) a
    rw [hkept] at hclear
    exact hclear
  free hdvd nr := by
    have hlow := le_bufferMemoryEnd extMemK
    have hmod := bufferMemoryEnd_mod extMemK
    have hend := memoryEnd_mod extMemK
    rw [memMap_kernelBoot, mainMemoryStart_eq]
    rw [mainMemoryStart_eq] at hfits
    omega
  torn hdvd nr := by
    have hlow := le_bufferMemoryEnd extMemK
    have hmod := bufferMemoryEnd_mod extMemK
    have hend := memoryEnd_mod extMemK
    rw [memMap_kernelBoot, mainMemoryStart_eq]
    rw [mainMemoryStart_eq] at hfits
    omega

-- A machine with 16 MB and a ramdisk that is no whole number of pages.
theorem kernelBoot_identity_ramdisk
    : Divided (fun _ _ => 0xffffffff) 15360 2050 (kernelBoot (fun _ _ => 0xffffffff) 15360 2050).toBoot.memory :=
  kernelBoot_identity _ _ _ (by decide)

end Kernel

end Startup
end OS
