import Mathlib.Data.List.GetD
import ByDoing.Lib.Run
import ByDoing.OS.Boot.Bootsect

namespace OS
namespace Build

def MINIX_HEADER : Nat := 32
def SYS_SIZE : Nat := 0x3000
def DEFAULT_MAJOR_ROOT : Nat := 3
def DEFAULT_MINOR_ROOT : Nat := 1
def SETUP_SECTS : Nat := 4

-- The size of `buf`.
def bufSize : Nat := 1024

-- The fourth argument: there is none, it is `FLOPPY`, or it is a device with its `st_rdev`, or `stat` fails.
inductive RootArg where
  | default
  | floppy
  | device (st_rdev : Nat)
  | missing

-- `major_root` and `minor_root`, which are of one byte each.
def rootDevice : RootArg → Except String (Nat × Nat)
  | .default => .ok (DEFAULT_MAJOR_ROOT, DEFAULT_MINOR_ROOT)
  | .floppy => .ok (0, 0)
  | .device st_rdev => .ok (st_rdev % 2 ^ 32 / 256 % 256, st_rdev % 256)
  | .missing => .error "Couldn't stat root device."

def dieIf (c : Prop) [Decidable c] (str : String) : Except String Unit :=
  if c then .error str else .ok ()

def openFile (name : String) : Option (List UInt8) → Except String (List UInt8)
  | some file => .ok file
  | none => .error ("Unable to open '" ++ name ++ "'")

-- `((long *) buf)[i]`
def long (buf : List UInt8) (i : Nat) : Nat :=
  (buf.getD (4 * i) 0).toNat + 256 * (buf.getD (4 * i + 1) 0).toNat + 65536 * (buf.getD (4 * i + 2) 0).toNat
    + 16777216 * (buf.getD (4 * i + 3) 0).toNat

-- The tests of the headers of the boot sector and of `setup` are the same.
def readHeader (name : String) (file : List UInt8) : Except String (List UInt8) := do
  let buf := file.take MINIX_HEADER
  dieIf (buf.length ≠ MINIX_HEADER) ("Unable to read header of '" ++ name ++ "'")
  dieIf (long buf 0 ≠ 0x04100301) ("Non-Minix header of '" ++ name ++ "'")
  dieIf (long buf 1 ≠ MINIX_HEADER) ("Non-Minix header of '" ++ name ++ "'")
  dieIf (long buf 3 ≠ 0) ("Illegal data segment in '" ++ name ++ "'")
  dieIf (long buf 4 ≠ 0) ("Illegal bss in '" ++ name ++ "'")
  dieIf (long buf 5 ≠ 0) ("Non-Minix header of '" ++ name ++ "'")
  dieIf (long buf 7 ≠ 0) ("Illegal symbol table in '" ++ name ++ "'")
  return file.drop MINIX_HEADER

def bootSector (root : Nat × Nat) (file : List UInt8) : Except String (List UInt8) := do
  let buf := file.take bufSize
  dieIf (buf.length ≠ 512) "Boot block must be exactly 512 bytes"
  dieIf ((buf.getD 510 0).toNat + 256 * (buf.getD 511 0).toNat ≠ 0xAA55) "Boot block hasn't got boot flag (0xAA55)"
  return (buf.set 508 (UInt8.ofNat root.2)).set 509 (UInt8.ofNat root.1)

-- The loop that writes a file to the image. `i` counts the bytes.
def copyFile (image : List UInt8) (i : Nat) (file : List UInt8) : List UInt8 × Nat :=
  if file = [] then
    (image, i)
  else
    copyFile (image ++ file.take bufSize) (i + (file.take bufSize).length) (file.drop bufSize)
termination_by file.length
decreasing_by
  rename_i hne
  have := List.length_pos_iff.mpr hne
  rw [List.length_drop]
  unfold bufSize
  omega

-- The loop that fills up the sectors of `setup`.
def pad (image : List UInt8) (i : Nat) : List UInt8 :=
  if i < SETUP_SECTS * 512 then
    let c := min (SETUP_SECTS * 512 - i) bufSize
    pad (image ++ List.replicate c 0) (i + c)
  else
    image
termination_by SETUP_SECTS * 512 - i
decreasing_by
  unfold bufSize
  omega

def main (arg : RootArg) (boot setup system : Option (List UInt8)) : Except String (List UInt8) := do
  let root ← rootDevice arg
  dieIf (root.1 ≠ 2 ∧ root.1 ≠ 3 ∧ root.1 ≠ 0) "Bad root device --- major #"
  let file ← openFile "boot" boot
  let file ← readHeader "boot" file
  let image ← bootSector root file
  let file ← openFile "setup" setup
  let file ← readHeader "setup" file
  let (image, i) := copyFile image 0 file
  dieIf (i > SETUP_SECTS * 512) "Setup exceeds 4 sectors - rewrite build/boot/setup"
  let image := pad image i
  let file ← openFile "system" system
  let (image, i) := copyFile image 0 file
  dieIf (i > SYS_SIZE * 16) "System is too big"
  return image

theorem copyFile_eq (image : List UInt8) (i : Nat) (file : List UInt8)
    : copyFile image i file = (image ++ file, i + file.length) := by
  fun_induction copyFile image i file with
  | case1 image i => simp
  | case2 image i file hne ih =>
    rw [ih, List.append_assoc, List.take_append_drop, Nat.add_assoc, ← List.length_append, List.take_append_drop]

theorem pad_eq (image : List UInt8) (i : Nat) : pad image i = image ++ List.replicate (2048 - i) 0 := by
  fun_induction pad image i with
  | case1 image i hlt c ih =>
    rw [ih, List.append_assoc, List.replicate_append_replicate]
    unfold SETUP_SECTS at hlt
    unfold c SETUP_SECTS bufSize
    congr 2
    omega
  | case2 image i hge =>
    unfold SETUP_SECTS at hge
    rw [Nat.sub_eq_zero_of_le (by omega), List.replicate_zero, List.append_nil]

variable {arg : RootArg} {name : String} {file buf image boot setup system : List UInt8} {root : Nat × Nat}

theorem dieIf_eq_ok_iff {c : Prop} [Decidable c] {str : String} {u : Unit} : dieIf c str = .ok u ↔ ¬ c := by
  unfold dieIf
  split
  . next hc => simp [hc]
  . next hc => simp [hc]

def HasHeader (file : List UInt8) : Prop :=
  32 ≤ file.length ∧ long file 0 = 0x04100301 ∧ long file 1 = 32 ∧ long file 3 = 0 ∧ long file 4 = 0
    ∧ long file 5 = 0 ∧ long file 7 = 0

instance (file : List UInt8) : Decidable (HasHeader file) :=
  inferInstanceAs (Decidable (_ ∧ _ ∧ _ ∧ _ ∧ _ ∧ _ ∧ _))

theorem readHeader_eq_ok_iff : readHeader name file = .ok buf ↔ HasHeader file ∧ file.drop 32 = buf := by
  have hlong : ∀ i < 8, long (file.take 32) i = long file i := by
    intro i hi
    unfold long
    simp only [List.getD_eq_getElem?_getD]
    rw [List.getElem?_take_of_lt (by omega), List.getElem?_take_of_lt (by omega), List.getElem?_take_of_lt (by omega),
      List.getElem?_take_of_lt (by omega)]
  have hlength : (file.take 32).length = 32 ↔ 32 ≤ file.length := by
    rw [List.length_take]
    omega
  unfold readHeader MINIX_HEADER HasHeader
  simp only [Run.bind_eq_ok_iff, dieIf_eq_ok_iff, exists_const, ne_eq, Decidable.not_not, hlength, hlong 0 (by omega), hlong 1 (by omega),
    hlong 3 (by omega), hlong 4 (by omega), hlong 5 (by omega), hlong 7 (by omega)]
  simp only [pure, Except.pure, Except.ok.injEq, and_assoc]

def sector (root : Nat × Nat) (code : List UInt8) : List UInt8 :=
  (code.set 508 (UInt8.ofNat root.2)).set 509 (UInt8.ofNat root.1)

theorem bootSector_eq_ok_iff
    : bootSector root file = .ok buf ↔
        file.length = 512 ∧ (file.getD 510 0).toNat + 256 * (file.getD 511 0).toNat = 0xAA55
          ∧ sector root file = buf := by
  unfold bootSector bufSize sector
  simp only [Run.bind_eq_ok_iff, dieIf_eq_ok_iff, exists_const, ne_eq, Decidable.not_not]
  simp only [pure, Except.pure, Except.ok.injEq]
  by_cases hlength : file.length = 512
  . have htake : file.take 1024 = file := List.take_of_length_le (by omega)
    rw [htake]
  . have htake : (file.take 1024).length ≠ 512 := by
      rw [List.length_take]
      omega
    simp only [hlength, htake, false_and]

theorem main_eq_ok_iff
    : main arg (some boot) (some setup) (some system) = .ok image ↔
        ∃ root, rootDevice arg = .ok root ∧ (root.1 = 2 ∨ root.1 = 3 ∨ root.1 = 0) ∧ HasHeader boot
          ∧ boot.length = 544 ∧ (boot.getD 542 0).toNat + 256 * (boot.getD 543 0).toNat = 0xAA55
          ∧ HasHeader setup ∧ setup.length ≤ 2080 ∧ system.length ≤ 0x30000
          ∧ image = sector root (boot.drop 32) ++ setup.drop 32 ++ List.replicate (2080 - setup.length) 0 ++ system := by
  have hflag : ∀ i, (boot.drop 32).getD i 0 = boot.getD (32 + i) 0 := by
    intro i
    simp only [List.getD_eq_getElem?_getD, List.getElem?_drop]
  unfold main SETUP_SECTS SYS_SIZE
  simp only [Run.bind_eq_ok_iff, dieIf_eq_ok_iff, exists_const, openFile, readHeader_eq_ok_iff, bootSector_eq_ok_iff,
    copyFile_eq, pad_eq, Except.ok.injEq, exists_eq_left', pure, Except.pure, Nat.zero_add]
  constructor
  . rintro ⟨root, hroot, hmajor, _, ⟨hboot, rfl⟩, _, ⟨hlength, hword, rfl⟩, _, ⟨hsetup, rfl⟩, hfits, hsmall, rfl⟩
    have hlong := hsetup.left
    rw [List.length_drop] at *
    rw [hflag, hflag] at hword
    refine ⟨root, hroot, by omega, hboot, by omega, hword, hsetup, by omega, by omega, ?_⟩
    rw [show 2048 - (setup.length - 32) = 2080 - setup.length by omega]
  . rintro ⟨root, hroot, hmajor, hboot, hlength, hword, hsetup, hfits, hsmall, rfl⟩
    have hlong := hsetup.left
    have hcode : (boot.drop 32).length = boot.length - 32 := List.length_drop
    refine ⟨root, hroot, by omega, _, ⟨hboot, rfl⟩, _, ⟨by omega, ?_, rfl⟩, _, ⟨hsetup, rfl⟩, ?_, by omega, ?_⟩
    . rw [hflag, hflag]
      exact hword
    . rw [List.length_drop]
      omega
    . rw [List.length_drop, show 2048 - (setup.length - 32) = 2080 - setup.length by omega]

structure IsImage (root : Nat × Nat) (boot setup system image : List UInt8) : Prop where
  length : image.length = 2560 + system.length
  code : ∀ i < 508, image.getD i 0 = boot.getD (32 + i) 0
  minor : image.getD 508 0 = UInt8.ofNat root.2
  major : image.getD 509 0 = UInt8.ofNat root.1
  setup : ∀ i < 2048, image.getD (512 + i) 0 = setup.getD (32 + i) 0
  system : ∀ i, image.getD (2560 + i) 0 = system.getD i 0

theorem getD_drop (l : List UInt8) (n i : Nat) : (l.drop n).getD i 0 = l.getD (n + i) 0 := by
  rw [List.getD_eq_getElem?_getD, List.getD_eq_getElem?_getD, List.getElem?_drop]

theorem getD_append_zeros (l : List UInt8) (n i : Nat) : (l ++ List.replicate n 0).getD i 0 = l.getD i 0 := by
  by_cases hi : i < l.length
  . exact List.getD_append _ _ _ _ hi
  . rw [List.getD_append_right _ _ _ _ (by omega), List.getD_eq_default l _ (by omega), List.getD_eq_getElem?_getD,
      List.getElem?_getD_replicate_default_eq]

theorem getD_sector_of_lt {code : List UInt8} {i : Nat} (hi : i < 508) : (sector root code).getD i 0 = code.getD i 0 := by
  unfold sector
  simp only [List.getD_eq_getElem?_getD]
  rw [List.getElem?_set_ne (by omega), List.getElem?_set_ne (by omega)]

theorem isImage_append (hboot : boot.length = 544) (hlong : 32 ≤ setup.length) (hsetup : setup.length ≤ 2080)
    : IsImage root boot setup system
        (sector root (boot.drop 32) ++ setup.drop 32 ++ List.replicate (2080 - setup.length) 0 ++ system) := by
  have hsector : (sector root (boot.drop 32)).length = 512 := by
    unfold sector
    rw [List.length_set, List.length_set, List.length_drop]
    omega
  have hpadded : (setup.drop 32 ++ List.replicate (2080 - setup.length) 0).length = 2048 := by
    rw [List.length_append, List.length_drop, List.length_replicate]
    omega
  have hsecond : (boot.drop 32).length = 512 := by
    rw [List.length_drop]
    omega
  rw [List.append_assoc (sector _ _), List.append_assoc]
  constructor
  . rw [List.length_append, List.length_append]
    omega
  . intro i hi
    rw [List.getD_append _ _ _ _ (by omega), getD_sector_of_lt hi, getD_drop]
  . rw [List.getD_append _ _ _ _ (by omega)]
    unfold sector
    rw [List.getD_eq_getElem?_getD, List.getElem?_set_ne (by omega), List.getElem?_set_self (by omega)]
    rfl
  . rw [List.getD_append _ _ _ _ (by omega)]
    unfold sector
    rw [List.getD_eq_getElem?_getD, List.getElem?_set_self (by rw [List.length_set]; omega)]
    rfl
  . intro i hi
    rw [List.getD_append_right _ _ _ _ (by omega), hsector, Nat.add_sub_cancel_left,
      List.getD_append _ _ _ _ (by omega), getD_append_zeros, getD_drop]
  . intro i
    rw [List.getD_append_right _ _ _ _ (by omega), List.getD_append_right _ _ _ _ (by omega)]
    congr 1
    omega

theorem main_isImage (h : main arg (some boot) (some setup) (some system) = .ok image)
    : ∃ root, rootDevice arg = .ok root ∧ system.length ≤ 0x30000 ∧ IsImage root boot setup system image := by
  obtain ⟨root, hroot, _, _, hlength, _, hheader, hfits, hsmall, rfl⟩ := main_eq_ok_iff.mp h
  exact ⟨root, hroot, hsmall, isImage_append hlength hheader.left hfits⟩

end Build
end OS
