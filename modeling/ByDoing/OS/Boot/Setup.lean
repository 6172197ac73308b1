import ByDoing.OS.Boot.Build

namespace OS
namespace Setup

open Blit Bootsect

structure Bios where
  cursor : BitVec 16
  extMem : BitVec 16
  videoBx : BitVec 16
  videoAx : BitVec 16
  egaAx : BitVec 16
  egaBx : BitVec 16
  egaCx : BitVec 16
  -- The carry flag and `ah` of the test for the second disk.
  disk1 : Bool × BitVec 8

-- `rep movsb`, with offsets of 16 bits.
def repMovsb (ds es : Nat) : Nat → PhysMem → Nat → Nat → PhysMem
  | 0, mem, _, _ => mem
  | cx + 1, mem, si, di =>
    repMovsb ds es cx (blit mem (linear es di) 1 (window mem (linear ds si))) ((si + 1) % 65536) ((di + 1) % 65536)

def tableByte (mem : PhysMem) (vector i : Nat) : Nat :=
  linear (word mem (4 * vector + 2)) ((word mem (4 * vector) + i) % 65536)

def diskTable (vector dest : Nat) (mem : PhysMem) : PhysMem :=
  repMovsb (word mem (4 * vector + 2)) INITSEG 0x10 mem (word mem (4 * vector)) dest

def words (bios : Bios) (mem : PhysMem) : PhysMem :=
  let mem := setWord mem (linear INITSEG 0) bios.cursor.toNat
  let mem := setWord mem (linear INITSEG 2) bios.extMem.toNat
  let mem := setWord mem (linear INITSEG 4) bios.videoBx.toNat
  let mem := setWord mem (linear INITSEG 6) bios.videoAx.toNat
  let mem := setWord mem (linear INITSEG 8) bios.egaAx.toNat
  let mem := setWord mem (linear INITSEG 10) bios.egaBx.toNat
  setWord mem (linear INITSEG 12) bios.egaCx.toNat

def Bios.isDisk1 (bios : Bios) : Prop :=
  bios.disk1.1 = false ∧ bios.disk1.2 = 3

instance (bios : Bios) : Decidable bios.isDisk1 :=
  inferInstanceAs (Decidable (_ ∧ _))

def parameters (bios : Bios) (mem : PhysMem) : PhysMem :=
  let mem := words bios mem
  let mem := diskTable 0x41 0x80 mem
  let mem := diskTable 0x46 0x90 mem
  if bios.isDisk1 then mem else blit mem (linear INITSEG 0x90) 0x10 fun _ => 0

-- The segments are moved one after the other. `ax` is a multiple of 0x1000, so that there are no more than 16.
def doMove : Nat → Nat → PhysMem → PhysMem
  | 0, _, mem => mem
  | fuel + 1, ax, mem =>
    let es := ax
    let ax := (ax + 0x1000) % 65536
    if ax = 0x9000 then
      mem
    else
      doMove fuel ax (repMovs 2 0x8000 mem (linear ax 0) (linear es 0))

def run (bios : Bios) (mem : PhysMem) : PhysMem :=
  doMove 16 0 (parameters bios mem)

-- What `main` reads.
def EXT_MEM_K (mem : PhysMem) : Nat :=
  word mem 0x90002

def ORIG_ROOT_DEV (mem : PhysMem) : Nat :=
  word mem 0x901fc

theorem frame_repMovsb (ds es cx : Nat) (mem : PhysMem) (si di : Nat) (h : di + cx < 65536)
    : Frame mem (repMovsb ds es cx mem si di) (linear es di) cx := by
  induction cx generalizing mem si di with
  | zero => exact .refl
  | succ cx ih =>
    rw [repMovsb, Nat.mod_eq_of_lt (a := di + 1) (by omega)]
    have hfirst : Frame mem (blit mem (linear es di) 1 (window mem (linear ds si))) (linear es di) 1 := frame_blit
    have hrest := ih (blit mem (linear es di) 1 (window mem (linear ds si))) ((si + 1) % 65536) (di + 1) (by omega)
    apply (hfirst.within (Nat.le_refl _) (by omega)).trans
    apply hrest.within
    . unfold linear
      omega
    . unfold linear
      omega

theorem repMovs_segment (mem : PhysMem) (j : Nat)
    : repMovs 2 0x8000 (blit mem 0 (0x10000 * j) (window mem 0x10000)) (linear (0x1000 * j + 0x1000) 0)
        (linear (0x1000 * j) 0)
        = blit mem 0 (0x10000 * (j + 1)) (window mem 0x10000) := by
  have hsource : linear (0x1000 * j + 0x1000) 0 = 0x10000 * j + 0x10000 := by
    unfold linear
    omega
  have hdest : linear (0x1000 * j) 0 = 0x10000 * j := by
    unfold linear
    omega
  rw [hsource, hdest, repMovs_eq_blit _ _ (by omega)]
  funext x
  unfold blit window
  by_cases hmoved : x < 0x10000 * j
  . rw [if_neg (by omega), if_pos (by omega), if_pos (by omega)]
  . by_cases hsegment : x < 0x10000 * (j + 1)
    . rw [if_pos (by omega)]
      dsimp only
      rw [if_neg (by omega), if_pos (by omega)]
      exact congrArg mem (by omega)
    . rw [if_neg (by omega), if_neg (by omega), if_neg (by omega)]

theorem doMove_eq (mem : PhysMem) (fuel j : Nat) (hj : j ≤ 8) (hfuel : 8 < fuel + j)
    : doMove fuel (0x1000 * j) (blit mem 0 (0x10000 * j) (window mem 0x10000))
        = blit mem 0 0x80000 (window mem 0x10000) := by
  induction fuel generalizing j with
  | zero => omega
  | succ fuel ih =>
    unfold doMove
    dsimp only
    rw [Nat.mod_eq_of_lt (by omega)]
    by_cases hend : 0x1000 * j + 0x1000 = 0x9000
    . have hlast : j = 8 := by omega
      rw [if_pos hend, hlast]
    . rw [if_neg hend, repMovs_segment, ← Nat.mul_succ]
      exact ih (j + 1) (by omega) (by omega)

theorem doMove_zero (mem : PhysMem) : doMove 16 0 mem = blit mem 0 0x80000 (window mem 0x10000) := by
  have h := doMove_eq mem 16 0 (by omega) (by omega)
  rwa [show blit mem 0 (0x10000 * 0) (window mem 0x10000) = mem from funext fun x => if_neg (by omega)] at h

theorem holds_repMovsb (ds es cx : Nat) (mem : PhysMem) (si di : Nat) (h : di + cx < 65536) (hsi : si < 65536)
    (hapart : ∀ i < cx, linear ds ((si + i) % 65536) < linear es di ∨ linear es di + cx ≤ linear ds ((si + i) % 65536))
    : Holds (repMovsb ds es cx mem si di) (linear es di) cx fun i => mem (linear ds ((si + i) % 65536)) := by
  induction cx generalizing mem si di with
  | zero => exact fun i hi => absurd hi (Nat.not_lt_zero i)
  | succ cx ih =>
    have hfirst := hapart 0 (Nat.succ_pos cx)
    rw [Nat.add_zero, Nat.mod_eq_of_lt hsi] at hfirst
    have hnext : linear es (di + 1) = linear es di + 1 := rfl
    have hshift : ∀ i, ((si + 1) % 65536 + i) % 65536 = (si + (i + 1)) % 65536 := by
      intro i
      omega
    have hwritten : Frame mem (blit mem (linear es di) 1 (window mem (linear ds si))) (linear es di) 1 := frame_blit
    rw [repMovsb, Nat.mod_eq_of_lt (by omega : di + 1 < 65536)]
    intro i hi
    cases i with
    | zero =>
      have hframe := frame_repMovsb ds es cx (blit mem (linear es di) 1 (window mem (linear ds si)))
        ((si + 1) % 65536) (di + 1) (by omega)
      rw [hframe _ (by omega), Nat.add_zero]
      dsimp only
      rw [Nat.add_zero, Nat.mod_eq_of_lt hsi]
      exact blit_inside mem _ (linear es di) Nat.zero_lt_one
    | succ i =>
      have hrest := ih (blit mem (linear es di) 1 (window mem (linear ds si))) ((si + 1) % 65536) (di + 1) (by omega)
        (Nat.mod_lt _ (by omega)) (by
          intro j hj
          have hj' := hapart (j + 1) (by omega)
          rw [hshift, hnext]
          omega) i (by omega)
      have hi' := hapart (i + 1) hi
      rw [show linear es di + (i + 1) = linear es (di + 1) + i by omega, hrest]
      dsimp only
      rw [hshift, hwritten _ (by omega)]

section Parameters

variable {mem mem' : PhysMem} {a n : Nat}

theorem frame_setWord (h : Frame mem mem' a n) (dest v : Nat) (hstart : a ≤ dest) (hend : dest + 2 ≤ a + n)
    : Frame mem (setWord mem' dest v) a n := by
  have hword : Frame mem' (setWord mem' dest v) dest 2 := frame_blit
  exact h.trans (hword.within hstart hend)

theorem frame_diskTable (h : Frame mem mem' a n) (vector dest : Nat) (hstart : a ≤ linear INITSEG dest)
    (hend : linear INITSEG dest + 0x10 ≤ a + n) (hdest : dest + 0x10 < 65536)
    : Frame mem (diskTable vector dest mem') a n :=
  h.trans ((frame_repMovsb _ _ _ _ _ _ hdest).within hstart hend)

theorem word_of_frame {b : Nat} (h : Frame mem mem' a n) (hapart : b + 2 ≤ a ∨ a + n ≤ b)
    : word mem' b = word mem b :=
  word_congr (h b (by omega)) (h (b + 1) (by omega))

theorem word_setWord_apart {b v : Nat} (hapart : b + 2 ≤ a ∨ a + 2 ≤ b) : word (setWord mem a v) b = word mem b :=
  word_of_frame frame_blit hapart

theorem word_setWord_toNat (v : BitVec 16) : word (setWord mem a v.toNat) a = v.toNat :=
  word_setWord v.isLt

theorem holds_diskTable {vector dest : Nat} (hdest : dest + 0x10 < 65536)
    (hapart : ∀ i < 0x10,
      tableByte mem vector i < linear INITSEG dest ∨ linear INITSEG dest + 0x10 ≤ tableByte mem vector i)
    : Holds (diskTable vector dest mem) (linear INITSEG dest) 0x10 fun i => mem (tableByte mem vector i) :=
  holds_repMovsb _ _ _ _ _ _ hdest (word_lt _ _) hapart

theorem tableByte_of_frame {vector : Nat} (h : Frame mem mem' a n) (hvector : 4 * vector + 4 ≤ a) (i : Nat)
    : tableByte mem' vector i = tableByte mem vector i := by
  unfold tableByte
  rw [word_of_frame h (by omega), word_of_frame h (by omega)]

end Parameters

-- The words that the BIOS has returned, where `con_init` and `main` read them.
structure Words (bios : Bios) (mem : PhysMem) : Prop where
  cursor : word mem 0x90000 = bios.cursor.toNat
  extMem : word mem 0x90002 = bios.extMem.toNat
  videoBx : word mem 0x90004 = bios.videoBx.toNat
  videoAx : word mem 0x90006 = bios.videoAx.toNat
  egaAx : word mem 0x90008 = bios.egaAx.toNat
  egaBx : word mem 0x9000a = bios.egaBx.toNat
  egaCx : word mem 0x9000c = bios.egaCx.toNat

theorem Words.of_frame {bios : Bios} {mem mem' : PhysMem} {a n : Nat} (h : Words bios mem) (hframe : Frame mem mem' a n)
    (ha : 0x9000e ≤ a)
    : Words bios mem' where
  cursor := (word_of_frame hframe (by omega)).trans h.cursor
  extMem := (word_of_frame hframe (by omega)).trans h.extMem
  videoBx := (word_of_frame hframe (by omega)).trans h.videoBx
  videoAx := (word_of_frame hframe (by omega)).trans h.videoAx
  egaAx := (word_of_frame hframe (by omega)).trans h.egaAx
  egaBx := (word_of_frame hframe (by omega)).trans h.egaBx
  egaCx := (word_of_frame hframe (by omega)).trans h.egaCx

section Parameters

variable (bios : Bios) (mem : PhysMem)

theorem words_words : Words bios (words bios mem) := by
  have hseg : ∀ k, linear INITSEG k = 0x90000 + k := fun _ => rfl
  unfold words
  simp only [hseg]
  constructor <;> simp (disch := omega) only [word_setWord_apart, word_setWord_toNat, Nat.add_zero]

theorem frame_words : Frame mem (words bios mem) 0x90000 0xe := by
  have hseg : ∀ k, linear INITSEG k = 0x90000 + k := fun _ => rfl
  unfold words
  simp only [hseg]
  have hwords := frame_setWord (@Frame.refl _ mem 0x90000 0xe) 0x90000 bios.cursor.toNat (by omega) (by omega)
  replace hwords := frame_setWord hwords 0x90002 bios.extMem.toNat (by omega) (by omega)
  replace hwords := frame_setWord hwords 0x90004 bios.videoBx.toNat (by omega) (by omega)
  replace hwords := frame_setWord hwords 0x90006 bios.videoAx.toNat (by omega) (by omega)
  replace hwords := frame_setWord hwords 0x90008 bios.egaAx.toNat (by omega) (by omega)
  replace hwords := frame_setWord hwords 0x9000a bios.egaBx.toNat (by omega) (by omega)
  exact frame_setWord hwords 0x9000c bios.egaCx.toNat (by omega) (by omega)

theorem frame_tables : Frame (words bios mem) (diskTable 0x46 0x90 (diskTable 0x41 0x80 (words bios mem))) 0x90080 0x20 := by
  have htable := frame_diskTable (@Frame.refl _ (words bios mem) 0x90080 0x20) 0x41 0x80 (by decide) (by decide) (by decide)
  exact frame_diskTable htable 0x46 0x90 (by decide) (by decide) (by decide)

theorem frame_parameters : Frame (words bios mem) (parameters bios mem) 0x90080 0x20 := by
  unfold parameters
  dsimp only
  split
  . exact frame_tables bios mem
  . exact (frame_tables bios mem).trans (frame_blit.within (by decide) (by decide))

-- The parameters of `setup`, made of the memory `m₀`.
structure Parameters (bios : Bios) (m₀ mem : PhysMem) : Prop where
  words : Words bios mem
  hd0 : (∀ i < 16, Apart (tableByte m₀ 0x41 i)) → ∀ i < 16, mem (0x90080 + i) = m₀ (tableByte m₀ 0x41 i)
  hd1 : bios.isDisk1 → (∀ i < 16, Apart (tableByte m₀ 0x46 i)) → ∀ i < 16, mem (0x90090 + i) = m₀ (tableByte m₀ 0x46 i)
  no_disk1 : ¬bios.isDisk1 → ∀ i < 16, mem (0x90090 + i) = 0

theorem parameters_parameters : Parameters bios mem (parameters bios mem) := by
  have hframe := frame_words bios mem
  have hfirst := frame_diskTable (@Frame.refl _ (Setup.words bios mem) 0x90080 0x10) 0x41 0x80 (by decide) (by decide) (by decide)
  have hsecond := frame_diskTable (@Frame.refl _ (diskTable 0x41 0x80 (Setup.words bios mem)) 0x90090 0x10) 0x46 0x90
    (by decide) (by decide) (by decide)
  have hboth : Frame mem (diskTable 0x41 0x80 (Setup.words bios mem)) 0x90000 0x90 :=
    (hframe.within (Nat.le_refl _) (by omega)).trans (hfirst.within (by omega) (by omega))
  have hseg : ∀ k, linear INITSEG k = 0x90000 + k := fun _ => rfl
  constructor
  . exact (words_words bios mem).of_frame (frame_parameters bios mem) (by omega)
  . intro hapart i hi
    have htable := @holds_diskTable (Setup.words bios mem) 0x41 0x80 (by omega) (by
      intro j hj
      have hj' := hapart j hj
      unfold Apart at hj'
      rw [tableByte_of_frame hframe (by omega), hseg]
      omega) i hi
    have hi' := hapart i hi
    unfold Apart at hi'
    dsimp only at htable
    rw [hseg, tableByte_of_frame hframe (by omega), hframe _ (by omega)] at htable
    rw [← htable]
    unfold parameters
    split
    . exact hsecond _ (by omega)
    . rw [hseg]
      exact (frame_blit _ (by omega)).trans (hsecond _ (by omega))
  . intro hdisk hapart i hi
    have htable := @holds_diskTable (diskTable 0x41 0x80 (Setup.words bios mem)) 0x46 0x90 (by omega) (by
      intro j hj
      have hj' := hapart j hj
      unfold Apart at hj'
      rw [tableByte_of_frame hboth (by omega), hseg]
      omega) i hi
    have hi' := hapart i hi
    unfold Apart at hi'
    dsimp only at htable
    rw [hseg, tableByte_of_frame hboth (by omega), hboth _ (by omega)] at htable
    unfold parameters
    rw [if_pos hdisk]
    exact htable
  . intro hdisk i hi
    unfold parameters
    rw [if_neg hdisk, hseg]
    exact blit_inside _ _ _ hi

end Parameters

theorem run_eq (bios : Bios) (mem : PhysMem)
    : (∀ x < 0x80000, run bios mem x = mem (0x10000 + x)) ∧ Parameters bios mem (run bios mem)
        ∧ ∀ x, 0x900a0 ≤ x → run bios mem x = mem x := by
  have hframe : Frame mem (parameters bios mem) 0x90000 0xa0 :=
    ((frame_words bios mem).within (Nat.le_refl _) (by omega)).trans
      ((frame_parameters bios mem).within (by omega) (by omega))
  have hmove : Frame (parameters bios mem) (run bios mem) 0 0x80000 := by
    unfold run
    rw [doMove_zero]
    exact frame_blit
  have hparameters := parameters_parameters bios mem
  refine ⟨?_, ⟨?_, ?_, ?_, ?_⟩, ?_⟩
  . intro x hx
    unfold run
    rw [doMove_zero, blit, if_pos (by omega), window, hframe _ (by omega)]
    rfl
  . constructor <;> rw [word_of_frame hmove (by omega)]
    . exact hparameters.words.cursor
    . exact hparameters.words.extMem
    . exact hparameters.words.videoBx
    . exact hparameters.words.videoAx
    . exact hparameters.words.egaAx
    . exact hparameters.words.egaBx
    . exact hparameters.words.egaCx
  . intro hapart i hi
    rw [hmove _ (by omega)]
    exact hparameters.hd0 hapart i hi
  . intro hdisk hapart i hi
    rw [hmove _ (by omega)]
    exact hparameters.hd1 hdisk hapart i hi
  . intro hdisk i hi
    rw [hmove _ (by omega)]
    exact hparameters.no_disk1 hdisk i hi
  . intro x hx
    rw [hmove _ (by omega), hframe _ (by omega)]

-- The state that the kernel starts from, with the memory `m₀` of before.
structure Booted (d : Floppy) (root : Nat × Nat) (setup system : List UInt8) (bios : Bios) (m₀ mem : PhysMem) : Prop where
  setup : ∀ i < 2048, mem (0x90200 + i) = setup.getD (32 + i) 0
  system : ∀ i < system.length, mem i = system.getD i 0
  parameters : Parameters bios m₀ mem
  extMem : EXT_MEM_K mem = bios.extMem.toNat
  root :
    ORIG_ROOT_DEV mem =
      if root.2 + 256 * root.1 ≠ 0 then root.2 + 256 * root.1 else if d.sectors = 15 then 0x0208 else 0x021c

section Chain

variable {d : Floppy} {arg : Build.RootArg} {root : Nat × Nat} {boot setup system image : List UInt8}

theorem rootDevice_lt (h : Build.rootDevice arg = .ok root) : root.1 < 256 ∧ root.2 < 256 := by
  cases arg with
  | default =>
    cases h
    exact ⟨by decide, by decide⟩
  | floppy =>
    cases h
    exact ⟨by decide, by decide⟩
  | device st_rdev =>
    cases h
    exact ⟨Nat.mod_lt _ (by decide), Nat.mod_lt _ (by decide)⟩
  | missing => cases h

theorem word_root (h : Build.IsImage root boot setup system image) (hroot : Build.rootDevice arg = .ok root)
    (hdisk : ∀ i < image.length, d.data i = image.getD i 0)
    : word d.data 508 = root.2 + 256 * root.1 := by
  have hlength := h.length
  have hlt := rootDevice_lt hroot
  unfold word
  rw [hdisk 508 (by omega), hdisk 509 (by omega), h.minor, h.major, UInt8.toNat_ofNat', UInt8.toNat_ofNat',
    Nat.mod_eq_of_lt hlt.left, Nat.mod_eq_of_lt hlt.right]

theorem tableByte_loaded {m₀ mem : PhysMem} (h : Loaded d m₀ mem) {vector : Nat} (hvector : vector < 256) (i : Nat)
    : tableByte mem vector i = tableByte m₀ vector i := by
  have hword : ∀ a, a + 1 < 0x10000 → word mem a = word m₀ a := by
    intro a ha
    exact word_congr (h.frame a (.inl (by omega))) (h.frame (a + 1) (.inl ha))
  unfold tableByte
  rw [hword _ (by omega), hword _ (by omega)]

theorem parameters_loaded {m₀ mem mem' : PhysMem} {bios : Bios} (h : Loaded d m₀ mem) (hrun : Parameters bios mem mem')
    : Parameters bios m₀ mem' := by
  have hfirst := tableByte_loaded h (by omega : 0x41 < 256)
  have hsecond := tableByte_loaded h (by omega : 0x46 < 256)
  refine ⟨hrun.words, ?_, ?_, hrun.no_disk1⟩
  . intro hapart i hi
    rw [hrun.hd0 (fun j hj => (hfirst j).symm ▸ hapart j hj) i hi, hfirst, h.frame _ (hapart i hi)]
  . intro hdisk hapart i hi
    rw [hrun.hd1 hdisk (fun j hj => (hsecond j).symm ▸ hapart j hj) i hi, hsecond, h.frame _ (hapart i hi)]

theorem booted {m₀ mem : PhysMem} (bios : Bios) (h : Build.IsImage root boot setup system image)
    (hsmall : system.length ≤ 0x30000) (hroot : Build.rootDevice arg = .ok root)
    (hdisk : ∀ i < image.length, d.data i = image.getD i 0) (hloaded : Loaded d m₀ mem)
    : Booted d root setup system bios m₀ (run bios mem) := by
  have hlength := h.length
  obtain ⟨hsystem, hparameters, hrest⟩ := run_eq bios mem
  refine ⟨?_, ?_, parameters_loaded hloaded hparameters, hparameters.words.extMem, ?_⟩
  . intro i hi
    rw [hrest _ (by omega), hloaded.setup i hi, window, hdisk _ (by omega), h.setup i hi]
  . intro i hi
    rw [hsystem i (by omega), hloaded.system i (by omega), window, hdisk _ (by omega), h.system]
  . have horig : ORIG_ROOT_DEV (run bios mem) = word mem rootDev :=
      word_congr (hrest _ (by decide)) (hrest _ (by decide))
    rw [horig, ← word_root h hroot hdisk]
    exact rootDevice_eq_some hloaded.root

/--
Whatever the BIOS does besides 385 reads that succeed, an image that has been built brings the system that it was built
from to address 0 and the parameters of the BIOS to where the kernel reads them, unless it names no root device and the floppy
has neither 15 nor 18 sectors on a track.
-/
theorem boot_image (hbuild : Build.main arg (some boot) (some setup) (some system) = .ok image)
    (hdisk : ∀ i < image.length, d.data i = image.getD i 0) {m₀ : PhysMem} (hstart : Holds m₀ 0x7c00 512 d.data)
    {answers : List Answer} (hdone : 385 ≤ answers.countP Answer.isDone) (bios : Bios)
    : ∃ root, Build.rootDevice arg = .ok root
        ∧ ((Bootsect.run d (start m₀) answers).pc = .setup
              ∧ Booted d root setup system bios m₀ (run bios (Bootsect.run d (start m₀) answers).mem)
            ∨ (Bootsect.run d (start m₀) answers).pc = .undefRoot
              ∧ root = (0, 0) ∧ d.sectors ≠ 15 ∧ d.sectors ≠ 18) := by
  obtain ⟨root, hroot, hsmall, himage⟩ := Build.main_isImage hbuild
  obtain ⟨houtcome, hends⟩ := run_outcome d hstart answers
  refine ⟨root, hroot, ?_⟩
  unfold Outcome at houtcome
  rcases hends hdone with hpc | hpc
  . rw [hpc] at houtcome
    exact Or.inl ⟨hpc, booted bios himage hsmall hroot hdisk houtcome⟩
  . rw [hpc] at houtcome
    obtain ⟨hword, hfifteen, height⟩ := rootDevice_eq_none houtcome
    rw [word_root himage hroot hdisk] at hword
    have hmajor : root.1 = 0 := by omega
    have hminor : root.2 = 0 := by omega
    exact Or.inr ⟨hpc, Prod.ext hmajor hminor, hfifteen, height⟩

def header : List UInt8 :=
  [0x01, 0x03, 0x10, 0x04, 0x20, 0, 0, 0] ++ List.replicate 24 0

def bootFile : List UInt8 :=
  header ++ List.replicate 510 0x90 ++ [0x55, 0xaa]

def setupFile : List UInt8 :=
  header ++ [0xfa, 0xf4]

def floppyImage : List UInt8 :=
  Build.sector (0, 0) (bootFile.drop 32) ++ setupFile.drop 32 ++ List.replicate (2080 - setupFile.length) 0 ++ [1, 2, 3]

def floppy144 : Floppy where
  sectors := 18
  tracks := 80
  data i := floppyImage.getD i 0
  lt_sectors := by decide
  sectors_le := by decide
  room := by decide

def powerOn (d : Floppy) : PhysMem :=
  blit (fun _ => 0) 0x7c00 512 d.data

def bios16 : Bios where
  cursor := 0
  extMem := 15360
  videoBx := 0
  videoAx := 0x5003
  egaAx := 0
  egaBx := 0
  egaCx := 0
  disk1 := (true, 0)

theorem main_floppy : Build.main .floppy (some bootFile) (some setupFile) (some [1, 2, 3]) = .ok floppyImage :=
  Build.main_eq_ok_iff.mpr ⟨(0, 0), rfl, by decide +kernel⟩

theorem boot_image_floppy
    : ∃ root, Build.rootDevice .floppy = .ok root
        ∧ ((Bootsect.run floppy144 (start (powerOn floppy144)) (List.replicate 385 .done)).pc = .setup
              ∧ Booted floppy144 root setupFile [1, 2, 3] bios16 (powerOn floppy144)
                (run bios16 (Bootsect.run floppy144 (start (powerOn floppy144)) (List.replicate 385 .done)).mem)
            ∨ (Bootsect.run floppy144 (start (powerOn floppy144)) (List.replicate 385 .done)).pc = .undefRoot
              ∧ root = (0, 0) ∧ floppy144.sectors ≠ 15 ∧ floppy144.sectors ≠ 18) := by
  apply boot_image main_floppy (fun _ _ => rfl) holds_blit
  rw [List.countP_replicate]
  decide

end Chain

end Setup
end OS
