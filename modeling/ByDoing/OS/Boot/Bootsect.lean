import Mathlib.Algebra.Group.Nat.Defs
import ByDoing.Lib.Blit

/-!
This module contains `bootsect.s`, which the BIOS loads from the first sector of a floppy: it moves itself out of the
way, loads `setup` behind itself and the system at 0x10000, and chooses the root device. A call of the BIOS to read
sectors fails any number of times, and what it leaves of a failed read in memory is arbitrary.
-/

namespace OS

abbrev PhysMem := Nat → UInt8

namespace Bootsect

open Blit

def SETUPLEN : Nat := 4
def BOOTSEG : Nat := 0x07c0
def INITSEG : Nat := 0x9000
def SYSSEG : Nat := 0x1000
def SYSSIZE : Nat := 0x3000
def ENDSEG : Nat := SYSSEG + SYSSIZE

def linear (seg off : Nat) : Nat :=
  seg * 16 + off

def word (mem : PhysMem) (a : Nat) : Nat :=
  (mem a).toNat + 256 * (mem (a + 1)).toNat

def setWord (mem : PhysMem) (a v : Nat) : PhysMem :=
  blit mem a 2 fun i => UInt8.ofNat (v / 256 ^ i)

-- A disk with two heads. There is room on it for the boot sector, for `setup` and for a system of `SYSSIZE` clicks.
structure Floppy where
  sectors : Nat
  tracks : Nat
  data : Nat → UInt8
  lt_sectors : 5 < sectors
  sectors_le : sectors ≤ 63
  room : 389 ≤ 2 * tracks * sectors

-- The registers of a call of `int 0x13` with `ah = 2`.
structure Request where
  al : Nat
  ch : Nat
  cl : Nat
  dh : Nat
  es : Nat
  bx : Nat

inductive Answer where
  | done
  -- The carry flag is set.
  | error (left_over : Nat → UInt8)

def Answer.isDone : Answer → Bool
  | .done => true
  | .error _ => false

namespace Floppy

def offset (d : Floppy) (r : Request) : Nat :=
  512 * ((r.ch * 2 + r.dh) * d.sectors + (r.cl - 1))

def Serves (d : Floppy) (r : Request) : Prop :=
  0 < r.al ∧ 0 < r.cl ∧ r.cl - 1 + r.al ≤ d.sectors ∧ r.dh < 2 ∧ r.ch < d.tracks
    ∧ linear r.es r.bx % 65536 + 512 * r.al ≤ 65536

instance (d : Floppy) (r : Request) : Decidable (d.Serves r) :=
  inferInstanceAs (Decidable (_ ∧ _ ∧ _ ∧ _ ∧ _ ∧ _))

def int13 (d : Floppy) (r : Request) (mem : PhysMem) : Answer → Option (Bool × PhysMem)
  | .done =>
    if d.Serves r then
      some (false, blit mem (linear r.es r.bx) (512 * r.al) (window d.data (d.offset r)))
    else
      none
  | .error left_over => some (true, blit mem (linear r.es r.bx) (512 * r.al) left_over)

end Floppy

-- The calls of the BIOS to read sectors, the jump to `setup`, and the loop at `undef_root`.
inductive Pc where
  | loadSetup
  | readTrack (ax : Nat)
  | setup
  | undefRoot

-- The variables `sectors`, `sread`, `head` and `track` lie within the boot sector. They and the stack, which grows down
-- from 0x9ff00, are kept apart from the memory here.
structure State where
  pc : Pc
  es : Nat
  bx : Nat
  sectors : Nat
  sread : Nat
  head : Nat
  track : Nat
  mem : PhysMem

def rootDev : Nat :=
  linear INITSEG 508

def start (mem : PhysMem) : State where
  pc := .loadSetup
  es := INITSEG
  bx := 0
  sectors := 0
  sread := 1 + SETUPLEN
  head := 0
  track := 0
  mem := repMovs 2 256 mem (linear BOOTSEG 0) (linear INITSEG 0)

def loadSetup : Request where
  al := SETUPLEN
  ch := 0
  cl := 2
  dh := 0
  es := INITSEG
  bx := 0x200

namespace State

-- From the end of `read_it` to the jump.
def chooseRoot (s : State) : State :=
  let ax := word s.mem rootDev
  if ax ≠ 0 then
    { s with pc := .setup, mem := setWord s.mem rootDev ax }
  else if s.sectors = 15 then
    { s with pc := .setup, mem := setWord s.mem rootDev 0x0208 }
  else if s.sectors = 18 then
    { s with pc := .setup, mem := setWord s.mem rootDev 0x021c }
  else
    { s with pc := .undefRoot }

def ok1Read (s : State) : Nat :=
  let ax := (s.sectors + 65536 - s.sread) % 65536
  let cx := ax * 512 % 65536 + s.bx
  if cx < 65536 ∨ cx % 65536 = 0 then ax else (65536 - s.bx) % 65536 / 512

def rpRead (s : State) : State :=
  if s.es < ENDSEG then { s with pc := .readTrack s.ok1Read } else s.chooseRoot

def readTrack (s : State) (ax : Nat) : Request where
  al := ax % 256
  ch := s.track % 256
  cl := (s.sread + 1) % 256
  dh := s.head % 2
  es := s.es
  bx := s.bx

def advance (s : State) (ax : Nat) : State :=
  if (ax + s.sread) % 65536 = s.sectors then
    let head := (1 + 65536 - s.head) % 65536
    { s with sread := 0, head, track := if head ≠ 0 then s.track else (s.track + 1) % 65536 }
  else
    { s with sread := (ax + s.sread) % 65536 }

def ok2Read (s : State) (ax : Nat) : State :=
  let s := s.advance ax
  let bx := s.bx + ax * 512 % 65536
  if bx < 65536 then
    { s with bx }.rpRead
  else
    { s with es := (s.es + 0x1000) % 65536, bx := 0 }.rpRead

end State

def step (d : Floppy) (s : State) (answer : Answer) : Option State :=
  match s.pc with
  | .loadSetup =>
    match d.int13 loadSetup s.mem answer with
    | some (false, mem) => some { s with mem, sectors := d.sectors, es := SYSSEG, bx := 0 }.rpRead
    | some (true, mem) => some { s with mem }
    | none => none
  | .readTrack ax =>
    match d.int13 (s.readTrack ax) s.mem answer with
    | some (false, mem) => some ({ s with mem }.ok2Read ax)
    | some (true, mem) => some { s with mem }
    | none => none
  | .setup => none
  | .undefRoot => none

-- The boot sector runs as long as the BIOS answers.
def run (d : Floppy) (s : State) : List Answer → State
  | [] => s
  | answer :: answers =>
    match step d s answer with
    | some s' => run d s' answers
    | none => s

section Proof

variable {d : Floppy} {m₀ : PhysMem} {n ax : Nat} {s s' : State}

-- What is in memory when `n` sectors of the system have been loaded.
structure Filled (d : Floppy) (m₀ : PhysMem) (n : Nat) (mem : PhysMem) : Prop where
  boot : Holds mem 0x90000 512 d.data
  setup : Holds mem 0x90200 2048 (window d.data 512)
  system : Holds mem 0x10000 (512 * n) (window d.data 2560)
  frame : ∀ x, x < 0x10000 ∨ 0x40000 ≤ x ∧ x < 0x90000 ∨ 0x90a00 ≤ x → mem x = m₀ x

-- The next sector of the floppy is sector `n + 5`, and it goes to where the `n` sectors end.
structure Loading (d : Floppy) (m₀ : PhysMem) (n : Nat) (s : State) : Prop where
  filled : Filled d m₀ n s.mem
  sectors : s.sectors = d.sectors
  place : (s.track * 2 + s.head) * d.sectors + s.sread = n + 5
  sread_lt : s.sread < d.sectors
  head_lt : s.head < 2
  es : s.es = 0x1000 * (n / 128 + 1)
  bx : s.bx = 512 * (n % 128)

def chunk (d : Floppy) (s : State) (n : Nat) : Nat :=
  min (d.sectors - s.sread) (128 - n % 128)

theorem Loading.ok1Read_eq (h : Loading d m₀ n s) : s.ok1Read = chunk d s n := by
  have hsread := h.sread_lt
  have hsectors := d.sectors_le
  unfold State.ok1Read chunk
  rw [h.sectors, h.bx]
  have hax : (d.sectors + 65536 - s.sread) % 65536 = d.sectors - s.sread := by omega
  simp only [hax]
  have hcx : (d.sectors - s.sread) * 512 % 65536 = (d.sectors - s.sread) * 512 := by omega
  rw [hcx]
  split <;> omega

theorem Loading.track_le (h : Loading d m₀ n s) (hn : n < 384) : s.track * 2 + s.head ≤ 64 := by
  have hplace := h.place
  have hle : (s.track * 2 + s.head) * 6 ≤ (s.track * 2 + s.head) * d.sectors :=
    Nat.mul_le_mul_left _ d.lt_sectors
  omega

theorem Loading.track_lt (h : Loading d m₀ n s) (hn : n < 384) : s.track < d.tracks := by
  have hplace := h.place
  have hroom := d.room
  apply Nat.lt_of_not_le
  intro hge
  have hle : 2 * d.tracks * d.sectors ≤ (s.track * 2 + s.head) * d.sectors :=
    Nat.mul_le_mul_right _ (by omega)
  omega

theorem Loading.linear_eq (h : Loading d m₀ n s) : linear s.es s.bx = 0x10000 + 512 * n := by
  unfold linear
  rw [h.es, h.bx]
  omega

theorem Loading.chunk_pos (h : Loading d m₀ n s) : 0 < chunk d s n := by
  have hsread := h.sread_lt
  unfold chunk
  omega

theorem chunk_le (d : Floppy) (s : State) (n : Nat) : chunk d s n ≤ 63 := by
  have hsectors := d.sectors_le
  unfold chunk
  omega

theorem Loading.readTrack_eq (h : Loading d m₀ n s) (hn : n < 384)
    : s.readTrack (chunk d s n) =
        { al := chunk d s n, ch := s.track, cl := s.sread + 1, dh := s.head, es := s.es, bx := s.bx } := by
  have hchunk := chunk_le d s n
  have htrack := h.track_le hn
  have hsread := h.sread_lt
  have hsectors := d.sectors_le
  have hhead := h.head_lt
  unfold State.readTrack
  rw [Nat.mod_eq_of_lt (by omega), Nat.mod_eq_of_lt (by omega), Nat.mod_eq_of_lt (by omega),
    Nat.mod_eq_of_lt (by omega)]

theorem Loading.offset_eq (h : Loading d m₀ n s) (hn : n < 384)
    : d.offset (s.readTrack (chunk d s n)) = 2560 + 512 * n := by
  have hplace := h.place
  rw [h.readTrack_eq hn, Floppy.offset, Nat.add_sub_cancel, hplace]
  omega

theorem Loading.serves (h : Loading d m₀ n s) (hn : n < 384) : d.Serves (s.readTrack (chunk d s n)) := by
  have hsread := h.sread_lt
  have hlinear := h.linear_eq
  rw [h.readTrack_eq hn]
  refine ⟨h.chunk_pos, Nat.succ_pos _, ?_, h.head_lt, h.track_lt hn, ?_⟩
  . change s.sread + 1 - 1 + chunk d s n ≤ d.sectors
    unfold chunk
    omega
  . change linear s.es s.bx % 65536 + 512 * chunk d s n ≤ 65536
    rw [hlinear]
    unfold chunk
    omega

theorem Filled.of_frame {mem mem' : PhysMem} {k : Nat} (h : Filled d m₀ n mem)
    (hframe : Frame mem mem' (0x10000 + 512 * n) (512 * k)) (hk : n + k ≤ 384)
    : Filled d m₀ n mem' where
  boot := h.boot.frame hframe (by omega)
  setup := h.setup.frame hframe (by omega)
  system := h.system.frame hframe (by omega)
  frame x hx := (hframe x (by omega)).trans (h.frame x hx)

theorem Filled.blit {mem : PhysMem} {k : Nat} (h : Filled d m₀ n mem) (hk : n + k ≤ 384)
    : Filled d m₀ (n + k) (blit mem (0x10000 + 512 * n) (512 * k) (window d.data (2560 + 512 * n))) := by
  have hold := h.of_frame (frame_blit (f := window d.data (2560 + 512 * n))) hk
  refine ⟨hold.boot, hold.setup, ?_, hold.frame⟩
  rw [Nat.mul_add]
  apply hold.system.append
  apply holds_blit.congr
  intro i _
  unfold window
  rw [Nat.add_assoc]

theorem Loading.advance (h : Loading d m₀ n s) (mem : PhysMem) (hn : n < 384)
    : ∃ sread head track, { s with mem }.advance (chunk d s n) = { s with mem, sread, head, track }
        ∧ (track * 2 + head) * d.sectors + sread = n + chunk d s n + 5 ∧ sread < d.sectors ∧ head < 2 := by
  have hplace := h.place
  have hsread := h.sread_lt
  have hsectors := d.sectors_le
  have hhead := h.head_lt
  have htrack := h.track_le hn
  have hchunk : chunk d s n ≤ d.sectors - s.sread := Nat.min_le_left _ _
  unfold State.advance
  dsimp only
  rw [h.sectors, Nat.mod_eq_of_lt (by omega)]
  by_cases hend : chunk d s n + s.sread = d.sectors
  . rw [if_pos hend]
    refine ⟨_, _, _, rfl, ?_, by omega, by omega⟩
    have hnext : (s.track * 2 + s.head + 1) * d.sectors = (s.track * 2 + s.head) * d.sectors + d.sectors :=
      Nat.succ_mul _ _
    by_cases hzero : s.head = 0
    . rw [if_pos (by omega), show s.track * 2 + (1 + 65536 - s.head) % 65536 = s.track * 2 + s.head + 1 by omega]
      omega
    . rw [if_neg (by omega),
        show (s.track + 1) % 65536 * 2 + (1 + 65536 - s.head) % 65536 = s.track * 2 + s.head + 1 by omega]
      omega
  . rw [if_neg hend]
    exact ⟨_, _, _, rfl, by omega, by omega, hhead⟩

theorem Loading.ok2Read {mem : PhysMem} (h : Loading d m₀ n s) (hn : n < 384)
    (hmem : Filled d m₀ (n + chunk d s n) mem)
    : ∃ s₁ : State, { s with mem }.ok2Read (chunk d s n) = s₁.rpRead ∧ Loading d m₀ (n + chunk d s n) s₁ := by
  have hes := h.es
  have hbx := h.bx
  have hchunk := chunk_le d s n
  have hsegment : chunk d s n ≤ 128 - n % 128 := Nat.min_le_right _ _
  obtain ⟨sread, head, track, hadvance, hplace, hsread, hhead⟩ := h.advance mem hn
  unfold State.ok2Read
  rw [hadvance]
  dsimp only
  by_cases hlt : s.bx + chunk d s n * 512 % 65536 < 65536
  . rw [if_pos hlt]
    refine ⟨_, rfl, hmem, h.sectors, hplace, hsread, hhead, ?_, ?_⟩
    . change s.es = _
      rw [hes]
      omega
    . change s.bx + _ = _
      rw [hbx] at hlt ⊢
      omega
  . rw [if_neg hlt]
    refine ⟨_, rfl, hmem, h.sectors, hplace, hsread, hhead, ?_, ?_⟩
    . change (s.es + 0x1000) % 65536 = _
      rw [hbx] at hlt
      rw [hes]
      omega
    . change 0 = _
      rw [hbx] at hlt
      omega

theorem word_lt (mem : PhysMem) (a : Nat) : word mem a < 65536 := by
  have hlow := (mem a).toNat_lt
  have hhigh := (mem (a + 1)).toNat_lt
  unfold word
  omega

theorem word_congr {mem mem' : PhysMem} {a b : Nat} (h : mem a = mem' b) (h' : mem (a + 1) = mem' (b + 1))
    : word mem a = word mem' b := by
  unfold word
  rw [h, h']

theorem word_setWord {mem : PhysMem} {a v : Nat} (hv : v < 65536) : word (setWord mem a v) a = v := by
  have hlow : setWord mem a v (a + 0) = UInt8.ofNat (v / 256 ^ 0) := blit_inside mem _ a (by omega)
  have hhigh : setWord mem a v (a + 1) = UInt8.ofNat (v / 256 ^ 1) := blit_inside mem _ a (by omega)
  rw [Nat.add_zero] at hlow
  unfold word
  rw [hlow, hhigh, UInt8.toNat_ofNat', UInt8.toNat_ofNat']
  omega

def rootDevice (d : Floppy) : Option Nat :=
  if word d.data 508 ≠ 0 then
    some (word d.data 508)
  else if d.sectors = 15 then
    some 0x0208
  else if d.sectors = 18 then
    some 0x021c
  else
    none

theorem rootDevice_eq_some {dev : Nat} (h : rootDevice d = some dev)
    : dev = if word d.data 508 ≠ 0 then word d.data 508 else if d.sectors = 15 then 0x0208 else 0x021c := by
  unfold rootDevice at h
  split at h
  . next hne =>
    rw [if_pos hne]
    exact (Option.some.inj h).symm
  . next hzero =>
    rw [if_neg hzero]
    split at h
    . next hfifteen =>
      rw [if_pos hfifteen]
      exact (Option.some.inj h).symm
    . next hfifteen =>
      rw [if_neg hfifteen]
      split at h
      . exact (Option.some.inj h).symm
      . cases h

theorem rootDevice_eq_none (h : rootDevice d = none) : word d.data 508 = 0 ∧ d.sectors ≠ 15 ∧ d.sectors ≠ 18 := by
  unfold rootDevice at h
  split at h
  . cases h
  . next hzero =>
    split at h
    . cases h
    . next hfifteen =>
      split at h
      . cases h
      . next height => exact ⟨Decidable.of_not_not hzero, hfifteen, height⟩

-- Where neither the system nor the boot sector, `setup` and the stack are. Addresses behind 1 MB wrap around.
def Apart (x : Nat) : Prop :=
  x < 0x10000 ∨ 0x40000 ≤ x ∧ x < 0x90000 ∨ 0x9ff00 ≤ x ∧ x < 0x100000

-- What `setup` finds in memory.
structure Loaded (d : Floppy) (m₀ mem : PhysMem) : Prop where
  root : rootDevice d = some (word mem rootDev)
  setup : Holds mem 0x90200 2048 (window d.data 512)
  system : Holds mem 0x10000 0x30000 (window d.data 2560)
  frame : ∀ x, Apart x → mem x = m₀ x

theorem Filled.loaded {mem : PhysMem} {dev : Nat} (h : Filled d m₀ 384 mem) (hdev : rootDevice d = some dev)
    (hlt : dev < 65536)
    : Loaded d m₀ (setWord mem rootDev dev) := by
  have hframe : Frame mem (setWord mem rootDev dev) 0x901fc 2 := frame_blit
  constructor
  . rw [word_setWord hlt, hdev]
  . exact h.setup.frame hframe (by omega)
  . exact h.system.frame hframe (by omega)
  . intro x hx
    unfold Apart at hx
    rw [hframe x (by omega), h.frame x (by omega)]

theorem Filled.word_root {mem : PhysMem} (h : Filled d m₀ n mem) : word mem rootDev = word d.data 508 :=
  word_congr (h.boot 508 (by omega)) (h.boot 509 (by omega))

-- The state before the `k + 1`st read that does not fail.
def Progress (d : Floppy) (m₀ : PhysMem) (k : Nat) (s : State) : Prop :=
  match s.pc with
  | .loadSetup =>
    k = 0 ∧ s.sread = 5 ∧ s.head = 0 ∧ s.track = 0 ∧ Holds s.mem 0x90000 512 d.data
      ∧ ∀ x, x < 0x90000 ∨ 0x90a00 ≤ x → s.mem x = m₀ x
  | .readTrack ax => ∃ n, k ≤ n + 1 ∧ n < 384 ∧ Loading d m₀ n s ∧ ax = chunk d s n
  | .setup => k ≤ 385 ∧ Loaded d m₀ s.mem
  | .undefRoot => k ≤ 385 ∧ rootDevice d = none

theorem Loading.chooseRoot {k : Nat} (h : Loading d m₀ 384 s) (hk : k ≤ 385) : Progress d m₀ k s.chooseRoot := by
  have hword := h.filled.word_root
  unfold State.chooseRoot
  dsimp only
  rw [hword, h.sectors]
  by_cases hroot : word d.data 508 ≠ 0
  . rw [if_pos hroot]
    exact ⟨hk, h.filled.loaded (if_pos hroot) (word_lt _ _)⟩
  by_cases hfifteen : d.sectors = 15
  . rw [if_neg hroot, if_pos hfifteen]
    refine ⟨hk, h.filled.loaded ?_ (by omega)⟩
    rw [rootDevice, if_neg hroot, if_pos hfifteen]
  by_cases height : d.sectors = 18
  . rw [if_neg hroot, if_neg hfifteen, if_pos height]
    refine ⟨hk, h.filled.loaded ?_ (by omega)⟩
    rw [rootDevice, if_neg hroot, if_neg hfifteen, if_pos height]
  . rw [if_neg hroot, if_neg hfifteen, if_neg height]
    refine ⟨hk, ?_⟩
    rw [rootDevice, if_neg hroot, if_neg hfifteen, if_neg height]

theorem Loading.rpRead {k : Nat} (h : Loading d m₀ n s) (hn : n ≤ 384) (hk : k ≤ n + 1)
    : Progress d m₀ k s.rpRead := by
  have hes := h.es
  unfold State.rpRead
  by_cases hlt : s.es < ENDSEG
  . rw [if_pos hlt]
    have hless : n < 384 := by
      unfold ENDSEG SYSSEG SYSSIZE at hlt
      omega
    refine ⟨n, hk, hless, ?_, h.ok1Read_eq⟩
    exact ⟨h.filled, h.sectors, h.place, h.sread_lt, h.head_lt, h.es, h.bx⟩
  . rw [if_neg hlt]
    have hfull : n = 384 := by
      unfold ENDSEG SYSSEG SYSSIZE at hlt
      omega
    subst hfull
    exact h.chooseRoot hk

theorem serves_loadSetup (d : Floppy) : d.Serves loadSetup := by
  have hsectors := d.lt_sectors
  have htracks : 0 < d.tracks := by
    have hroom := d.room
    apply Nat.pos_of_ne_zero
    intro hzero
    simp only [hzero, Nat.mul_zero, Nat.zero_mul] at hroom
    omega
  refine ⟨by decide, by decide, ?_, by decide, htracks, by decide⟩
  change 1 + 4 ≤ d.sectors
  omega

theorem start_mem (m₀ : PhysMem) : (start m₀).mem = blit m₀ 0x90000 512 (window m₀ 0x7c00) := by
  have hsource : linear BOOTSEG 0 = 0x7c00 := rfl
  have hdest : linear INITSEG 0 = 0x90000 := rfl
  unfold start
  rw [hsource, hdest, repMovs_eq_blit 2 256 (by omega)]

theorem progress_start (h : Holds m₀ 0x7c00 512 d.data) : Progress d m₀ 0 (start m₀) := by
  refine ⟨rfl, rfl, rfl, rfl, ?_, ?_⟩
  . rw [start_mem]
    exact holds_blit.congr h
  . intro x hx
    rw [start_mem]
    exact frame_blit x (by omega)

theorem int13_done {r : Request} (h : d.Serves r) (mem : PhysMem)
    : d.int13 r mem .done
        = some (false, blit mem (linear r.es r.bx) (512 * r.al) (window d.data (d.offset r))) :=
  if_pos h

theorem int13_error (r : Request) (mem : PhysMem) (left_over : Nat → UInt8)
    : d.int13 r mem (.error left_over) = some (true, blit mem (linear r.es r.bx) (512 * r.al) left_over) :=
  rfl

theorem Progress.loadSetup {k : Nat} {answer : Answer} (hpc : s.pc = .loadSetup) (h : Progress d m₀ k s)
    (hstep : step d s answer = some s')
    : Progress d m₀ (k + if answer.isDone then 1 else 0) s' := by
  unfold Progress at h
  rw [hpc] at h
  obtain ⟨rfl, hsread, hhead, htrack, hboot, hframe⟩ := h
  unfold step at hstep
  rw [hpc] at hstep
  cases answer with
  | error left_over =>
    cases hstep
    have hwindow : Frame s.mem (blit s.mem 0x90200 2048 left_over) 0x90200 2048 := frame_blit
    refine ⟨rfl, hsread, hhead, htrack, hboot.frame hwindow (by omega), ?_⟩
    intro x hx
    exact (hwindow x (by omega)).trans (hframe x hx)
  | done =>
    dsimp only at hstep
    rw [int13_done (serves_loadSetup d)] at hstep
    cases hstep
    have hoffset : d.offset Bootsect.loadSetup = 512 := by
      change 512 * (0 * d.sectors + 1) = 512
      rw [Nat.zero_mul]
    rw [hoffset]
    have hwindow : Frame s.mem (blit s.mem 0x90200 2048 (window d.data 512)) 0x90200 2048 := frame_blit
    apply Loading.rpRead (n := 0) ?_ (by omega) (by simp [Answer.isDone])
    refine ⟨⟨hboot.frame hwindow (by omega), holds_blit, ?_, ?_⟩, rfl, ?_, ?_, ?_, rfl, rfl⟩
    . intro i hi
      exact absurd hi (Nat.not_lt_zero i)
    . intro x hx
      exact (hwindow x (by omega)).trans (hframe x (by omega))
    . change (s.track * 2 + s.head) * d.sectors + s.sread = 0 + 5
      rw [hsread, hhead, htrack]
      omega
    . change s.sread < d.sectors
      rw [hsread]
      exact d.lt_sectors
    . change s.head < 2
      rw [hhead]
      exact Nat.zero_lt_two

theorem Progress.readTrack {k : Nat} {answer : Answer} (hpc : s.pc = .readTrack ax) (h : Progress d m₀ k s)
    (hstep : step d s answer = some s')
    : Progress d m₀ (k + if answer.isDone then 1 else 0) s' := by
  unfold Progress at h
  rw [hpc] at h
  obtain ⟨n, hk, hn, hload, rfl⟩ := h
  have hroom : n + chunk d s n ≤ 384 := by
    unfold chunk
    omega
  have hlinear : linear (s.readTrack (chunk d s n)).es (s.readTrack (chunk d s n)).bx = 0x10000 + 512 * n :=
    hload.linear_eq
  have hal : (s.readTrack (chunk d s n)).al = chunk d s n := by rw [hload.readTrack_eq hn]
  unfold step at hstep
  rw [hpc] at hstep
  cases answer with
  | error left_over =>
    dsimp only at hstep
    rw [int13_error, hlinear, hal] at hstep
    cases hstep
    refine ⟨n, hk, hn, ?_, rfl⟩
    exact ⟨hload.filled.of_frame frame_blit hroom, hload.sectors, hload.place, hload.sread_lt, hload.head_lt,
      hload.es, hload.bx⟩
  | done =>
    dsimp only at hstep
    rw [int13_done (hload.serves hn), hlinear, hal, hload.offset_eq hn] at hstep
    cases hstep
    obtain ⟨s₁, hs₁, hload₁⟩ := hload.ok2Read hn (hload.filled.blit hroom)
    rw [hpc] at hs₁
    rw [hs₁]
    have hpos := hload.chunk_pos
    exact hload₁.rpRead hroom (by simp only [Answer.isDone, if_true]; omega)

theorem Progress.step {k : Nat} {answer : Answer} (h : Progress d m₀ k s) (hstep : step d s answer = some s')
    : Progress d m₀ (k + if answer.isDone then 1 else 0) s' := by
  cases hpc : s.pc with
  | loadSetup => exact h.loadSetup hpc hstep
  | readTrack ax => exact h.readTrack hpc hstep
  | setup =>
    unfold Bootsect.step at hstep
    rw [hpc] at hstep
    cases hstep
  | undefRoot =>
    unfold Bootsect.step at hstep
    rw [hpc] at hstep
    cases hstep

def Outcome (d : Floppy) (m₀ : PhysMem) (s : State) : Prop :=
  match s.pc with
  | .loadSetup => d.Serves loadSetup
  | .readTrack ax => d.Serves (s.readTrack ax)
  | .setup => Loaded d m₀ s.mem
  | .undefRoot => rootDevice d = none

def State.Done (s : State) : Prop :=
  s.pc = .setup ∨ s.pc = .undefRoot

theorem Progress.outcome {k : Nat} (h : Progress d m₀ k s) : Outcome d m₀ s := by
  unfold Progress at h
  unfold Outcome
  split at h
  . exact serves_loadSetup d
  . obtain ⟨n, hk, hn, hload, rfl⟩ := h
    exact hload.serves hn
  . exact h.right
  . exact h.right

theorem Progress.done {k : Nat} (h : Progress d m₀ k s) (hk : 385 ≤ k) : s.Done := by
  unfold Progress at h
  split at h
  . omega
  . obtain ⟨n, hle, hn, _⟩ := h
    omega
  . next hpc => exact Or.inl hpc
  . next hpc => exact Or.inr hpc

theorem Progress.not_stuck {k : Nat} {answer : Answer} (h : Progress d m₀ k s) (hstep : Bootsect.step d s answer = none)
    : s.Done := by
  have houtcome := h.outcome
  unfold Bootsect.step at hstep
  unfold Outcome at houtcome
  cases hpc : s.pc with
  | loadSetup =>
    rw [hpc] at hstep houtcome
    cases answer with
    | error left_over => cases hstep
    | done =>
      dsimp only at hstep
      rw [int13_done houtcome] at hstep
      cases hstep
  | readTrack ax =>
    rw [hpc] at hstep houtcome
    cases answer with
    | error left_over => cases hstep
    | done =>
      dsimp only at hstep houtcome
      rw [int13_done houtcome] at hstep
      cases hstep
  | setup => exact Or.inl hpc
  | undefRoot => exact Or.inr hpc

theorem Progress.run {k : Nat} (h : Progress d m₀ k s) (answers : List Answer)
    : ∃ k', Progress d m₀ k' (run d s answers)
        ∧ (k' = k + answers.countP Answer.isDone ∨ (run d s answers).Done) := by
  induction answers generalizing s k with
  | nil => exact ⟨k, h, Or.inl rfl⟩
  | cons answer answers ih =>
    unfold Bootsect.run
    split
    . next s₁ hs₁ =>
      obtain ⟨k', hprogress, hk'⟩ := ih (h.step hs₁)
      refine ⟨k', hprogress, hk'.imp_left ?_⟩
      intro hcount
      rw [List.countP_cons]
      omega
    . next hnone => exact ⟨k, h, Or.inr (h.not_stuck hnone)⟩

theorem run_outcome (d : Floppy) {m₀ : PhysMem} (hstart : Holds m₀ 0x7c00 512 d.data) (answers : List Answer)
    : Outcome d m₀ (run d (start m₀) answers)
        ∧ (385 ≤ answers.countP Answer.isDone → (run d (start m₀) answers).Done) := by
  obtain ⟨k, hprogress, hk⟩ := (progress_start hstart).run answers
  refine ⟨hprogress.outcome, ?_⟩
  intro hdone
  rcases hk with hk | hk
  . exact hprogress.done (by omega)
  . exact hk

end Proof

end Bootsect
end OS
