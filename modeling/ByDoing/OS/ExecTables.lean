import ByDoing.OS.ExecCopy

namespace OS
namespace Exec

open ByteMemory

-- The addresses of strings that lie one behind the other from `p` on.
def starts (p : Address) : List CString → List Address
  | [] => []
  | str :: strs => p :: starts (p + BitVec.ofNat 32 str.bytes.length) strs

variable {mem : Mem} {p table : Address} {strs strs' : List CString} {l : List Byte}

theorem length_bytes (str : CString) : str.bytes.length = str.chars.length + 1 := by
  unfold CString.bytes
  rw [List.length_append, List.length_singleton]

@[simp]
theorem length_starts (p : Address) (strs : List CString) : (starts p strs).length = strs.length := by
  induction strs generalizing p with
  | nil => rfl
  | cons str strs ih => rw [starts, List.length_cons, List.length_cons, ih]

theorem image_cons (str : CString) (strs : List CString) : image (str :: strs) = str.bytes ++ image strs :=
  List.flatMap_cons

theorem starts_append (p : Address) (strs strs' : List CString)
    : starts p (strs ++ strs') = starts p strs ++ starts (p + BitVec.ofNat 32 (image strs).length) strs' := by
  induction strs generalizing p with
  | nil =>
    change starts p strs' = starts (p + 0#32) strs'
    rw [BitVec.add_zero]
  | cons str strs ih =>
    rw [List.cons_append, starts, ih, starts, List.cons_append, image_cons, List.length_append, add_ofNat_add]

theorem length_le_image (strs : List CString) : strs.length ≤ (image strs).length := by
  induction strs with
  | nil => exact Nat.le_refl 0
  | cons str strs ih =>
    rw [image_cons, List.length_append, List.length_cons, length_bytes]
    omega

theorem scan_string {str : CString} (h : Holds mem p str.bytes) (hroom : str.bytes.length ≤ ROOM)
    : scan mem ADDRESSES p = some str.bytes.length := by
  rw [length_bytes] at *
  apply scan_of_holds str.nonzero h
  have hle : ROOM ≤ ADDRESSES := by decide
  omega

theorem holds_putLong {a : Address} {v : BitVec 32} : Holds (putLong mem a v) a (longBytes v) := by
  apply holds_store
  rw [length_longBytes]
  decide

theorem toNat_add_ofNat {a : Address} {n : Nat} (h : a.toNat + n < 2 ^ 32)
    : (a + BitVec.ofNat 32 n).toNat = a.toNat + n := by
  rw [BitVec.toNat_add, BitVec.toNat_ofNat, Nat.mod_eq_of_lt (a := n) (by omega), Nat.mod_eq_of_lt h]

theorem fillTable_spec (table : Address) (h : Holds mem p (image strs))
    (hbelow : table.toNat + 4 * strs.length ≤ p.toNat) (hend : p.toNat + (image strs).length < 2 ^ 32) (hroom : (image strs).length ≤ ROOM)
    : ∃ mem', fillTable strs.length mem p table
          = .ok (mem', p + BitVec.ofNat 32 (image strs).length, table + BitVec.ofNat 32 (4 * strs.length))
        ∧ Holds mem' table ((starts p strs).flatMap longBytes) ∧ Frame mem mem' table (4 * strs.length) := by
  induction strs generalizing mem p table with
  | nil =>
    refine ⟨mem, ?_, holds_nil, fun _ _ => rfl⟩
    change Except.ok (mem, p, table) = Except.ok (mem, p + 0#32, table + 0#32)
    rw [BitVec.add_zero, BitVec.add_zero]
  | cons str strs ih =>
    rw [image_cons] at *
    rw [holds_append] at h
    rw [List.length_append] at *
    rw [List.length_cons] at *
    have hbytes := length_bytes str
    have hnext : (p + BitVec.ofNat 32 str.bytes.length).toNat = p.toNat + str.bytes.length :=
      toNat_add_ofNat (by omega)
    have hcell : (table + 4).toNat = table.toNat + 4 := toNat_add_ofNat (n := 4) (by omega)
    have hstring : Holds (putLong mem table p) p str.bytes := by
      apply h.left.frame frame_putLong
      left
      omega
    have himage : Holds (putLong mem table p) (p + BitVec.ofNat 32 str.bytes.length) (image strs) := by
      apply h.right.frame frame_putLong
      left
      omega
    obtain ⟨mem', hfill, hholds, hframe⟩ := ih (table + 4) himage (by omega) (by omega) (by omega)
    refine ⟨mem', ?_, ?_, ?_⟩
    . rw [fillTable, scan_string hstring (by omega)]
      dsimp only
      rw [hfill, add_ofNat_add]
      congr 3
      rw [Nat.mul_succ, Nat.add_comm, BitVec.ofNat_add, ← BitVec.add_assoc]
      rfl
    . rw [starts, List.flatMap_cons, holds_append]
      refine ⟨?_, hholds⟩
      refine Holds.frame holds_putLong hframe ?_
      right
      rw [length_longBytes]
      omega
    . intro x hx
      rw [hframe x (by bv_omega)]
      exact frame_putLong x (by omega)

def BASE : Nat :=
  0x4000000 - MAX_ARG_PAGES * PAGE_SIZE

theorem toNat_ofNat_of_lt {n : Nat} (h : n < 2 ^ 32) : (BitVec.ofNat 32 n).toNat = n := by
  rw [BitVec.toNat_ofNat, Nat.mod_eq_of_lt h]

theorem base_lt {x : Nat} (h : x ≤ MAX_ARG_PAGES * PAGE_SIZE) : BASE + x < 2 ^ 32 := by
  have hle : BASE + MAX_ARG_PAGES * PAGE_SIZE < 2 ^ 32 := by decide
  omega

theorem base_pred (i : Nat)
    : BitVec.ofNat 32 (BASE + (i + 1) * PAGE_SIZE) - BitVec.ofNat 32 PAGE_SIZE
        = BitVec.ofNat 32 (BASE + i * PAGE_SIZE) := by
  rw [Nat.succ_mul, ← Nat.add_assoc, BitVec.ofNat_add]
  exact BitVec.add_sub_cancel _ _

theorem putPages_above {page : Nat → Option (Nat → Byte)} {i x : Nat} (hi : i ≤ MAX_ARG_PAGES)
    (hx : i * PAGE_SIZE ≤ x) (hlt : x < MAX_ARG_PAGES * PAGE_SIZE)
    : putPages page i (BitVec.ofNat 32 (BASE + i * PAGE_SIZE)) mem (BitVec.ofNat 32 (BASE + x))
        = mem (BitVec.ofNat 32 (BASE + x)) := by
  induction i generalizing mem with
  | zero => rfl
  | succ i ih =>
    have hmul : (i + 1) * PAGE_SIZE = i * PAGE_SIZE + PAGE_SIZE := Nat.succ_mul i PAGE_SIZE
    have hrest := fun mem : Mem => @ih mem (by omega) (by omega)
    rw [putPages, base_pred]
    cases page i with
    | none => exact hrest mem
    | some bytes =>
      refine (hrest _).trans (if_neg ?_)
      rw [BitVec.toNat_sub, toNat_ofNat_of_lt (base_lt (by omega)), toNat_ofNat_of_lt (base_lt (by omega))]
      have hbase := base_lt (x := x) (by omega)
      omega

theorem putPages_byte {page : Nat → Option (Nat → Byte)} {i x : Nat} {b : Byte} (hi : i ≤ MAX_ARG_PAGES)
    (hx : x < i * PAGE_SIZE) (hb : byteOf page x = some b)
    : putPages page i (BitVec.ofNat 32 (BASE + i * PAGE_SIZE)) mem (BitVec.ofNat 32 (BASE + x)) = b := by
  induction i generalizing mem with
  | zero =>
    rw [Nat.zero_mul] at hx
    omega
  | succ i ih =>
    have hmul : (i + 1) * PAGE_SIZE = i * PAGE_SIZE + PAGE_SIZE := Nat.succ_mul i PAGE_SIZE
    have hle : (i + 1) * PAGE_SIZE ≤ MAX_ARG_PAGES * PAGE_SIZE := Nat.mul_le_mul_right _ hi
    rw [putPages, base_pred]
    rcases Nat.lt_or_ge x (i * PAGE_SIZE) with hlt | hge
    . cases page i with
      | none => exact ih (by omega) hlt
      | some bytes => exact ih (by omega) hlt
    . have hdiv : x / PAGE_SIZE = i := by
        rw [Nat.div_eq_iff (by decide)]
        unfold PAGE_SIZE at *
        omega
      have hmod : x % PAGE_SIZE = x - i * PAGE_SIZE := by
        unfold PAGE_SIZE at *
        omega
      unfold byteOf at hb
      rw [hdiv] at hb
      cases hpage : page i with
      | none =>
        rw [hpage] at hb
        cases hb
      | some bytes =>
        refine (putPages_above (by omega) hge (by omega)).trans ?_
        have hoffset : (BitVec.ofNat 32 (BASE + x) - BitVec.ofNat 32 (BASE + i * PAGE_SIZE)).toNat = x % PAGE_SIZE := by
          rw [BitVec.toNat_sub, toNat_ofNat_of_lt (base_lt (by omega)), toNat_ofNat_of_lt (base_lt (by omega))]
          have hbase := base_lt (x := x) (by omega)
          omega
        unfold putPage
        rw [hoffset, if_pos (Nat.mod_lt x (by decide))]
        rw [hpage] at hb
        exact Option.some.inj hb

theorem holds_changeLdt {page : Nat → Option (Nat → Byte)} {x : Nat} (hend : x + l.length ≤ MAX_ARG_PAGES * PAGE_SIZE)
    (h : ∀ i (h : i < l.length), byteOf page (x + i) = some l[i])
    : Holds (changeLdt page mem) (BitVec.ofNat 32 (BASE + x)) l := by
  intro i hi
  rw [← BitVec.ofNat_add, Nat.add_assoc]
  unfold changeLdt
  have hlimit : dataLimit = BitVec.ofNat 32 (BASE + MAX_ARG_PAGES * PAGE_SIZE) := by decide
  rw [hlimit]
  exact putPages_byte (Nat.le_refl _) (by omega) (h i hi)

-- A table of pointers, with a null pointer behind them, and what they point to.
structure Table (mem : Mem) (table : Address) (ptrs : List Address) (strs : List CString) : Prop where
  length : ptrs.length = strs.length
  pointer : ∀ i (h : i < ptrs.length), getLong mem (table + BitVec.ofNat 32 (4 * i)) = ptrs[i]
  null : getLong mem (table + BitVec.ofNat 32 (4 * ptrs.length)) = 0
  ne_null : ∀ ptr ∈ ptrs, ptr ≠ 0
  string : List.Forall₂ (fun ptr str => Holds mem ptr str.bytes) ptrs strs

def stringRanges (ptrs : List Address) (strs : List CString) : List (Address × Nat) :=
  List.zipWith (fun ptr str => (ptr, str.bytes.length)) ptrs strs

-- A new program that finds its arguments and its environment: `argc`, `argv` and `envp` are on the stack, and neither
-- the tables nor the strings overlap.
structure Started (mem : Mem) (sp : Address) (args envs : List CString) (argv envp : Address)
    (argPtrs envPtrs : List Address)
    : Prop where
  argc_eq : getLong mem sp = BitVec.ofNat 32 args.length
  argv_eq : getLong mem (sp + 4) = argv
  envp_eq : getLong mem (sp + 8) = envp
  argTable : Table mem argv argPtrs args
  envTable : Table mem envp envPtrs envs
  apart : List.Pairwise (fun r r' => Apart r.fst r.snd r'.fst r'.snd)
    ((sp, 12) :: (argv, 4 * (args.length + 1)) :: (envp, 4 * (envs.length + 1))
      :: (stringRanges argPtrs args ++ stringRanges envPtrs envs))

theorem holds_starts (h : Holds mem p (image strs))
    : List.Forall₂ (fun ptr str => Holds mem ptr str.bytes) (starts p strs) strs := by
  induction strs generalizing p with
  | nil => exact .nil
  | cons str strs ih =>
    rw [image_cons, holds_append] at h
    exact .cons h.left (ih h.right)

theorem range_within {r : Address × Nat} (hend : p.toNat + (image strs).length < 2 ^ 32)
    (hr : r ∈ stringRanges (starts p strs) strs)
    : p.toNat ≤ r.fst.toNat ∧ r.fst.toNat + r.snd ≤ p.toNat + (image strs).length := by
  induction strs generalizing p with
  | nil => cases hr
  | cons str strs ih =>
    rw [image_cons, List.length_append] at *
    have hnext : (p + BitVec.ofNat 32 str.bytes.length).toNat = p.toNat + str.bytes.length :=
      toNat_add_ofNat (by omega)
    rcases List.mem_cons.mp hr with rfl | hrest
    . dsimp only
      omega
    . have hwithin := ih (by omega) hrest
      omega

theorem pairwise_apart_starts (hend : p.toNat + (image strs).length < 2 ^ 32)
    : List.Pairwise (fun r r' => Apart r.fst r.snd r'.fst r'.snd) (stringRanges (starts p strs) strs) := by
  induction strs generalizing p with
  | nil => exact .nil
  | cons str strs ih =>
    rw [image_cons, List.length_append] at hend
    have hnext : (p + BitVec.ofNat 32 str.bytes.length).toNat = p.toNat + str.bytes.length :=
      toNat_add_ofNat (by omega)
    refine .cons ?_ (ih (by omega))
    intro r hr
    have hwithin := range_within (by omega) hr
    left
    dsimp only
    omega

theorem getLong_of_holds_flatMap {ptrs : List Address} (h : Holds mem table (ptrs.flatMap longBytes)) {i : Nat}
    (hi : i < ptrs.length)
    : getLong mem (table + BitVec.ofNat 32 (4 * i)) = ptrs[i] := by
  induction ptrs generalizing table i with
  | nil => exact absurd hi (Nat.not_lt_zero i)
  | cons ptr ptrs ih =>
    rw [List.flatMap_cons, holds_append] at h
    cases i with
    | zero =>
      change getLong mem (table + 0#32) = ptr
      rw [BitVec.add_zero]
      exact getLong_of_holds h.left
    | succ i =>
      have hrest := ih h.right (Nat.lt_of_succ_lt_succ hi)
      rw [length_longBytes, add_ofNat_add, Nat.add_comm, ← Nat.mul_succ] at hrest
      exact hrest

theorem mask_eq (p : Address) : (0xfffffffc : Address) &&& p = (p >>> 2) <<< 2 := by
  have hmask : ∀ i < 32, (0xfffffffc : Address).getLsbD i = decide (2 ≤ i) := by decide
  apply BitVec.eq_of_getLsbD_eq
  intro i hi
  rw [BitVec.getLsbD_and, hmask i hi, BitVec.getLsbD_shiftLeft, BitVec.getLsbD_ushiftRight]
  by_cases hle : 2 ≤ i
  . simp [hle, hi, Nat.not_lt.mpr hle]
  . simp [hle, Nat.lt_of_not_ge hle]

theorem toNat_mask (p : Address)
    : ((0xfffffffc : Address) &&& p).toNat ≤ p.toNat ∧ p.toNat ≤ ((0xfffffffc : Address) &&& p).toNat + 3 := by
  have hp := p.isLt
  have heq : ((0xfffffffc : Address) &&& p).toNat = p.toNat / 4 * 4 := by
    rw [mask_eq, BitVec.toNat_shiftLeft, BitVec.toNat_ushiftRight, Nat.shiftRight_eq_div_pow, Nat.shiftLeft_eq,
      Nat.mod_eq_of_lt (by omega)]
  omega

theorem le_of_mem_starts {ptr : Address} (hend : p.toNat + (image strs).length < 2 ^ 32) (hptr : ptr ∈ starts p strs)
    : p.toNat ≤ ptr.toNat := by
  induction strs generalizing p with
  | nil => cases hptr
  | cons str strs ih =>
    rw [image_cons, List.length_append] at hend
    have hnext : (p + BitVec.ofNat 32 str.bytes.length).toNat = p.toNat + str.bytes.length :=
      toNat_add_ofNat (by omega)
    rcases List.mem_cons.mp hptr with rfl | hrest
    . exact Nat.le_refl _
    . have hle := ih (by omega) hrest
      omega

theorem table_of_holds (hstrs : Holds mem p (image strs)) (hpos : 0 < p.toNat)
    (hend : p.toNat + (image strs).length < 2 ^ 32) (hptrs : Holds mem table ((starts p strs).flatMap longBytes))
    (hnull : Holds mem (table + BitVec.ofNat 32 (4 * strs.length)) (longBytes 0))
    : Table mem table (starts p strs) strs := by
  constructor
  . exact length_starts p strs
  . exact fun i hi => getLong_of_holds_flatMap hptrs hi
  . rw [length_starts]
    exact getLong_of_holds hnull
  . intro ptr hptr hzero
    have hle := le_of_mem_starts hend hptr
    rw [hzero] at hle
    exact absurd hle (Nat.not_le.mpr hpos)
  . exact holds_starts hstrs

theorem length_pointers (p : Address) (strs : List CString)
    : ((starts p strs).flatMap longBytes).length = 4 * strs.length := by
  rw [List.length_flatMap]
  simp [length_longBytes, Nat.mul_comm]

theorem stringRanges_append (p : Address) (strs strs' : List CString)
    : stringRanges (starts p (strs ++ strs')) (strs ++ strs')
        = stringRanges (starts p strs) strs
          ++ stringRanges (starts (p + BitVec.ofNat 32 (image strs).length) strs') strs' := by
  unfold stringRanges
  rw [starts_append, List.zipWith_append (length_starts p strs)]

theorem pairwise_apart {sp argv envp : Address} {argc envc : Nat} (hargv : argv.toNat = sp.toNat + 12)
    (henvp : envp.toNat = argv.toNat + 4 * (argc + 1)) (hp : envp.toNat + 4 * (envc + 1) ≤ p.toNat)
    (hend : p.toNat + (image strs).length < 2 ^ 32)
    : List.Pairwise (fun r r' => Apart r.fst r.snd r'.fst r'.snd)
        ((sp, 12) :: (argv, 4 * (argc + 1)) :: (envp, 4 * (envc + 1)) :: stringRanges (starts p strs) strs) := by
  refine .cons ?_ (.cons ?_ (.cons ?_ (pairwise_apart_starts hend)))
  . intro r hr
    left
    rcases List.mem_cons.mp hr with rfl | hr
    . dsimp only
      omega
    . rcases List.mem_cons.mp hr with rfl | hr
      . dsimp only
        omega
      . have hwithin := range_within hend hr
        dsimp only
        omega
  . intro r hr
    left
    rcases List.mem_cons.mp hr with rfl | hr
    . dsimp only
      omega
    . have hwithin := range_within hend hr
      dsimp only
      omega
  . intro r hr
    left
    have hwithin := range_within hend hr
    dsimp only
    omega

theorem fillTable_null (table : Address) (h : Holds mem p (image strs))
    (hbelow : table.toNat + 4 * (strs.length + 1) ≤ p.toNat) (hend : p.toNat + (image strs).length < 2 ^ 32) (hroom : (image strs).length ≤ ROOM)
    : ∃ mem', fillTable strs.length mem p table
          = .ok (mem', p + BitVec.ofNat 32 (image strs).length, table + BitVec.ofNat 32 (4 * strs.length))
        ∧ Holds (putLong mem' (table + BitVec.ofNat 32 (4 * strs.length)) 0) table ((starts p strs).flatMap longBytes)
        ∧ Holds (putLong mem' (table + BitVec.ofNat 32 (4 * strs.length)) 0)
            (table + BitVec.ofNat 32 (4 * strs.length)) (longBytes 0)
        ∧ Frame mem (putLong mem' (table + BitVec.ofNat 32 (4 * strs.length)) 0) table (4 * (strs.length + 1)) := by
  obtain ⟨mem', hfill, hholds, hframe⟩ := fillTable_spec table h (by omega) hend hroom
  have hcell : (table + BitVec.ofNat 32 (4 * strs.length)).toNat = table.toNat + 4 * strs.length :=
    toNat_add_ofNat (by omega)
  have hlength := length_pointers p strs
  refine ⟨mem', hfill, ?_, holds_putLong, ?_⟩
  . apply hholds.frame frame_putLong
    right
    rw [hlength]
    omega
  . have hfirst : Frame mem mem' table (4 * (strs.length + 1)) :=
      hframe.within (Nat.le_refl _) (by omega) (by omega)
    apply hfirst.trans
    apply frame_putLong.within
    . omega
    . omega
    . omega

-- What `create_tables` puts on the stack below the tables.
def putStack (mem : Mem) (argv envp : Address) (argc : Nat) : Mem :=
  putLong (putLong (putLong mem (argv - 4) envp) (argv - 8) argv) (argv - 12) (BitVec.ofNat 32 argc)

theorem toNat_sub_ofNat {a : Address} {n : Nat} (h : n ≤ a.toNat) : (a - BitVec.ofNat 32 n).toNat + n = a.toNat := by
  have ha := a.isLt
  rw [BitVec.toNat_sub_of_le]
  . rw [toNat_ofNat_of_lt (by omega)]
    exact Nat.sub_add_cancel h
  . rw [BitVec.le_def, toNat_ofNat_of_lt (by omega)]
    exact h

theorem putStack_spec (mem : Mem) {argv : Address} (envp : Address) (argc : Nat) (hlow : 12 ≤ argv.toNat)
    : Holds (putStack mem argv envp argc) (argv - 12) (longBytes (BitVec.ofNat 32 argc))
        ∧ Holds (putStack mem argv envp argc) (argv - 8) (longBytes argv)
        ∧ Holds (putStack mem argv envp argc) (argv - 4) (longBytes envp)
        ∧ Frame mem (putStack mem argv envp argc) (argv - 12) 12 := by
  have hargv := argv.isLt
  have h4 : (argv - 4).toNat + 4 = argv.toNat := toNat_sub_ofNat (n := 4) (by omega)
  have h8 : (argv - 8).toNat + 8 = argv.toNat := toNat_sub_ofNat (n := 8) (by omega)
  have h12 : (argv - 12).toNat + 12 = argv.toNat := toNat_sub_ofNat (n := 12) (by omega)
  unfold putStack
  refine ⟨holds_putLong, ?_, ?_, ?_⟩
  . apply holds_putLong.frame frame_putLong
    left
    rw [length_longBytes]
    omega
  . apply (holds_putLong.frame frame_putLong _).frame frame_putLong
    . left
      rw [length_longBytes]
      omega
    . left
      rw [length_longBytes]
      omega
  . have hput : ∀ (m : Mem) (a v : Address), argv.toNat - 12 ≤ a.toNat → a.toNat + 4 ≤ argv.toNat →
        Frame m (putLong m a v) (argv - 12) 12 := by
      intro m a v hstart hlast
      apply frame_putLong.within
      . omega
      . omega
      . omega
    exact ((hput _ _ _ (by omega) (by omega)).trans (hput _ _ _ (by omega) (by omega))).trans
      (hput _ _ _ (by omega) (by omega))

theorem createTables_started {args envs : List CString} (h : Holds mem p (image (args ++ envs)))
    (hroom : (image (args ++ envs)).length ≤ ROOM) (hlow : BASE ≤ p.toNat)
    (hend : p.toNat + (image (args ++ envs)).length < 2 ^ 32)
    : ∃ mem' sp argv envp, createTables mem p args.length envs.length = .ok (mem', sp)
        ∧ Started mem' sp args envs argv envp (starts p args)
            (starts (p + BitVec.ofNat 32 (image args).length) envs) := by
  obtain ⟨hle, hge⟩ := toNat_mask p
  have hargs := length_le_image args
  have henvs := length_le_image envs
  have hbase : ROOM * 8 + 64 ≤ BASE := by decide
  rw [image_append, holds_append] at h
  rw [image_append, List.length_append] at hroom hend
  unfold createTables
  generalize (0xfffffffc : Address) &&& p = top at *
  dsimp only
  -- The addresses of the tables as numbers.
  have henvp : (top - BitVec.ofNat 32 (4 * (envs.length + 1))).toNat + 4 * (envs.length + 1) = top.toNat :=
    toNat_sub_ofNat (by omega)
  generalize top - BitVec.ofNat 32 (4 * (envs.length + 1)) = envp at *
  have hargv : (envp - BitVec.ofNat 32 (4 * (args.length + 1))).toNat + 4 * (args.length + 1) = envp.toNat :=
    toNat_sub_ofNat (by omega)
  generalize envp - BitVec.ofNat 32 (4 * (args.length + 1)) = argv at *
  have h4 : (argv - 4).toNat + 4 = argv.toNat := toNat_sub_ofNat (n := 4) (by omega)
  have h8 : (argv - 8).toNat + 8 = argv.toNat := toNat_sub_ofNat (n := 8) (by omega)
  have h12 : (argv - 12).toNat + 12 = argv.toNat := toNat_sub_ofNat (n := 12) (by omega)
  have hsplit : (p + BitVec.ofNat 32 (image args).length).toNat = p.toNat + (image args).length :=
    toNat_add_ofNat (by omega)
  obtain ⟨hargc, hargvCell, henvpCell, hstack⟩ := putStack_spec mem envp args.length
    (show 12 ≤ argv.toNat by omega)
  change ∃ mem' sp argv' envp', (do
    let x ← fillTable args.length (putStack mem argv envp args.length) p argv
    let y ← fillTable envs.length (putLong x.1 x.2.2 0) x.2.1 envp
    return (putLong y.1 y.2.2 0, argv - 12)) = .ok (mem', sp) ∧ _
  -- The arguments.
  have hargImage : Holds (putStack mem argv envp args.length) p (image args) := by
    apply h.left.frame hstack
    left
    omega
  have henvImage
      : Holds (putStack mem argv envp args.length) (p + BitVec.ofNat 32 (image args).length) (image envs) := by
    apply h.right.frame hstack
    left
    omega
  generalize putStack mem argv envp args.length = m₁ at *
  obtain ⟨m₂, hfill, hargPtrs, hargNull, hargFrame⟩ :=
    fillTable_null argv hargImage (by omega) (by omega) (by omega)
  have hargNext : (argv + BitVec.ofNat 32 (4 * args.length)).toNat = argv.toNat + 4 * args.length :=
    toNat_add_ofNat (by omega)
  -- The environment.
  have hargImage' := hargImage.frame hargFrame (.inl (by omega))
  have henvImage' := henvImage.frame hargFrame (.inl (by omega))
  have hargc' := hargc.frame hargFrame (.inr (by rw [length_longBytes]; omega))
  have hargvCell' := hargvCell.frame hargFrame (.inr (by rw [length_longBytes]; omega))
  have henvpCell' := henvpCell.frame hargFrame (.inr (by rw [length_longBytes]; omega))
  have hrun : (do
      let x ← fillTable args.length m₁ p argv
      let y ← fillTable envs.length (putLong x.1 x.2.2 0) x.2.1 envp
      return (putLong y.1 y.2.2 0, argv - 12)) = (do
      let y ← fillTable envs.length (putLong m₂ (argv + BitVec.ofNat 32 (4 * args.length)) 0)
        (p + BitVec.ofNat 32 (image args).length) envp
      return (putLong y.1 y.2.2 0, argv - 12)) := by
    rw [hfill]
    rfl
  rw [hrun]
  generalize putLong m₂ (argv + BitVec.ofNat 32 (4 * args.length)) 0 = m₃ at *
  obtain ⟨m₄, hfill', henvPtrs, henvNull, henvFrame⟩ :=
    fillTable_null envp henvImage' (by omega) (by omega) (by omega)
  refine ⟨_, argv - 12, argv, envp, by rw [hfill']; rfl, ?_⟩
  have henvNext : (envp + BitVec.ofNat 32 (4 * envs.length)).toNat = envp.toNat + 4 * envs.length :=
    toNat_add_ofNat (by omega)
  have hargImage'' := hargImage'.frame henvFrame (.inl (by omega))
  have henvImage'' := henvImage'.frame henvFrame (.inl (by omega))
  have hargc'' := hargc'.frame henvFrame (.inr (by rw [length_longBytes]; omega))
  have hargvCell'' := hargvCell'.frame henvFrame (.inr (by rw [length_longBytes]; omega))
  have henvpCell'' := henvpCell'.frame henvFrame (.inr (by rw [length_longBytes]; omega))
  have hargPtrs' := hargPtrs.frame henvFrame (.inr (by rw [length_pointers]; omega))
  have hargNull' := hargNull.frame henvFrame (.inr (by rw [length_longBytes]; omega))
  constructor
  . exact getLong_of_holds hargc''
  . have heq : argv - 12 + 4 = argv - 8 := by bv_omega
    rw [heq]
    exact getLong_of_holds hargvCell''
  . have heq : argv - 12 + 8 = argv - 4 := by bv_omega
    rw [heq]
    exact getLong_of_holds henvpCell''
  . exact table_of_holds hargImage'' (by omega) (by omega) hargPtrs' hargNull'
  . exact table_of_holds henvImage'' (by omega) (by omega) henvPtrs henvNull
  . rw [← stringRanges_append]
    refine pairwise_apart ?_ ?_ ?_ ?_
    . omega
    . omega
    . omega
    . rw [image_append, List.length_append]
      omega

end Exec
end OS
