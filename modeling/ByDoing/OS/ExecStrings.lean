import ByDoing.OS.ExecTables

namespace OS
namespace Exec

open ByteMemory

def Starts (mem : Mem) (sp : Address) (args envs : List CString) : Prop :=
  ∃ argv envp argPtrs envPtrs, Started mem sp args envs argv envp argPtrs envPtrs

def Delivers (free : Nat) (args envs : List CString) : Option (Mem × Address) → Prop
  | none => free < MAX_ARG_PAGES
  | some (mem, sp) => Starts mem sp args envs

variable {mem : Seg → Mem} {data : Mem} {free : Nat} {env : Call} {args : List Call} {envs : List CString}
  {strss : List (List CString)}

theorem collected_start (free : Nat)
    : Collected free { page := fun _ => none, free, fs := .user } (BitVec.ofNat 32 ROOM) [] := by
  constructor
  . constructor
    . rfl
    . intro i hi
      exact absurd hi (Nat.not_lt_zero i)
    . have htaken : taken (fun _ => none) = 0 := by
        unfold taken
        simp
      change free + taken (fun _ => none) = free
      omega
  . rfl

theorem sum_argc (hargs : List.Forall₂ (Call.Given mem) args strss)
    : (args.map Call.argc).sum = strss.reverse.flatten.length := by
  induction hargs with
  | nil => rfl
  | cons hcall _ ih =>
    rw [List.map_cons, List.sum_cons, ih, hcall.argc, List.reverse_cons, List.flatten_append, List.length_append]
    simp [Nat.add_comm]

theorem copied_all (free : Nat) (henv : env.Given mem envs) (hargs : List.Forall₂ (Call.Given mem) args strss)
    (hfit : (image (strss.reverse.flatten ++ envs)).length ≤ ROOM)
    : ∃ r, copyCalls mem (env :: args) { page := fun _ => none, free, fs := .user } (BitVec.ofNat 32 ROOM) = .ok r
        ∧ Outcome free (image (strss.reverse.flatten ++ envs)) r := by
  have hflatten : (envs :: strss).reverse.flatten = strss.reverse.flatten ++ envs := by
    simp
  have hall := copyCalls_outcome (collected_start free) (.cons henv hargs)
  rw [hflatten, List.append_nil] at hall
  exact hall hfit

theorem execStrings_of_full {pages : ArgPages}
    (h : copyCalls mem (env :: args) { page := fun _ => none, free, fs := .user } (BitVec.ofNat 32 ROOM)
      = .ok (pages, 0))
    : execStrings mem data free env args = .ok none := by
  unfold execStrings
  change (copyCalls mem (env :: args) { page := fun _ => none, free, fs := .user } (BitVec.ofNat 32 ROOM)
    >>= _) = _
  rw [h]
  rfl

theorem execStrings_of_copied {pages : ArgPages} {p : Address}
    (h : copyCalls mem (env :: args) { page := fun _ => none, free, fs := .user } (BitVec.ofNat 32 ROOM)
      = .ok (pages, p)) (hp : p ≠ 0) {started : Mem × Address}
    (htables : createTables (changeLdt pages.page data)
      (p + (dataLimit - BitVec.ofNat 32 (MAX_ARG_PAGES * PAGE_SIZE))) (args.map Call.argc).sum env.argc
        = .ok started)
    : execStrings mem data free env args = .ok (some started) := by
  unfold execStrings
  change (copyCalls mem (env :: args) { page := fun _ => none, free, fs := .user } (BitVec.ofNat 32 ROOM)
    >>= _) = _
  rw [h]
  change (if p = 0 then _ else _) = _
  rw [if_neg hp]
  rw [htables]
  rfl

theorem starts_of_collected (data : Mem) {pages : ArgPages} {p : Address} {strs : List CString}
    (h : Collected free pages p (image (strs ++ envs)))
    (hfit : (image (strs ++ envs)).length < ROOM)
    : ∃ mem' sp, createTables (changeLdt pages.page data)
          (p + (dataLimit - BitVec.ofNat 32 (MAX_ARG_PAGES * PAGE_SIZE))) strs.length envs.length = .ok (mem', sp)
        ∧ Starts mem' sp strs envs := by
  have hplace : p.toNat + (image (strs ++ envs)).length = ROOM := h.copied.place
  have hroom : ROOM ≤ MAX_ARG_PAGES * PAGE_SIZE := by decide
  have hmoved : p + (dataLimit - BitVec.ofNat 32 (MAX_ARG_PAGES * PAGE_SIZE)) = BitVec.ofNat 32 (BASE + p.toNat) := by
    have hbase : dataLimit - BitVec.ofNat 32 (MAX_ARG_PAGES * PAGE_SIZE) = BitVec.ofNat 32 BASE := by decide
    rw [hbase, BitVec.ofNat_add, BitVec.ofNat_toNat, BitVec.setWidth_eq, BitVec.add_comm]
  have hlt : BASE + (MAX_ARG_PAGES * PAGE_SIZE) < 2 ^ 32 := base_lt (Nat.le_refl _)
  have haddress : (BitVec.ofNat 32 (BASE + p.toNat)).toNat = BASE + p.toNat := toNat_ofNat_of_lt (by omega)
  have hholds : Holds (changeLdt pages.page data) (BitVec.ofNat 32 (BASE + p.toNat)) (image (strs ++ envs)) :=
    holds_changeLdt (by omega) h.copied.data
  rw [hmoved]
  obtain ⟨mem', sp, argv, envp, htables, hstarted⟩ :=
    createTables_started hholds (by omega) (by omega) (by omega)
  exact ⟨mem', sp, htables, argv, envp, _, _, hstarted⟩

/--
If the strings leave a byte of the space free, the new program gets them, unless there are not pages enough.
-/
theorem execStrings_delivers (henv : env.Given mem envs) (hargs : List.Forall₂ (Call.Given mem) args strss)
    (hfit : (image (strss.reverse.flatten ++ envs)).length < ROOM)
    : ∃ r, execStrings mem data free env args = .ok r ∧ Delivers free strss.reverse.flatten envs r := by
  obtain ⟨⟨pages, p⟩, hr, houtcome⟩ := copied_all free henv hargs (Nat.le_of_lt hfit)
  rcases houtcome with ⟨hzero, hshort⟩ | hcollected
  . change p = 0 at hzero
    subst hzero
    exact ⟨none, execStrings_of_full hr, hshort⟩
  . obtain ⟨mem', sp, htables, hstarts⟩ := starts_of_collected data hcollected hfit
    have hp : p ≠ 0 := by
      rintro rfl
      have hplace : 0 + (image (strss.reverse.flatten ++ envs)).length = ROOM := hcollected.copied.place
      omega
    rw [← sum_argc hargs, ← henv.argc] at htables
    exact ⟨some (mem', sp), execStrings_of_copied hr hp htables, hstarts⟩

theorem execStrings_of_exact (data : Mem) (free : Nat) (henv : env.Given mem envs)
    (hargs : List.Forall₂ (Call.Given mem) args strss)
    (hfit : (image (strss.reverse.flatten ++ envs)).length = ROOM)
    : execStrings mem data free env args = .ok none := by
  obtain ⟨⟨pages, p⟩, hr, houtcome⟩ := copied_all free henv hargs (Nat.le_of_eq hfit)
  have hzero : p = 0 := by
    rcases houtcome with hshort | hcollected
    . exact hshort.left
    . have hplace : p.toNat + (image (strss.reverse.flatten ++ envs)).length = ROOM := hcollected.copied.place
      apply BitVec.eq_of_toNat_eq
      change p.toNat = 0
      omega
  subst hzero
  exact execStrings_of_full hr

def oneString (str : CString) : Mem :=
  store (putLong (fun _ => 0) 0x100 0x1000) 0x1000 str.bytes

def oneCall : Call :=
  {
    argc := 1
    argv := 0x100
    fromKmem := 0
  }

def noCall : Call :=
  {
    argc := 0
    argv := 0
    fromKmem := 0
  }

theorem given_noCall : noCall.Given mem [] :=
  ⟨rfl, fun i hi => absurd hi (Nat.not_lt_zero i)⟩

theorem given_oneCall {str : CString} (hlength : str.bytes.length ≤ MAX_ARG_PAGES * PAGE_SIZE)
    : oneCall.Given (fun _ => oneString str) [str] := by
  have hroom : MAX_ARG_PAGES * PAGE_SIZE + 0x1000 ≤ 2 ^ 32 := by decide
  constructor
  . rfl
  . intro i hi
    have hzero : i = 0 := by
      rw [List.length_singleton] at hi
      omega
    subst hzero
    have hpointer : getLong (oneString str) 0x100 = 0x1000 := by
      apply getLong_of_holds
      apply holds_putLong.frame frame_store
      right
      rw [length_longBytes]
      constructor
      . decide
      . change 0x1000 + str.bytes.length ≤ 2 ^ 32
        omega
    change getLong (oneString str) 0x100 ≠ 0 ∧ Holds (oneString str) (getLong (oneString str) 0x100) str.bytes
    rw [hpointer]
    exact ⟨by decide, holds_store (by omega)⟩

def twoStrings (str str' : CString) : Mem :=
  store (store (putLong (putLong (fun _ => 0) 0x100 0x10000) 0x104 0x40000) 0x10000 str.bytes) 0x40000 str'.bytes

def twoCall : Call :=
  {
    argc := 2
    argv := 0x100
    fromKmem := 0
  }

theorem getLong_twoStrings {str str' : CString} (hlength : str.bytes.length ≤ MAX_ARG_PAGES * PAGE_SIZE)
    (hlength' : str'.bytes.length ≤ MAX_ARG_PAGES * PAGE_SIZE)
    : getLong (twoStrings str str') 0x100 = 0x10000 ∧ getLong (twoStrings str str') 0x104 = 0x40000 := by
  have hroom : MAX_ARG_PAGES * PAGE_SIZE + 0x40000 ≤ 2 ^ 32 := by decide
  have hlow : ∀ (a : Address) (v : BitVec 32), a.toNat + 4 ≤ 0x10000 →
      Holds (putLong (putLong (fun _ => 0) 0x100 0x10000) 0x104 0x40000) a (longBytes v) →
      getLong (twoStrings str str') a = v := by
    intro a v ha h
    apply getLong_of_holds
    apply (h.frame frame_store _).frame frame_store _
    . right
      rw [length_longBytes]
      change a.toNat + 4 ≤ 0x10000 ∧ 0x10000 + str.bytes.length ≤ 2 ^ 32
      omega
    . right
      rw [length_longBytes]
      change a.toNat + 4 ≤ 0x40000 ∧ 0x40000 + str'.bytes.length ≤ 2 ^ 32
      omega
  constructor
  . apply hlow _ _ (by decide)
    apply holds_putLong.frame frame_putLong
    right
    decide
  . exact hlow _ _ (by decide) holds_putLong

theorem given_twoCall {str str' : CString} (hlength : str.bytes.length ≤ MAX_ARG_PAGES * PAGE_SIZE)
    (hlength' : str'.bytes.length ≤ MAX_ARG_PAGES * PAGE_SIZE)
    : twoCall.Given (fun _ => twoStrings str str') [str, str'] := by
  have hpages : MAX_ARG_PAGES * PAGE_SIZE ≤ 0x30000 := by decide
  obtain ⟨hfirst, hsecond⟩ := getLong_twoStrings hlength hlength'
  constructor
  . rfl
  . intro i hi
    match i with
    | 0 =>
      change getLong (twoStrings str str') 0x100 ≠ 0
        ∧ Holds (twoStrings str str') (getLong (twoStrings str str') 0x100) str.bytes
      rw [hfirst]
      refine ⟨by decide, ?_⟩
      apply (holds_store _).frame frame_store
      . right
        change 0x10000 + str.bytes.length ≤ 0x40000 ∧ 0x40000 + str'.bytes.length ≤ 2 ^ 32
        omega
      . omega
    | 1 =>
      change getLong (twoStrings str str') 0x104 ≠ 0
        ∧ Holds (twoStrings str str') (getLong (twoStrings str str') 0x104) str'.bytes
      rw [hsecond]
      exact ⟨by decide, holds_store (by omega)⟩

-- `n` times the letter `a`.
def letters (n : Nat) : CString :=
  {
    chars := List.replicate n 97
    nonzero := by
      intro c hc
      rw [List.eq_of_mem_replicate hc]
      decide
  }

theorem length_letters (n : Nat) : (letters n).bytes.length = n + 1 := by
  rw [length_bytes]
  unfold letters
  rw [List.length_replicate]

-- Two strings as the environment and two as the arguments, which go over the boundaries of pages.
theorem execStrings_delivers_letters
    : ∃ r, execStrings (fun _ => twoStrings (letters 5000) (letters 3000)) (fun _ => 0) 32 twoCall [twoCall] = .ok r
        ∧ Delivers 32 [letters 5000, letters 3000] [letters 5000, letters 3000] r := by
  have hlong : (letters 5000).bytes.length = 5001 := length_letters 5000
  have hshort : (letters 3000).bytes.length = 3001 := length_letters 3000
  have himage : (image ([[letters 5000, letters 3000]].reverse.flatten ++ [letters 5000, letters 3000])).length
      < ROOM := by
    change (image ([letters 5000] ++ ([letters 3000] ++ ([letters 5000] ++ [letters 3000])))).length < ROOM
    simp only [image_append, image_singleton, List.length_append, hlong, hshort]
    decide
  have hpages : ROOM ≤ MAX_ARG_PAGES * PAGE_SIZE := by decide
  have hgiven := given_twoCall (show (letters 5000).bytes.length ≤ MAX_ARG_PAGES * PAGE_SIZE by rw [hlong]; decide)
    (show (letters 3000).bytes.length ≤ MAX_ARG_PAGES * PAGE_SIZE by rw [hshort]; decide)
  exact execStrings_delivers hgiven (.cons hgiven .nil) himage

-- One string that takes up all but the last four bytes of the pages is refused.
theorem not_delivers_letters
    : (letters 131067).bytes.length = MAX_ARG_PAGES * PAGE_SIZE - 4
        ∧ oneCall.Given (fun _ => oneString (letters 131067)) [letters 131067]
        ∧ ¬∃ r, execStrings (fun _ => oneString (letters 131067)) (fun _ => 0) 32 oneCall [noCall] = .ok r
            ∧ Delivers 32 [] [letters 131067] r := by
  have hlength : (letters 131067).bytes.length = ROOM := by
    rw [length_letters]
    rfl
  have hpages : ROOM ≤ MAX_ARG_PAGES * PAGE_SIZE := by decide
  have hgiven := given_oneCall (show (letters 131067).bytes.length ≤ MAX_ARG_PAGES * PAGE_SIZE by omega)
  have himage : (image ([[]].reverse.flatten ++ [letters 131067])).length = ROOM := by
    change (image [letters 131067]).length = ROOM
    rw [image_singleton]
    exact hlength
  refine ⟨hlength, hgiven, ?_⟩
  rintro ⟨r, hr, hdelivers⟩
  have hnone := execStrings_of_exact (fun _ => 0) 32 hgiven (.cons given_noCall .nil) himage
  rw [hnone] at hr
  cases hr
  exact absurd hdelivers (Nat.lt_irrefl 32)

end Exec
end OS
