import ByDoing.OS.ExecArgs
import Mathlib.Data.Finset.Card
import Mathlib.Data.Finset.Range

namespace OS
namespace Exec

open ByteMemory Machine

structure CString where
  chars : List Byte
  nonzero : ∀ c ∈ chars, c ≠ 0

def CString.bytes (s : CString) : List Byte :=
  s.chars ++ [0]

def image (strs : List CString) : List Byte :=
  strs.flatMap CString.bytes

-- The byte with the number `x` of the pages, if there is a page for it.
def byteOf (page : Nat → Option (Nat → Byte)) (x : Nat) : Option Byte :=
  (page (x / PAGE_SIZE)).map fun bytes => bytes (x % PAGE_SIZE)

def taken (page : Nat → Option (Nat → Byte)) : Nat :=
  ((Finset.range MAX_ARG_PAGES).filter fun i => (page i).isSome).card

def arraySeg (fromKmem : Nat) : Seg :=
  if fromKmem = 1 ∨ fromKmem = 2 then .kernel else .user

def stringSeg (fromKmem : Nat) : Seg :=
  if fromKmem = 2 then .kernel else .user

def StringAt (mem : Seg → Mem) (call : Call) (i : Nat) (str : CString) : Prop :=
  let tmp := getLong (mem (arraySeg call.fromKmem)) (call.argv + BitVec.ofNat 32 (4 * i))
  tmp ≠ 0 ∧ Holds (mem (stringSeg call.fromKmem)) tmp str.bytes

structure Call.Given (mem : Seg → Mem) (call : Call) (strs : List CString) : Prop where
  argc : call.argc = strs.length
  string : ∀ i (h : i < strs.length), StringAt mem call i strs[i]

def ROOM : Nat :=
  PAGE_SIZE * MAX_ARG_PAGES - 4

section Taken

variable {page : Nat → Option (Nat → Byte)}

theorem taken_update_of_none {i : Nat} (hi : i < MAX_ARG_PAGES) (hnone : page i = none) (bytes : Nat → Byte)
    : taken (Function.update page i (some bytes)) = taken page + 1 := by
  have hinsert : ((Finset.range MAX_ARG_PAGES).filter fun j => (Function.update page i (some bytes) j).isSome)
      = insert i ((Finset.range MAX_ARG_PAGES).filter fun j => (page j).isSome) := by
    ext j
    rw [Finset.mem_insert, Finset.mem_filter, Finset.mem_filter, Finset.mem_range]
    by_cases hj : j = i
    . subst hj
      simp [hi]
    . rw [Function.update_of_ne hj]
      simp [hj]
  unfold taken
  rw [hinsert, Finset.card_insert_of_notMem]
  simp [hnone]

theorem taken_update_map {i : Nat} (f : (Nat → Byte) → Nat → Byte)
    : taken (Function.update page i ((page i).map f)) = taken page := by
  unfold taken
  congr 1
  apply Finset.filter_congr
  intro j _
  by_cases hj : j = i
  . rw [hj, Function.update_self, Option.isSome_map]
  . rw [Function.update_of_ne hj]

theorem taken_lt {i : Nat} (hi : i < MAX_ARG_PAGES) (hnone : page i = none) : taken page < MAX_ARG_PAGES := by
  have hsub : ((Finset.range MAX_ARG_PAGES).filter fun j => (page j).isSome) ⊂ Finset.range MAX_ARG_PAGES := by
    apply Finset.filter_ssubset.mpr
    exact ⟨i, Finset.mem_range.mpr hi, by simp [hnone]⟩
  have hcard := Finset.card_lt_card hsub
  rwa [Finset.card_range] at hcard

end Taken

-- What `copy_strings` may stop for: there are not pages enough.
def Short (n : Nat) : Exit → Prop
  | .zero _ => n < MAX_ARG_PAGES
  | _ => False

-- `l` is what has been copied, and `n` the number of pages that there are for it.
structure Copied (n : Nat) (c : Copy) (l : List Byte) : Prop where
  place : c.p.toNat + l.length = ROOM
  data : ∀ i (h : i < l.length), byteOf c.page (c.p.toNat + i) = some l[i]
  free : c.free + taken c.page = n

-- Either the next byte begins a page, or `pag` is the page for it.
def InPage (c : Copy) : Prop :=
  c.offset = 0 ∨ 0 < c.offset ∧ c.offset = c.p.toNat % PAGE_SIZE ∧ c.pag = some (c.p.toNat / PAGE_SIZE)
    ∧ (c.page (c.p.toNat / PAGE_SIZE)).isSome

variable {mem : Seg → Mem} {fromKmem n : Nat} {old_fs : Seg} {c : Copy} {l : List Byte}

theorem Copied.lt (h : Copied n c l) : c.p.toNat / PAGE_SIZE < MAX_ARG_PAGES := by
  have hplace := h.place
  unfold ROOM PAGE_SIZE MAX_ARG_PAGES at *
  omega

-- The page of `p` is there, and what has been copied is still there.
structure Found (c c' : Copy) : Prop where
  p : c'.p = c.p
  tmp : c'.tmp = c.tmp
  fs : c'.fs = c.fs
  offset : c'.offset = c.offset
  pag : c'.pag = some (c.p.toNat / PAGE_SIZE)
  page : (c'.page (c.p.toNat / PAGE_SIZE)).isSome
  bytes : ∀ x b, byteOf c.page x = some b → byteOf c'.page x = some b
  free : c'.free + taken c'.page = c.free + taken c.page

theorem byteOf_update_of_none {page : Nat → Option (Nat → Byte)} {i x : Nat} {b : Byte} (hnone : page i = none)
    (bytes : Nat → Byte) (h : byteOf page x = some b)
    : byteOf (Function.update page i (some bytes)) x = some b := by
  unfold byteOf at *
  rw [Function.update_of_ne]
  . exact h
  . intro heq
    rw [heq, hnone] at h
    cases h

theorem ensures_getFreePage {i : Nat} (hi : i < MAX_ARG_PAGES) (hnone : c.page i = none)
    (hn : c.free + taken c.page = n)
    : Ensures (getFreePage i) c
        (fun _ c' =>
          c' = { c with free := c.free - 1, page := Function.update c.page i (some fun _ => 0) } ∧ c.free ≠ 0)
        (Short n) := by
  unfold getFreePage
  apply Ensures.bind
  apply Ensures.get
  apply Ensures.ite
  . intro hzero
    apply Ensures.stop
    have hlt := taken_lt hi hnone
    change n < MAX_ARG_PAGES
    omega
  . intro hfree
    apply Ensures.modify
    exact ⟨rfl, hfree⟩

theorem ensures_findPage (hlt : c.p.toNat / PAGE_SIZE < MAX_ARG_PAGES) (hn : c.free + taken c.page = n)
    : Ensures findPage c (fun _ c' => Found c c') (Short n) := by
  unfold findPage
  apply Ensures.bind
  apply Ensures.get
  apply Ensures.ite
  . intro _
    split
    . next bytes hsome =>
      apply Ensures.modify
      refine ⟨rfl, rfl, rfl, rfl, rfl, ?_, fun _ _ h => h, rfl⟩
      change (c.page (c.p.toNat / PAGE_SIZE)).isSome
      rw [hsome]
      rfl
    . next hnone =>
      apply Ensures.bind
      apply (ensures_getFreePage hlt hnone hn).imp
      rintro _ c' ⟨rfl, hfree⟩
      apply Ensures.modify
      refine ⟨rfl, rfl, rfl, rfl, rfl, ?_, fun _ _ h => byteOf_update_of_none hnone _ h, ?_⟩
      . dsimp only
        rw [Function.update_self]
        rfl
      . dsimp only
        rw [taken_update_of_none hlt hnone]
        omega
  . intro hnot
    exact absurd hlt hnot

theorem byteOf_store {page : Nat → Option (Nat → Byte)} {p : Nat} (hpage : (page (p / PAGE_SIZE)).isSome) (b : Byte)
    (x : Nat)
    : byteOf (Function.update page (p / PAGE_SIZE)
          ((page (p / PAGE_SIZE)).map fun bytes => Function.update bytes (p % PAGE_SIZE) b)) x
        = if x = p then some b else byteOf page x := by
  obtain ⟨bytes, hbytes⟩ := Option.isSome_iff_exists.mp hpage
  unfold byteOf
  by_cases hdiv : x / PAGE_SIZE = p / PAGE_SIZE
  . rw [hdiv, Function.update_self, hbytes]
    have hsame : x % PAGE_SIZE = p % PAGE_SIZE ↔ x = p := by
      constructor
      . intro hmod
        rw [← Nat.div_add_mod x PAGE_SIZE, ← Nat.div_add_mod p PAGE_SIZE, hdiv, hmod]
      . exact congrArg (· % PAGE_SIZE)
    simp only [Option.map_some, Function.update_apply, hsame]
    split
    . rfl
    . rfl
  . rw [Function.update_of_ne hdiv, if_neg]
    exact fun heq => hdiv (congrArg (· / PAGE_SIZE) heq)

-- What `putByte` makes of the pages.
def stored (mem : Seg → Mem) (c : Copy) : Copy :=
  { c with
    page := Function.update c.page (c.p.toNat / PAGE_SIZE)
      ((c.page (c.p.toNat / PAGE_SIZE)).map fun bytes =>
        Function.update bytes (c.p.toNat % PAGE_SIZE) (mem c.fs c.tmp)) }

theorem ensures_putByte {E : Exit → Prop} {Q : Unit → Copy → Prop} (hpag : c.pag = some (c.p.toNat / PAGE_SIZE))
    (hoffset : c.offset = c.p.toNat % PAGE_SIZE) (h : Q () (stored mem c))
    : Ensures (putByte mem) c Q E := by
  unfold putByte
  apply Ensures.bind
  apply Ensures.get
  rw [hpag]
  apply Ensures.modify
  have htoNat : c.offset.toNat = c.p.toNat % PAGE_SIZE := by
    rw [hoffset]
    rfl
  rw [htoNat]
  exact h

theorem toNat_pred (hp : 0 < c.p.toNat) : (c.p - 1).toNat + 1 = c.p.toNat := by
  bv_omega

theorem copied_stored (mem : Seg → Mem) {c₁ : Copy} (h : Copied n c l) (hp : c₁.p = c.p - 1) (hpos : 0 < c.p.toNat)
    (hpage : (c₁.page (c₁.p.toNat / PAGE_SIZE)).isSome)
    (hbytes : ∀ x b, byteOf c.page x = some b → byteOf c₁.page x = some b)
    (hfree : c₁.free + taken c₁.page = n)
    : Copied n (stored mem c₁) (mem c₁.fs c₁.tmp :: l) := by
  have hpred := toNat_pred hpos
  rw [← hp] at hpred
  have hplace := h.place
  constructor
  . change c₁.p.toNat + (l.length + 1) = ROOM
    omega
  . intro i hi
    change byteOf (Function.update _ _ _) (c₁.p.toNat + i) = _
    rw [byteOf_store hpage]
    cases i with
    | zero => exact if_pos rfl
    | succ i =>
      rw [if_neg (by omega), List.getElem_cons_succ]
      apply hbytes
      rw [show c₁.p.toNat + (i + 1) = c.p.toNat + i by omega]
      exact h.data i (Nat.lt_of_succ_lt_succ hi)
  . change c₁.free + taken (Function.update _ _ _) = n
    rw [taken_update_map]
    exact hfree

theorem inPage_stored (hpag : c.pag = some (c.p.toNat / PAGE_SIZE)) (hoffset : c.offset = c.p.toNat % PAGE_SIZE)
    (hpage : (c.page (c.p.toNat / PAGE_SIZE)).isSome)
    : InPage (stored mem c) := by
  rcases Int.lt_trichotomy c.offset 0 with hneg | hzero | hpos
  . rw [hoffset] at hneg
    omega
  . exact .inl hzero
  . refine .inr ⟨hpos, hoffset, hpag, ?_⟩
    simp only [stored, Function.update_self, Option.isSome_map, hpage]

-- The page of `p` is the one that bytes are stored in.
structure Entered (c c' : Copy) : Prop where
  p : c'.p = c.p
  tmp : c'.tmp = c.tmp
  fs : c'.fs = c.fs
  offset : c'.offset = c'.p.toNat % PAGE_SIZE
  pag : c'.pag = some (c'.p.toNat / PAGE_SIZE)
  page : (c'.page (c'.p.toNat / PAGE_SIZE)).isSome
  bytes : ∀ x b, byteOf c.page x = some b → byteOf c'.page x = some b
  free : c'.free + taken c'.page = c.free + taken c.page

theorem ensures_enterPage (hlt : c.p.toNat / PAGE_SIZE < MAX_ARG_PAGES) (hn : c.free + taken c.page = n)
    (hfs : c.fs = stringSeg fromKmem)
    : Ensures (enterPage fromKmem old_fs) c (fun _ c' => Entered c c') (Short n) := by
  unfold enterPage
  apply Ensures.bind
  apply Ensures.modify
  apply Ensures.bind
  apply Ensures.modify
  apply Ensures.bind
  refine Ensures.imp (ensures_findPage hlt hn) ?_
  intro _ c' hfound
  apply Ensures.modify
  refine ⟨hfound.p, hfound.tmp, ?_, ?_, ?_, ?_, hfound.bytes, hfound.free⟩
  . change (if fromKmem = 2 then Seg.kernel else c'.fs) = c.fs
    rw [hfound.fs, hfs]
    unfold stringSeg
    split
    . rfl
    . rfl
  . change c'.offset = c'.p.toNat % PAGE_SIZE
    rw [hfound.offset, hfound.p]
  . change c'.pag = some (c'.p.toNat / PAGE_SIZE)
    rw [hfound.pag, hfound.p]
  . change (c'.page (c'.p.toNat / PAGE_SIZE)).isSome
    rw [hfound.p]
    exact hfound.page

def Copy.back (c : Copy) : Copy :=
  { c with p := c.p - 1, tmp := c.tmp - 1, offset := c.offset - 1 }

theorem entered_back (hin : InPage c) (hpos : 0 < c.p.toNat) (hoffset : ¬c.back.offset < 0)
    : Entered c.back c.back := by
  have hpred : c.back.p.toNat + 1 = c.p.toNat := toNat_pred hpos
  change ¬c.offset - 1 < 0 at hoffset
  rcases hin with hzero | ⟨_, hsame, hpag, hpage⟩
  . omega
  . have hdiv : c.back.p.toNat / PAGE_SIZE = c.p.toNat / PAGE_SIZE := by
      unfold PAGE_SIZE at *
      omega
    refine ⟨rfl, rfl, rfl, ?_, ?_, ?_, fun _ _ h => h, rfl⟩
    . change c.offset - 1 = _
      unfold PAGE_SIZE at *
      omega
    . rw [hdiv]
      exact hpag
    . rw [hdiv]
      exact hpage

theorem ensures_copyByte (h : Copied n c l) (hin : InPage c) (hfs : c.fs = stringSeg fromKmem) (hpos : 0 < c.p.toNat)
    : Ensures (copyByte mem fromKmem old_fs) c
        (fun _ c' => Copied n c' (mem c.fs (c.tmp - 1) :: l) ∧ InPage c' ∧ c'.fs = c.fs ∧ c'.tmp = c.tmp - 1)
        (Short n) := by
  have hpred : c.back.p.toNat + 1 = c.p.toNat := toNat_pred hpos
  have hlt : c.back.p.toNat / PAGE_SIZE < MAX_ARG_PAGES :=
    Nat.lt_of_le_of_lt (Nat.div_le_div_right (by omega)) h.lt
  have hput : ∀ c', Entered c.back c' → Ensures (putByte mem) c'
      (fun _ c' => Copied n c' (mem c.fs (c.tmp - 1) :: l) ∧ InPage c' ∧ c'.fs = c.fs ∧ c'.tmp = c.tmp - 1)
      (Short n) := by
    intro c' hentered
    apply ensures_putByte hentered.pag hentered.offset
    refine ⟨?_, inPage_stored hentered.pag hentered.offset hentered.page, hentered.fs, hentered.tmp⟩
    have hcopied := copied_stored mem h hentered.p hpos hentered.page hentered.bytes
      (hentered.free.trans h.free)
    rw [hentered.fs, hentered.tmp] at hcopied
    exact hcopied
  unfold copyByte
  apply Ensures.bind
  apply Ensures.modify
  apply Ensures.bind
  apply Ensures.get
  apply Ensures.bind
  apply Ensures.ite
  . intro _
    exact Ensures.imp (ensures_enterPage hlt h.free hfs) fun _ c' => hput c'
  . intro hoffset
    apply Ensures.pure
    exact hput _ (entered_back hin hpos hoffset)

theorem ensures_copyBytes {str : List Byte} {tmp : Address} (h : Copied n c l) (hin : InPage c)
    (hfs : c.fs = stringSeg fromKmem) (hroom : str.length + l.length ≤ ROOM)
    (htmp : c.tmp = tmp + BitVec.ofNat 32 str.length) (hstr : Holds (mem c.fs) tmp str)
    : Ensures (copyBytes mem fromKmem old_fs str.length) c
        (fun _ c' => Copied n c' (str ++ l) ∧ InPage c' ∧ c'.fs = c.fs) (Short n) := by
  induction str using List.reverseRecOn generalizing c l with
  | nil => exact Ensures.pure ⟨h, hin, rfl⟩
  | append_singleton str b ih =>
    rw [List.length_append, List.length_singleton] at *
    rw [holds_append, holds_singleton] at hstr
    have hplace := h.place
    have hprev : c.tmp - 1 = tmp + BitVec.ofNat 32 str.length := by
      rw [htmp, BitVec.ofNat_add, ← BitVec.add_assoc]
      exact BitVec.add_sub_cancel _ _
    unfold copyBytes
    apply Ensures.bind
    refine Ensures.imp (ensures_copyByte h hin hfs (by omega)) ?_
    rintro _ c' ⟨hcopied, hin', hfs', htmp'⟩
    rw [hprev, hstr.right] at hcopied
    have hlength : str.length + (b :: l).length ≤ ROOM := by
      rw [List.length_cons]
      omega
    have hrest := ih hcopied hin' (hfs'.trans hfs) hlength (htmp'.trans hprev) (hfs' ▸ hstr.left)
    rw [List.append_assoc, List.singleton_append]
    rw [hfs'] at hrest
    exact hrest

theorem ensures_copyString_of {call : Call} {i : Nat} {str : CString} {Q : Unit → Copy → Prop} {E : Exit → Prop}
    (hstr : StringAt mem call i str) (hfs : c.fs = stringSeg call.fromKmem) (hold : old_fs = .user)
    (h : Ensures (copyBytes mem call.fromKmem old_fs str.bytes.length)
      { c with
        tmp := getLong (mem (arraySeg call.fromKmem)) (call.argv + BitVec.ofNat 32 (4 * i))
          + BitVec.ofNat 32 str.bytes.length } Q E)
    : Ensures (copyString mem call.fromKmem old_fs call.argv i) c Q E := by
  obtain ⟨hne, hholds⟩ := hstr
  have harray : (if call.fromKmem = 1 then Seg.kernel else c.fs) = arraySeg call.fromKmem := by
    rw [hfs]
    unfold arraySeg stringSeg
    split
    . next h1 => rw [if_pos (.inl h1)]
    . next h1 => simp only [h1, false_or]
  have hstring : (if call.fromKmem = 1 then old_fs else arraySeg call.fromKmem) = c.fs := by
    rw [hfs, hold]
    unfold arraySeg stringSeg
    split
    . next h1 =>
      rw [h1]
      rfl
    . next h1 => simp only [h1, false_or]
  have hscan : scan (mem c.fs) ADDRESSES
      (getLong (mem (arraySeg call.fromKmem)) (call.argv + BitVec.ofNat 32 (4 * i))) = some str.bytes.length := by
    unfold CString.bytes at *
    rw [List.length_append, List.length_singleton] at *
    apply scan_of_holds str.nonzero (hfs ▸ hholds)
    exact length_lt_of_holds str.nonzero hholds
  unfold copyString
  apply Ensures.bind
  apply Ensures.modify
  apply Ensures.bind
  apply Ensures.get
  dsimp only
  rw [harray]
  generalize getLong (mem (arraySeg call.fromKmem)) (call.argv + BitVec.ofNat 32 (4 * i)) = tmp at *
  apply Ensures.ite
  . intro hzero
    exact absurd hzero hne
  . intro _
    apply Ensures.bind
    apply Ensures.modify
    apply Ensures.bind
    apply Ensures.get
    dsimp only
    rw [hstring, hscan]
    dsimp only
    apply Ensures.ite
    . intro hneg
      exact absurd hneg BitVec.not_lt_zero
    . intro _
      apply Ensures.bind
      apply Ensures.modify
      exact h

theorem ensures_copyString {call : Call} {i : Nat} {str : CString} (h : Copied n c l) (hin : InPage c)
    (hstr : StringAt mem call i str) (hfs : c.fs = stringSeg call.fromKmem) (hold : old_fs = .user)
    (hroom : str.bytes.length + l.length ≤ ROOM)
    : Ensures (copyString mem call.fromKmem old_fs call.argv i) c
        (fun _ c' => Copied n c' (str.bytes ++ l) ∧ InPage c' ∧ c'.fs = c.fs) (Short n) := by
  have hcopied : Copied n
      { c with
        tmp := getLong (mem (arraySeg call.fromKmem)) (call.argv + BitVec.ofNat 32 (4 * i))
          + BitVec.ofNat 32 str.bytes.length } l :=
    ⟨h.place, h.data, h.free⟩
  apply ensures_copyString_of hstr hfs hold
  exact ensures_copyBytes hcopied hin hfs hroom rfl (hfs ▸ hstr.right)

theorem image_append (strs strs' : List CString) : image (strs ++ strs') = image strs ++ image strs' :=
  List.flatMap_append

theorem image_singleton (str : CString) : image [str] = str.bytes :=
  List.flatMap_singleton _ _

theorem ensures_copyArgs {call : Call} {strs : List CString} {argc : Nat} (h : Copied n c l) (hin : InPage c)
    (hstrs : ∀ i (h : i < strs.length), StringAt mem call i strs[i]) (hargc : argc ≤ strs.length)
    (hfs : c.fs = stringSeg call.fromKmem) (hold : old_fs = .user)
    (hroom : (image (strs.take argc)).length + l.length ≤ ROOM)
    : Ensures (copyArgs mem call.fromKmem old_fs call.argv argc) c
        (fun _ c' => Copied n c' (image (strs.take argc) ++ l) ∧ c'.fs = c.fs) (Short n) := by
  induction argc generalizing c l with
  | zero => exact Ensures.pure ⟨h, rfl⟩
  | succ argc ih =>
    have htake : strs.take (argc + 1) = strs.take argc ++ [strs[argc]] := List.take_succ_eq_append_getElem hargc
    rw [htake, image_append, image_singleton, List.length_append] at hroom
    rw [htake, image_append, image_singleton]
    unfold copyArgs
    apply Ensures.bind
    refine Ensures.imp (ensures_copyString h hin (hstrs argc hargc) hfs hold (by omega)) ?_
    rintro _ c' ⟨hcopied, hin', hfs'⟩
    have hlength : (image (strs.take argc)).length + (strs[argc].bytes ++ l).length ≤ ROOM := by
      rw [List.length_append]
      omega
    rw [List.append_assoc]
    rw [← hfs']
    exact ih hcopied hin' (Nat.le_of_succ_le hargc) (hfs'.trans hfs) hlength

structure Collected (n : Nat) (pages : ArgPages) (p : Address) (l : List Byte) : Prop where
  copied : Copied n (.start pages p) l
  fs : pages.fs = .user

theorem ensures_copyAll {call : Call} {strs : List CString} {pages : ArgPages} {p : Address}
    (h : Collected n pages p l) (hgiven : call.Given mem strs) (hroom : (image strs).length + l.length ≤ ROOM)
    : Ensures (copyAll mem pages.fs call) (.start pages p)
        (fun _ c' => Collected n c'.toArgPages c'.p (image strs ++ l)) (Short n) := by
  have htake : strs.take call.argc = strs := by
    rw [hgiven.argc]
    exact List.take_length
  unfold copyAll
  apply Ensures.bind
  apply Ensures.modify
  apply Ensures.bind
  have hstart : Copied n { Copy.start pages p with fs := if call.fromKmem = 2 then .kernel else pages.fs } l :=
    ⟨h.copied.place, h.copied.data, h.copied.free⟩
  have hfs : (if call.fromKmem = 2 then Seg.kernel else pages.fs) = stringSeg call.fromKmem := by
    rw [h.fs]
    rfl
  refine Ensures.imp
    (ensures_copyArgs hstart (.inl rfl) hgiven.string (Nat.le_of_eq hgiven.argc) hfs h.fs (htake.symm ▸ hroom)) ?_
  rintro _ c' ⟨hcopied, hfs'⟩
  apply Ensures.modify
  rw [htake] at hcopied
  refine ⟨⟨hcopied.place, hcopied.data, hcopied.free⟩, ?_⟩
  change (if call.fromKmem = 2 then pages.fs else c'.fs) = .user
  rw [hfs', h.fs]
  change (if call.fromKmem = 2 then Seg.user else if call.fromKmem = 2 then Seg.kernel else pages.fs) = .user
  rw [h.fs]
  split
  . rfl
  . rfl

-- Either there are not enough pages, or `l` has been copied.
def Outcome (n : Nat) (l : List Byte) (r : ArgPages × Address) : Prop :=
  r.snd = 0 ∧ n < MAX_ARG_PAGES ∨ Collected n r.fst r.snd l

theorem copyStrings_outcome {call : Call} {strs : List CString} {pages : ArgPages} {p : Address}
    (h : Collected n pages p l) (hgiven : call.Given mem strs) (hroom : (image strs).length + l.length ≤ ROOM)
    : ∃ r, copyStrings mem call pages p = .ok r ∧ Outcome n (image strs ++ l) r := by
  unfold copyStrings
  split
  . next hzero =>
    have hplace := h.copied.place
    change p.toNat + l.length = ROOM at hplace
    rw [hzero] at hplace
    have hnil : image strs = [] := by
      rw [← List.length_eq_zero_iff]
      change 0 + l.length = ROOM at hplace
      omega
    refine ⟨_, rfl, .inr ?_⟩
    rw [hnil, ← hzero]
    exact h
  . have hall := ensures_copyAll h hgiven hroom
    cases hx : copyAll mem pages.fs call (.start pages p) with
    | ok x => exact ⟨_, rfl, .inr (hall.ok hx)⟩
    | error e =>
      have hshort := hall.error hx
      cases e with
      | zero pages' => exact ⟨_, rfl, .inl ⟨rfl, hshort⟩⟩
      | _ => exact hshort.elim

theorem copyCalls_zero (calls : List Call) (pages : ArgPages) : copyCalls mem calls pages 0 = .ok (pages, 0) := by
  induction calls with
  | nil => rfl
  | cons call calls ih => exact ih

theorem copyCalls_outcome {calls : List Call} {strss : List (List CString)} {pages : ArgPages} {p : Address}
    (h : Collected n pages p l) (hgiven : List.Forall₂ (Call.Given mem) calls strss)
    (hroom : (image strss.reverse.flatten).length + l.length ≤ ROOM)
    : ∃ r, copyCalls mem calls pages p = .ok r ∧ Outcome n (image strss.reverse.flatten ++ l) r := by
  induction hgiven generalizing pages p l with
  | nil => exact ⟨_, rfl, .inr h⟩
  | @cons call strs calls strss hcall _ ih =>
    have hflatten : (strs :: strss).reverse.flatten = strss.reverse.flatten ++ strs := by
      simp
    rw [hflatten, image_append, List.length_append] at hroom
    rw [hflatten, image_append]
    obtain ⟨⟨pages', p'⟩, hr, houtcome⟩ := copyStrings_outcome h hcall (by omega)
    have hstep : copyCalls mem (call :: calls) pages p = copyCalls mem calls pages' p' := by
      rw [copyCalls, hr]
      rfl
    rw [hstep]
    rcases houtcome with ⟨hzero, hshort⟩ | hcollected
    . change p' = 0 at hzero
      rw [hzero, copyCalls_zero]
      exact ⟨_, rfl, .inl ⟨rfl, hshort⟩⟩
    . rw [List.append_assoc]
      apply ih hcollected
      rw [List.length_append]
      omega

end Exec
end OS
