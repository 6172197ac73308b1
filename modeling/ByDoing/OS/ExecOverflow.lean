import ByDoing.OS.ExecStrings

namespace OS
namespace Exec

open ByteMemory Machine

def Overflows (n : Nat) : Exit → Prop
  | .zero _ => n < MAX_ARG_PAGES
  | .index => MAX_ARG_PAGES ≤ n
  | _ => False

def total (strss : List (List CString)) : Nat :=
  (strss.map fun strs => (image strs).length).sum

variable {mem : Seg → Mem} {fromKmem n : Nat} {old_fs : Seg} {c : Copy} {l : List Byte}

theorem overflows_of_short {e : Exit} (h : Short n e) : Overflows n e := by
  cases e with
  | zero pages => exact h
  | _ => exact h.elim

theorem pages_of_full (h : Copied n c l) (hp : c.p.toNat = 0) : MAX_ARG_PAGES ≤ n := by
  have hplace := h.place
  have hall : ∀ i, i < MAX_ARG_PAGES → (c.page i).isSome := by
    intro i hi
    have hlt : PAGE_SIZE * i < l.length := by
      unfold ROOM PAGE_SIZE MAX_ARG_PAGES at *
      omega
    have hdata := h.data (PAGE_SIZE * i) hlt
    rw [hp, Nat.zero_add] at hdata
    unfold byteOf at hdata
    rw [Nat.mul_div_cancel_left i (by decide)] at hdata
    cases hpage : c.page i with
    | some bytes => rfl
    | none =>
      rw [hpage] at hdata
      cases hdata
  have htaken : taken c.page = MAX_ARG_PAGES := by
    unfold taken
    rw [Finset.filter_true_of_mem, Finset.card_range]
    intro i hi
    exact hall i (Finset.mem_range.mp hi)
  have hfree := h.free
  omega

theorem ensures_copyByte_full {Q : Unit → Copy → Prop} (h : Copied n c l) (hin : InPage c) (hp : c.p.toNat = 0)
    : Ensures (copyByte mem fromKmem old_fs) c Q (Overflows n) := by
  have hzero : c.offset = 0 := by
    rcases hin with hzero | ⟨hpos, hoffset, _⟩
    . exact hzero
    . rw [hp] at hoffset
      exact hoffset
  have hback : ¬ (c.p - 1).toNat / PAGE_SIZE < MAX_ARG_PAGES := by
    have hlast : (c.p - 1).toNat = 4294967295 := by bv_omega
    rw [hlast]
    decide
  unfold copyByte
  apply Ensures.bind
  apply Ensures.modify
  apply Ensures.bind
  apply Ensures.get
  apply Ensures.bind
  dsimp only
  rw [hzero, if_pos (by decide)]
  unfold enterPage
  apply Ensures.bind
  apply Ensures.modify
  apply Ensures.bind
  apply Ensures.modify
  apply Ensures.bind
  unfold findPage
  apply Ensures.bind
  apply Ensures.get
  dsimp only
  rw [if_neg hback]
  apply Ensures.stop
  exact pages_of_full h hp

theorem ensures_copyBytes_full {Q : Unit → Copy → Prop} {len : Nat} (h : Copied n c l) (hin : InPage c)
    (hfs : c.fs = stringSeg fromKmem) (hfull : ROOM < len + l.length)
    : Ensures (copyBytes mem fromKmem old_fs len) c Q (Overflows n) := by
  induction len generalizing c l with
  | zero =>
    have hplace := h.place
    omega
  | succ len ih =>
    unfold copyBytes
    apply Ensures.bind
    by_cases hp : c.p.toNat = 0
    . exact ensures_copyByte_full h hin hp
    . refine Ensures.mono (ensures_copyByte h hin hfs (by omega)) ?_ fun e => overflows_of_short
      rintro _ c' ⟨hcopied, hin', hfs', _⟩
      apply ih hcopied hin' (hfs'.trans hfs)
      rw [List.length_cons]
      omega

theorem ensures_copyString_full {call : Call} {i : Nat} {str : CString} {Q : Unit → Copy → Prop} (h : Copied n c l)
    (hin : InPage c) (hstr : StringAt mem call i str) (hfs : c.fs = stringSeg call.fromKmem) (hold : old_fs = .user)
    (hfull : ROOM < str.bytes.length + l.length)
    : Ensures (copyString mem call.fromKmem old_fs call.argv i) c Q (Overflows n) := by
  apply ensures_copyString_of hstr hfs hold
  have hcopied : Copied n
      { c with
        tmp := getLong (mem (arraySeg call.fromKmem)) (call.argv + BitVec.ofNat 32 (4 * i))
          + BitVec.ofNat 32 str.bytes.length } l :=
    ⟨h.place, h.data, h.free⟩
  exact ensures_copyBytes_full hcopied hin hfs hfull

theorem ensures_copyArgs_full {call : Call} {strs : List CString} {argc : Nat} {Q : Unit → Copy → Prop}
    (h : Copied n c l) (hin : InPage c) (hstrs : ∀ i (h : i < strs.length), StringAt mem call i strs[i])
    (hargc : argc ≤ strs.length) (hfs : c.fs = stringSeg call.fromKmem) (hold : old_fs = .user)
    (hfull : ROOM < (image (strs.take argc)).length + l.length)
    : Ensures (copyArgs mem call.fromKmem old_fs call.argv argc) c Q (Overflows n) := by
  induction argc generalizing c l with
  | zero =>
    have hplace := h.place
    change ROOM < 0 + l.length at hfull
    omega
  | succ argc ih =>
    have htake : strs.take (argc + 1) = strs.take argc ++ [strs[argc]] := List.take_succ_eq_append_getElem hargc
    rw [htake, image_append, image_singleton, List.length_append] at hfull
    unfold copyArgs
    apply Ensures.bind
    by_cases hroom : strs[argc].bytes.length + l.length ≤ ROOM
    . refine Ensures.mono (ensures_copyString h hin (hstrs argc hargc) hfs hold hroom) ?_ fun e => overflows_of_short
      rintro _ c' ⟨hcopied, hin', hfs'⟩
      apply ih hcopied hin' (Nat.le_of_succ_le hargc) (hfs'.trans hfs)
      rw [List.length_append]
      omega
    . exact ensures_copyString_full h hin (hstrs argc hargc) hfs hold (Nat.lt_of_not_le hroom)

theorem ensures_copyAll_full {call : Call} {strs : List CString} {pages : ArgPages} {p : Address}
    {Q : Unit → Copy → Prop} (h : Collected n pages p l) (hgiven : call.Given mem strs)
    (hfull : ROOM < (image strs).length + l.length)
    : Ensures (copyAll mem pages.fs call) (.start pages p) Q (Overflows n) := by
  have htake : strs.take call.argc = strs := by
    rw [hgiven.argc]
    exact List.take_length
  have hstart : Copied n { Copy.start pages p with fs := if call.fromKmem = 2 then .kernel else pages.fs } l :=
    ⟨h.copied.place, h.copied.data, h.copied.free⟩
  have hfs : (if call.fromKmem = 2 then Seg.kernel else pages.fs) = stringSeg call.fromKmem := by
    rw [h.fs]
    rfl
  unfold copyAll
  apply Ensures.bind
  apply Ensures.modify
  apply Ensures.bind
  exact ensures_copyArgs_full hstart (.inl rfl) hgiven.string (Nat.le_of_eq hgiven.argc) hfs h.fs
    (htake.symm ▸ hfull)

theorem copyStrings_full {call : Call} {strs : List CString} {pages : ArgPages} {p : Address}
    (h : Collected n pages p l) (hgiven : call.Given mem strs) (hp : p ≠ 0)
    (hfull : ROOM < (image strs).length + l.length)
    : copyStrings mem call pages p = .error .index ∧ MAX_ARG_PAGES ≤ n
        ∨ ∃ pages', copyStrings mem call pages p = .ok (pages', 0) ∧ n < MAX_ARG_PAGES := by
  have hall : Ensures (copyAll mem pages.fs call) (.start pages p) (fun _ _ => False) (Overflows n) :=
    ensures_copyAll_full h hgiven hfull
  unfold copyStrings
  rw [if_neg hp]
  cases hx : copyAll mem pages.fs call (.start pages p) with
  | ok x => exact (hall.ok hx).elim
  | error e =>
    have hoverflows := hall.error hx
    cases e with
    | zero pages' =>
      right
      exact ⟨pages', rfl, hoverflows⟩
    | index =>
      left
      exact ⟨rfl, hoverflows⟩
    | _ => exact hoverflows.elim

-- The space is full, so that `p` is 0, when the first `k` calls have copied their strings.
def FullAt (strss : List (List CString)) (size : Nat) : Prop :=
  ∃ k, total (strss.take k) + size = ROOM

theorem total_cons (strs : List CString) (strss : List (List CString))
    : total (strs :: strss) = (image strs).length + total strss :=
  rfl

theorem fullAt_zero (strss : List (List CString)) {size : Nat} (h : size = ROOM) : FullAt strss size := by
  refine ⟨0, ?_⟩
  rw [h]
  exact Nat.zero_add ROOM

theorem fullAt_cons_iff {strs : List CString} {strss : List (List CString)} {size : Nat} (h : size ≠ ROOM)
    : FullAt (strs :: strss) size ↔ FullAt strss ((image strs).length + size) := by
  constructor
  . rintro ⟨k, hk⟩
    cases k with
    | zero =>
      change 0 + size = ROOM at hk
      omega
    | succ k =>
      rw [List.take_succ_cons, total_cons] at hk
      exact ⟨k, by omega⟩
  . rintro ⟨k, hk⟩
    refine ⟨k + 1, ?_⟩
    rw [List.take_succ_cons, total_cons]
    omega

theorem copyCalls_full {calls : List Call} {strss : List (List CString)} {pages : ArgPages} {p : Address}
    (h : Collected n pages p l) (hgiven : List.Forall₂ (Call.Given mem) calls strss)
    (hfull : ROOM < total strss + l.length)
    : copyCalls mem calls pages p = .error .index ∧ ¬ (n < MAX_ARG_PAGES ∨ FullAt strss l.length)
        ∨ (∃ pages', copyCalls mem calls pages p = .ok (pages', 0))
          ∧ (n < MAX_ARG_PAGES ∨ FullAt strss l.length) := by
  induction hgiven generalizing pages p l with
  | nil =>
    have hplace : p.toNat + l.length = ROOM := h.copied.place
    change ROOM < 0 + l.length at hfull
    omega
  | @cons call strs calls strss hcall _ ih =>
    have hplace : p.toNat + l.length = ROOM := h.copied.place
    by_cases hp : p = 0
    . right
      subst hp
      exact ⟨⟨pages, copyCalls_zero _ _⟩, .inr (fullAt_zero _ (by simpa using hplace))⟩
    . have hl : l.length ≠ ROOM := by
        intro heq
        apply hp
        apply BitVec.eq_of_toNat_eq
        change p.toNat = 0
        omega
      have hstep : ∀ pages' p', copyStrings mem call pages p = .ok (pages', p') →
          copyCalls mem (call :: calls) pages p = copyCalls mem calls pages' p' := by
        intro pages' p' hr
        rw [copyCalls, hr]
        rfl
      rw [total_cons] at hfull
      rw [fullAt_cons_iff hl]
      by_cases hroom : (image strs).length + l.length ≤ ROOM
      . obtain ⟨⟨pages', p'⟩, hr, houtcome⟩ := copyStrings_outcome h hcall hroom
        rw [hstep _ _ hr]
        rcases houtcome with ⟨hzero, hshort⟩ | hcollected
        . right
          obtain rfl : p' = 0 := hzero
          exact ⟨⟨pages', copyCalls_zero _ _⟩, .inl hshort⟩
        . rw [← List.length_append]
          apply ih hcollected
          rw [List.length_append]
          omega
      . have hnot : ¬ FullAt strss ((image strs).length + l.length) := by
          rintro ⟨k, hk⟩
          omega
        rcases copyStrings_full h hcall hp (Nat.lt_of_not_le hroom) with ⟨hr, hn⟩ | ⟨pages', hr, hn⟩
        . left
          refine ⟨?_, not_or.mpr ⟨Nat.not_lt.mpr hn, hnot⟩⟩
          rw [copyCalls, hr]
          rfl
        . right
          rw [hstep _ _ hr]
          exact ⟨⟨pages', copyCalls_zero _ _⟩, .inl hn⟩

variable {data : Mem} {free : Nat} {env : Call} {args : List Call} {envs : List CString}
  {strss : List (List CString)}

-- No index that `page[]` does not have is used, and `do_execve` returns `-ENOMEM` if there is no room for the strings.
def Guarded (mem : Seg → Mem) (data : Mem) (free : Nat) (env : Call) (args : List Call) (size : Nat) : Prop :=
  copyCalls mem (env :: args) { page := fun _ => none, free, fs := .user } (BitVec.ofNat 32 ROOM) ≠ .error .index
    ∧ (ROOM < size → execStrings mem data free env args = .ok none)

theorem length_image_reverse (strss : List (List CString)) : (image strss.reverse.flatten).length = total strss := by
  induction strss with
  | nil => rfl
  | cons strs strss ih =>
    have hflatten : (strs :: strss).reverse.flatten = strss.reverse.flatten ++ strs := by
      simp
    rw [hflatten, image_append, List.length_append, ih, total_cons, Nat.add_comm]

/--
The strings of the calls are guarded exactly if there is room for them, or there are not pages enough to fill the room,
or they fill it exactly between two calls.
-/
theorem guarded_iff (henv : env.Given mem envs) (hargs : List.Forall₂ (Call.Given mem) args strss)
    : Guarded mem data free env args (total (envs :: strss))
        ↔
      (total (envs :: strss) ≤ ROOM ∨ free < MAX_ARG_PAGES ∨ FullAt (envs :: strss) 0) := by
  unfold Guarded
  by_cases hroom : total (envs :: strss) ≤ ROOM
  . have hlength := length_image_reverse (envs :: strss)
    have hall := copyCalls_outcome (collected_start free) (.cons henv hargs) (by rw [hlength]; exact hroom)
    obtain ⟨r, hr, _⟩ := hall
    rw [hr]
    exact ⟨fun _ => .inl hroom, fun _ => ⟨nofun, fun hlt => absurd hlt (Nat.not_lt.mpr hroom)⟩⟩
  . rcases copyCalls_full (collected_start free) (.cons henv hargs) (Nat.lt_of_not_le hroom) with
      ⟨hr, hnot⟩ | ⟨⟨pages', hr⟩, hfull⟩
    . constructor
      . intro hguarded
        exact absurd hr hguarded.left
      . rintro (hle | hfull)
        . exact absurd hle hroom
        . exact absurd hfull hnot
    . constructor
      . intro _
        exact .inr hfull
      . intro _
        rw [hr]
        exact ⟨nofun, fun _ => execStrings_of_full hr⟩

/--
Two strings as the environment and two as the arguments, which go over the boundaries of four pages.
-/
theorem guarded_letters
    : Guarded (fun _ => twoStrings (letters 5000) (letters 3000)) (fun _ => 0) 32 twoCall [twoCall]
        (total [[letters 5000, letters 3000], [letters 5000, letters 3000]]) := by
  have hlong : (letters 5000).bytes.length = 5001 := length_letters 5000
  have hshort : (letters 3000).bytes.length = 3001 := length_letters 3000
  have himage : (image [letters 5000, letters 3000]).length = 8002 := by
    change (image ([letters 5000] ++ [letters 3000])).length = 8002
    simp only [image_append, image_singleton, List.length_append, hlong, hshort]
  have hgiven := given_twoCall (show (letters 5000).bytes.length ≤ MAX_ARG_PAGES * PAGE_SIZE by rw [hlong]; decide)
    (show (letters 3000).bytes.length ≤ MAX_ARG_PAGES * PAGE_SIZE by rw [hshort]; decide)
  apply (guarded_iff hgiven (.cons hgiven .nil)).mpr
  left
  rw [total_cons, total_cons, himage]
  decide

/--
One string with a byte more than there is room for.
-/
theorem not_guarded_letters
    : oneCall.Given (fun _ => oneString (letters 131068)) [letters 131068]
        ∧ noCall.Given (fun _ => oneString (letters 131068)) []
        ∧ ¬ Guarded (fun _ => oneString (letters 131068)) (fun _ => 0) 32 oneCall [noCall]
            (total [[letters 131068], []]) := by
  have hlength : (letters 131068).bytes.length = ROOM + 1 := by
    rw [length_letters]
    rfl
  have hpages : ROOM + 1 ≤ MAX_ARG_PAGES * PAGE_SIZE := by decide
  have hgiven := given_oneCall (show (letters 131068).bytes.length ≤ MAX_ARG_PAGES * PAGE_SIZE by omega)
  have htotal : total [[letters 131068], []] = ROOM + 1 := by
    rw [total_cons, image_singleton, hlength]
    rfl
  refine ⟨hgiven, given_noCall, ?_⟩
  rintro ⟨hindex, _⟩
  have hfull := copyCalls_full (collected_start 32) (.cons hgiven (.cons given_noCall .nil))
    (by rw [htotal]; exact Nat.lt_succ_self ROOM)
  have hnot : ¬ FullAt [[letters 131068], []] 0 := by
    rw [fullAt_cons_iff (by decide), image_singleton, hlength]
    rintro ⟨k, hk⟩
    omega
  rcases hfull with ⟨hr, _⟩ | ⟨_, hshort | hfull⟩
  . exact hindex hr
  . exact absurd hshort (Nat.lt_irrefl MAX_ARG_PAGES)
  . exact hnot hfull

end Exec
end OS
