import ByDoing.OS.ExecOverflow

namespace OS
namespace Exec
namespace Ledger

-- The words from `page[]` on that are not 0, and the number of free pages; `stray` is set when bytes are written where a
-- word behind the array points to.
structure Pages where
  page : Nat → Bool
  free : Nat
  stray : Bool

-- The variables of `copy_strings` that matter for its pages.
structure Copy extends Pages where
  p : Address
  offset : Int

-- The page of `p`. What is left when `copy_strings` returns 0 are the pages.
def findPage (c : Copy) : Except Pages Copy :=
  let i := c.p.toNat / PAGE_SIZE
  if c.page i then
    .ok { c with stray := c.stray || decide (MAX_ARG_PAGES ≤ i) }
  else if c.free = 0 then
    .error c.toPages
  else
    .ok { c with page := Function.update c.page i true, free := c.free - 1 }

def copyByte (c : Copy) : Except Pages Copy :=
  let c := { c with p := c.p - 1, offset := c.offset - 1 }
  if c.offset < 0 then findPage { c with offset := c.p.toNat % PAGE_SIZE } else .ok c

def copyBytes : Nat → Copy → Except Pages Copy
  | 0, c => .ok c
  | len + 1, c => do
    let c ← copyByte c
    copyBytes len c

def copyString (str : CString) (c : Copy) : Except Pages Copy :=
  if c.p - BitVec.ofNat 32 str.bytes.length < 0 then .error c.toPages else copyBytes str.bytes.length c

def copyArgs : List CString → Copy → Except Pages Copy
  | [], c => .ok c
  | str :: strs, c => do
    let c ← copyArgs strs c
    copyString str c

def copyStrings (strs : List CString) (pages : Pages) (p : Address) : Pages × Address :=
  if p = 0 then
    (pages, 0)
  else
    match copyArgs strs { pages with p, offset := 0 } with
    | .ok c => (c.toPages, c.p)
    | .error pages => (pages, 0)

def copyCalls : List (List CString) → Pages → Address → Pages × Address
  | [], pages, p => (pages, p)
  | strs :: strss, pages, p =>
    let r := copyStrings strs pages p
    copyCalls strss r.fst r.snd

-- How many pages `page[]` has.
def taken (page : Nat → Bool) : Nat :=
  (List.range MAX_ARG_PAGES).countP page

-- What `do_execve` does at `exec_error1`.
def Pages.release (pages : Pages) : Pages :=
  { pages with free := pages.free + taken pages.page }

-- The word that comes after the array when `p` is counted down from 0.
def BEHIND : Nat :=
  1048575

section Taken

variable {page : Nat → Bool} {i : Nat}

theorem countP_update (h : page i = false) (n : Nat)
    : (List.range n).countP (Function.update page i true)
        = (List.range n).countP page + if i < n then 1 else 0 := by
  induction n with
  | zero => rfl
  | succ n ih =>
    rw [List.range_succ, List.countP_append, List.countP_append, ih, List.countP_singleton, List.countP_singleton]
    by_cases hi : i = n
    . subst hi
      rw [Function.update_self, h, if_neg (Nat.lt_irrefl i), if_pos (Nat.lt_succ_self i)]
      rfl
    . rw [Function.update_of_ne (Ne.symm hi)]
      have hlt : i < n + 1 ↔ i < n := by omega
      simp only [hlt]
      omega

theorem taken_update (h : page i = false) (hi : i < MAX_ARG_PAGES)
    : taken (Function.update page i true) = taken page + 1 := by
  unfold taken
  rw [countP_update h, if_pos hi]

theorem taken_update_behind (h : page i = false) (hi : MAX_ARG_PAGES ≤ i)
    : taken (Function.update page i true) = taken page := by
  unfold taken
  rw [countP_update h, if_neg (Nat.not_lt.mpr hi), Nat.add_zero]

theorem taken_eq_iff : taken page = MAX_ARG_PAGES ↔ ∀ i < MAX_ARG_PAGES, page i = true := by
  have hcount := @List.countP_eq_length _ (List.range MAX_ARG_PAGES) page
  rw [List.length_range] at hcount
  unfold taken
  rw [hcount]
  simp only [List.mem_range]

theorem taken_le (page : Nat → Bool) : taken page ≤ MAX_ARG_PAGES := by
  have hle := @List.countP_le_length _ page (List.range MAX_ARG_PAGES)
  rw [List.length_range] at hle
  exact hle

theorem taken_lt (h : page i = false) (hi : i < MAX_ARG_PAGES) : taken page < MAX_ARG_PAGES := by
  apply Nat.lt_of_le_of_ne (taken_le page)
  intro heq
  rw [taken_eq_iff.mp heq i hi] at h
  cases h

end Taken

-- All pages are free or in `page[]`.
structure Balanced (n : Nat) (pages : Pages) : Prop where
  free : pages.free + taken pages.page = n
  stray : pages.stray = false

def Spoiled (n : Nat) (pages : Pages) : Prop :=
  pages.free + taken pages.page < n ∨ pages.stray = true

def Short (n : Nat) (word : Bool) : Prop :=
  n < MAX_ARG_PAGES ∨ n = MAX_ARG_PAGES ∧ word = false

-- So many bytes have been copied, of `n` pages.
structure Copied (n : Nat) (word : Bool) (c : Copy) (size : Nat) : Prop where
  place : c.p.toNat + size = ROOM
  page : ∀ i < MAX_ARG_PAGES, 0 < size → c.p.toNat / PAGE_SIZE ≤ i → c.page i = true
  behind : c.page BEHIND = word
  balanced : Balanced n c.toPages
  offset : c.offset = 0 ∨ 0 < c.offset ∧ c.offset = c.p.toNat % PAGE_SIZE ∧ 0 < size

def After (n : Nat) (word : Bool) (size : Nat) : Except Pages Copy → Prop
  | .ok c => Copied n word c size ∨ Spoiled n c.toPages ∧ ROOM < size ∧ ¬Short n word
  | .error pages =>
    Balanced n pages ∧ Short n word ∨ Spoiled n pages ∧ ROOM < size ∧ ¬Short n word

variable {n size len : Nat} {word : Bool} {c : Copy} {pages : Pages} {p : Address}

def Ends (P : Pages → Prop) : Except Pages Copy → Prop
  | .ok c => P c.toPages
  | .error pages => P pages

theorem findPage_spoiled (h : Spoiled n c.toPages) : Ends (Spoiled n) (findPage c) := by
  unfold findPage
  dsimp only
  split
  . rcases h with hless | hstray
    . exact .inl hless
    . right
      show (c.stray || _) = true
      rw [hstray, Bool.true_or]
  . next hpage =>
    split
    . exact h
    . next hfree =>
      rcases h with hless | hstray
      . left
        show c.free - 1 + taken (Function.update c.page _ true) < n
        have hpage := Bool.eq_false_of_not_eq_true hpage
        rcases Nat.lt_or_ge (c.p.toNat / PAGE_SIZE) MAX_ARG_PAGES with hlt | hge
        . rw [taken_update hpage hlt]
          omega
        . rw [taken_update_behind hpage hge]
          omega
      . exact .inr hstray

theorem copyByte_spoiled (h : Spoiled n c.toPages) : Ends (Spoiled n) (copyByte c) := by
  unfold copyByte
  dsimp only
  split
  . exact findPage_spoiled h
  . exact h

theorem copyBytes_spoiled (h : Spoiled n c.toPages) : Ends (Spoiled n) (copyBytes len c) := by
  induction len generalizing c with
  | zero => exact h
  | succ len ih =>
    have hbyte := copyByte_spoiled h
    unfold copyBytes
    cases hx : copyByte c with
    | ok c' =>
      rw [hx] at hbyte
      exact ih hbyte
    | error pages =>
      rw [hx] at hbyte
      exact hbyte

theorem copyString_spoiled {str : CString} (h : Spoiled n c.toPages) : Ends (Spoiled n) (copyString str c) := by
  unfold copyString
  split
  . exact h
  . exact copyBytes_spoiled h

theorem copyArgs_spoiled {strs : List CString} (h : Spoiled n c.toPages) : Ends (Spoiled n) (copyArgs strs c) := by
  induction strs with
  | nil => exact h
  | cons str strs ih =>
    unfold copyArgs
    cases hx : copyArgs strs c with
    | ok c' =>
      rw [hx] at ih
      exact copyString_spoiled ih
    | error pages =>
      rw [hx] at ih
      exact ih

theorem copyStrings_spoiled {strs : List CString} (h : Spoiled n pages)
    : Spoiled n (copyStrings strs pages p).fst := by
  unfold copyStrings
  split
  . exact h
  . have hargs : Ends (Spoiled n) (copyArgs strs { pages with p, offset := 0 }) := copyArgs_spoiled h
    split
    . next hx =>
      rw [hx] at hargs
      exact hargs
    . next hx =>
      rw [hx] at hargs
      exact hargs

theorem copyCalls_spoiled {strss : List (List CString)} (h : Spoiled n pages)
    : Spoiled n (copyCalls strss pages p).fst := by
  induction strss generalizing pages p with
  | nil => exact h
  | cons strs strss ih => exact ih (copyStrings_spoiled h)

theorem not_short_of_le (h : MAX_ARG_PAGES ≤ n) (hword : n = MAX_ARG_PAGES → word = true) : ¬Short n word := by
  rintro (hlt | ⟨heq, hfalse⟩)
  . omega
  . rw [hword heq] at hfalse
    cases hfalse

theorem findPage_copied (hlt : c.p.toNat + size + 1 = ROOM) (hbalanced : Balanced n c.toPages)
    (hbehind : c.page BEHIND = word) (hoffset : c.offset = c.p.toNat % PAGE_SIZE)
    (hpage : ∀ i < MAX_ARG_PAGES, c.p.toNat / PAGE_SIZE < i → c.page i = true)
    : After n word (size + 1) (findPage c) := by
  have hi : c.p.toNat / PAGE_SIZE < MAX_ARG_PAGES := by
    unfold ROOM PAGE_SIZE MAX_ARG_PAGES at *
    omega
  have hoffset' : c.offset = 0 ∨ 0 < c.offset ∧ c.offset = c.p.toNat % PAGE_SIZE ∧ 0 < size + 1 := by
    rw [hoffset]
    omega
  unfold findPage
  dsimp only
  split
  . next hset =>
    have hstray : (c.stray || decide (MAX_ARG_PAGES ≤ c.p.toNat / PAGE_SIZE)) = false := by
      rw [hbalanced.stray, decide_eq_false (Nat.not_le.mpr hi)]
      rfl
    refine .inl ⟨by omega, ?_, hbehind, ⟨hbalanced.free, hstray⟩, hoffset'⟩
    intro j hj _ hle
    rcases Nat.eq_or_lt_of_le hle with heq | hlt
    . exact heq ▸ hset
    . exact hpage j hj hlt
  . next hset =>
    have hnot := Bool.eq_false_of_not_eq_true hset
    have hfree := hbalanced.free
    split
    . next hzero =>
      have htaken := taken_lt hnot hi
      exact .inl ⟨hbalanced, .inl (by omega)⟩
    . refine .inl ⟨by omega, ?_, ?_, ⟨?_, hbalanced.stray⟩, hoffset'⟩
      . intro j hj _ hle
        rcases Nat.eq_or_lt_of_le hle with heq | hlt
        . rw [← heq]
          exact Function.update_self ..
        . show Function.update c.page _ true j = true
          rw [Function.update_of_ne (Nat.ne_of_gt hlt)]
          exact hpage j hj hlt
      . show Function.update c.page _ true BEHIND = word
        rw [Function.update_of_ne]
        . exact hbehind
        . unfold BEHIND
          unfold MAX_ARG_PAGES at hi
          omega
      . show c.free - 1 + taken (Function.update c.page _ true) = n
        rw [taken_update hnot hi]
        omega

theorem findPage_behind (hp : c.p.toNat / PAGE_SIZE = BEHIND) (hbalanced : Balanced n c.toPages)
    (hbehind : c.page BEHIND = word) (hpage : ∀ i < MAX_ARG_PAGES, c.page i = true) (hsize : ROOM < size)
    : After n word size (findPage c) := by
  have htaken := taken_eq_iff.mpr hpage
  have hfree := hbalanced.free
  unfold findPage
  dsimp only
  rw [hp]
  split
  . next hset =>
    refine .inr ⟨.inr ?_, hsize, not_short_of_le (by omega) fun _ => hbehind.symm.trans hset⟩
    show (c.stray || decide (MAX_ARG_PAGES ≤ BEHIND)) = true
    rw [Bool.or_eq_true]
    exact .inr rfl
  . next hset =>
    have hnot := Bool.eq_false_of_not_eq_true hset
    split
    . next hzero => exact .inl ⟨hbalanced, .inr ⟨by omega, hbehind.symm.trans hnot⟩⟩
    . refine .inr ⟨.inl ?_, hsize, not_short_of_le (by omega) fun _ => by omega⟩
      show c.free - 1 + taken (Function.update c.page BEHIND true) < n
      rw [taken_update_behind hnot (by decide)]
      omega

theorem copyByte_copied (h : Copied n word c size) : After n word (size + 1) (copyByte c) := by
  have hplace := h.place
  unfold copyByte
  dsimp only
  rcases Nat.eq_zero_or_pos c.p.toNat with hp | hp
  . have hzero : c.offset = 0 := by
      rcases h.offset with hzero | ⟨hpos, hoffset, _⟩
      . exact hzero
      . rw [hp] at hoffset
        exact hoffset
    have hsize : size = ROOM := by omega
    rw [hzero, if_pos (by decide)]
    have hlast : (c.p - 1).toNat = 4294967295 := by bv_omega
    have hindex : (c.p - 1).toNat / PAGE_SIZE = BEHIND := by
      rw [hlast]
      rfl
    have hpage : ∀ i < MAX_ARG_PAGES, c.page i = true := by
      intro i hi
      apply h.page i hi
      . rw [hsize]
        decide
      . rw [hp, Nat.zero_div]
        exact Nat.zero_le i
    exact @findPage_behind n (size + 1) word { c with p := c.p - 1, offset := (c.p - 1).toNat % PAGE_SIZE } hindex
      ⟨h.balanced.free, h.balanced.stray⟩ h.behind hpage (by omega)
  . have hpred : (c.p - 1).toNat + 1 = c.p.toNat := by bv_omega
    have hbound : c.p.toNat < 4294967296 := c.p.isLt
    -- The pages above the one of the new place are there.
    have hpage : ∀ i < MAX_ARG_PAGES, (c.p - 1).toNat / PAGE_SIZE < i → c.page i = true := by
      intro i hi hlt
      apply h.page i hi
      . unfold ROOM PAGE_SIZE MAX_ARG_PAGES at *
        omega
      . unfold PAGE_SIZE at *
        omega
    split
    . next hneg =>
      have hroom : (c.p - 1).toNat + size + 1 = ROOM := by omega
      exact @findPage_copied n size word { c with p := c.p - 1, offset := (c.p - 1).toNat % PAGE_SIZE } hroom
        ⟨h.balanced.free, h.balanced.stray⟩ h.behind rfl hpage
    . next hneg =>
      obtain ⟨hpos, hoffset, hsize⟩ : 0 < c.offset ∧ c.offset = c.p.toNat % PAGE_SIZE ∧ 0 < size := by
        rcases h.offset with hzero | hin
        . omega
        . exact hin
      have hsame : (c.p - 1).toNat / PAGE_SIZE = c.p.toNat / PAGE_SIZE := by
        unfold PAGE_SIZE at *
        omega
      refine .inl ⟨?_, ?_, h.behind, ⟨h.balanced.free, h.balanced.stray⟩, ?_⟩
      . show (c.p - 1).toNat + (size + 1) = ROOM
        omega
      . intro i hi _ hle
        exact h.page i hi hsize (hsame ▸ hle)
      . show c.offset - 1 = 0 ∨ 0 < c.offset - 1 ∧ c.offset - 1 = ↑((c.p - 1).toNat % PAGE_SIZE) ∧ 0 < size + 1
        unfold PAGE_SIZE at *
        omega

theorem after_of_ends {x : Except Pages Copy} (h : Ends (Spoiled n) x) (hsize : ROOM < size) (hshort : ¬Short n word)
    : After n word size x := by
  cases x with
  | ok c => exact .inr ⟨h, hsize, hshort⟩
  | error pages => exact .inr ⟨h, hsize, hshort⟩

theorem After.bind {x : Except Pages Copy} {f : Copy → Except Pages Copy} (h : After n word size x)
    (hcopied : ∀ c, Copied n word c size → After n word (size + len) (f c))
    (hspoiled : ∀ c : Copy, Spoiled n c.toPages → Ends (Spoiled n) (f c))
    : After n word (size + len) (x >>= f) := by
  cases x with
  | ok c =>
    rcases h with h | ⟨h, hsize, hshort⟩
    . exact hcopied c h
    . exact after_of_ends (hspoiled c h) (by omega) hshort
  | error pages =>
    rcases h with h | ⟨h, hsize, hshort⟩
    . exact .inl h
    . exact .inr ⟨h, by omega, hshort⟩

theorem copyBytes_copied (h : Copied n word c size) : After n word (size + len) (copyBytes len c) := by
  induction len generalizing c size with
  | zero => exact .inl h
  | succ len ih =>
    unfold copyBytes
    rw [Nat.add_comm len 1, ← Nat.add_assoc]
    exact (copyByte_copied h).bind (fun c h => ih h) fun c h => copyBytes_spoiled h

theorem copyString_copied {str : CString} (h : Copied n word c size)
    : After n word (size + str.bytes.length) (copyString str c) := by
  unfold copyString
  -- The difference is unsigned.
  rw [if_neg (by exact BitVec.not_lt_zero)]
  exact copyBytes_copied h

theorem copyArgs_copied {strs : List CString} (h : Copied n word c size)
    : After n word (size + (image strs).length) (copyArgs strs c) := by
  induction strs with
  | nil => exact .inl h
  | cons str strs ih =>
    have himage : (image (str :: strs)).length = (image strs).length + str.bytes.length := by
      unfold image
      rw [List.flatMap_cons, List.length_append, Nat.add_comm]
    unfold copyArgs
    rw [himage, ← Nat.add_assoc]
    exact ih.bind (fun c h => copyString_copied h) fun c h => copyString_spoiled h

theorem copyCalls_zero (strss : List (List CString)) (pages : Pages) : copyCalls strss pages 0 = (pages, 0) := by
  induction strss with
  | nil => rfl
  | cons strs strss ih =>
    unfold copyCalls copyStrings
    exact ih

def Roomy (n : Nat) (word : Bool) (strss : List (List CString)) (size : Nat) : Prop :=
  total strss + size ≤ ROOM ∨ FullAt strss size ∨ Short n word

theorem not_roomy {strss : List (List CString)} (hsize : ROOM < size) (hshort : ¬Short n word)
    : ¬Roomy n word strss size := by
  rintro (hroom | ⟨k, hk⟩ | hnot)
  . omega
  . omega
  . exact hshort hnot

theorem copyCalls_collected {strss : List (List CString)} (h : Copied n word { pages with p, offset := 0 } size)
    : Balanced n (copyCalls strss pages p).fst ∧ Roomy n word strss size
        ∨ Spoiled n (copyCalls strss pages p).fst ∧ ¬Roomy n word strss size := by
  induction strss generalizing pages p size with
  | nil =>
    have hplace : p.toNat + size = ROOM := h.place
    left
    refine ⟨⟨h.balanced.free, h.balanced.stray⟩, .inl ?_⟩
    show 0 + size ≤ ROOM
    omega
  | cons strs strss ih =>
    have hplace : p.toNat + size = ROOM := h.place
    by_cases hp : p = 0
    . left
      subst hp
      rw [copyCalls_zero]
      exact ⟨⟨h.balanced.free, h.balanced.stray⟩, .inr (.inl (fullAt_zero _ (by simpa using hplace)))⟩
    . have hne : size ≠ ROOM := by
        intro heq
        apply hp
        apply BitVec.eq_of_toNat_eq
        change p.toNat = 0
        omega
      have hcons : Roomy n word (strs :: strss) size ↔ Roomy n word strss (size + (image strs).length) := by
        have htotal : total (strs :: strss) + size = total strss + (size + (image strs).length) := by
          rw [total_cons]
          omega
        unfold Roomy
        rw [fullAt_cons_iff hne, htotal, Nat.add_comm size]
      have hafter := @copyArgs_copied n size word { pages with p, offset := 0 } strs h
      have hstep : ∀ r, copyStrings strs pages p = r → copyCalls (strs :: strss) pages p
          = copyCalls strss r.fst r.snd := by
        rintro r rfl
        rfl
      rw [hcons]
      cases hx : copyArgs strs { pages with p, offset := 0 } with
      | ok c =>
        have hr : copyStrings strs pages p = (c.toPages, c.p) := by
          unfold copyStrings
          rw [if_neg hp, hx]
        rw [hx] at hafter
        rw [hstep _ hr]
        rcases hafter with hcopied | ⟨hspoiled, hsize, hshort⟩
        . apply ih
          exact ⟨hcopied.place, hcopied.page, hcopied.behind, hcopied.balanced, .inl rfl⟩
        . right
          exact ⟨copyCalls_spoiled hspoiled, not_roomy hsize hshort⟩
      | error pages' =>
        have hr : copyStrings strs pages p = (pages', 0) := by
          unfold copyStrings
          rw [if_neg hp, hx]
        rw [hx] at hafter
        rw [hstep _ hr, copyCalls_zero]
        rcases hafter with ⟨hbalanced, hshort⟩ | ⟨hspoiled, hsize, hshort⟩
        . exact .inl ⟨hbalanced, .inr (.inr hshort)⟩
        . exact .inr ⟨hspoiled, not_roomy hsize hshort⟩

theorem Balanced.release (h : Balanced n pages) : pages.release.free = n ∧ pages.release.stray = false :=
  ⟨h.free, h.stray⟩

theorem Spoiled.release (h : Spoiled n pages) : ¬(pages.release.free = n ∧ pages.release.stray = false) := by
  rintro ⟨hfree, hstray⟩
  change pages.free + taken pages.page = n at hfree
  change pages.stray = false at hstray
  rcases h with hless | hset
  . omega
  . rw [hset] at hstray
    cases hstray

end Ledger
end Exec
end OS
