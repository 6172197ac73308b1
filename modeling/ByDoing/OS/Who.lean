import Mathlib.Logic.Function.Basic
import ByDoing.Lib.Block
import ByDoing.Lib.Run

/-!
This module contains the two system calls of `who.c`, which share the kernel's `myname`. The memory of the
user is what `get_fs_byte` and `put_fs_byte` reach. A store outside of an array of the kernel is `none`: the
loop of `sys_iam` allows `i` up to 26, and `str` has 25 bytes.
-/

namespace OS

def EINVAL : Int := 22

def strlen (bytes : List UInt8) : Nat :=
  (bytes.takeWhile fun c => c != 0).length

def strcpy (dst src : List UInt8) : Option (List UInt8) :=
  Block.store dst 0 ((src.takeWhile fun c => c != 0) ++ [0])

structure Who where
  myname : List UInt8
  user : Nat → UInt8

namespace Who

def init (user : Nat → UInt8) : Who :=
  { myname := List.replicate 24 0, user }

-- The loop of `sys_iam` with `left` more values of `i` that pass the test `i <= 25`.
def readName (user : Nat → UInt8) (name : Nat) : (left : Nat) → (str : List UInt8) → Option (Nat × List UInt8)
  | 0, str => (Block.store str 26 [user (name + 26)]).map fun str => (26, str)
  | left + 1, str =>
    let i := 25 - left
    match Block.store str i [user (name + i)] with
    | none => none
    | some str => if user (name + i) ≠ 0 then readName user name left str else some (i + 1, str)

def sysIam (s : Who) (name : Nat) (garbage : Nat → UInt8) : Option (Who × Int) :=
  match readName s.user name 26 ((List.range 25).map garbage) with
  | none => none
  | some (i, str) =>
    if 24 < i then
      some (s, -EINVAL)
    else
      match strcpy s.myname str with
      | none => none
      | some myname => some ({ s with myname }, i - 1)

def putFsBytes (user : Nat → UInt8) (addr : Nat) : List UInt8 → Nat → UInt8
  | [] => user
  | c :: cs => putFsBytes (Function.update user addr c) (addr + 1) cs

def sysWhoami (s : Who) (name size : Nat) : Who × Int :=
  let length := strlen s.myname
  if size < length then
    (s, -EINVAL)
  else
    ({ s with user := putFsBytes s.user name (s.myname.take length) }, length)

def userBytes (user : Nat → UInt8) (addr n : Nat) : List UInt8 :=
  (List.range n).map fun i => user (addr + i)

structure IsString (user : Nat → UInt8) (addr : Nat) (str : List UInt8) : Prop where
  zero_not_mem : 0 ∉ str
  bytes_eq : userBytes user addr (str.length + 1) = str ++ [0]

-- `myname` holds `str` and its NUL.
structure Stores (s : Who) (str : List UInt8) : Prop where
  length_eq : s.myname.length = 24
  zero_not_mem : 0 ∉ str
  prefix_eq : str ++ [0] <+: s.myname

theorem userBytes_succ (user : Nat → UInt8) (addr n : Nat)
    : userBytes user addr (n + 1) = userBytes user addr n ++ [user (addr + n)] := by
  simp [userBytes, List.range_succ]

theorem IsString.getElem? {user : Nat → UInt8} {addr : Nat} {str : List UInt8} (h : IsString user addr str)
    {i : Nat} (hi : i ≤ str.length)
    : (str ++ [0])[i]? = some (user (addr + i)) := by
  rw [← h.bytes_eq]
  unfold userBytes
  rw [List.getElem?_map, List.getElem?_range (by omega)]
  rfl

theorem IsString.eq_zero_iff {user : Nat → UInt8} {addr : Nat} {str : List UInt8} (h : IsString user addr str)
    {i : Nat} (hi : i ≤ str.length)
    : user (addr + i) = 0 ↔ i = str.length := by
  have hget := h.getElem? hi
  constructor
  . intro hzero
    rw [hzero] at hget
    cases Nat.eq_or_lt_of_le hi with
    | inl heq => exact heq
    | inr hlt =>
      rw [List.getElem?_append_left hlt] at hget
      exact absurd (List.mem_of_getElem? hget) h.zero_not_mem
  . intro heq
    subst heq
    rw [List.getElem?_append_right (Nat.le_refl _)] at hget
    simpa using hget.symm

theorem readName_of_le {user : Nat → UInt8} {name : Nat} {str buf : List UInt8} (h : IsString user name str)
    (hlen : str.length ≤ 24) {left : Nat} (hleft : left ≤ 26) (hi : 26 - left ≤ str.length)
    (hbuf : buf.length = 25) (hcopied : Block.slice buf 0 (26 - left) = userBytes user name (26 - left))
    : ∃ buf', readName user name left buf = some (str.length + 1, buf') ∧ str ++ [0] <+: buf' := by
  induction left generalizing buf with
  | zero => omega
  | succ left ih =>
    have hidx : 26 - (left + 1) = 25 - left := by omega
    rw [hidx] at hi hcopied
    have hstore := Block.store_eq_some
      (show 25 - left + [user (name + (25 - left))].length ≤ buf.length by rw [List.length_singleton]; omega)
    have hslice := Block.slice_of_store (Nat.zero_le _) hstore
    have hlength := Block.length_of_store hstore
    generalize buf.take (25 - left) ++ [user (name + (25 - left))]
      ++ buf.drop (25 - left + [user (name + (25 - left))].length) = buf' at *
    rw [List.length_singleton, hcopied, ← userBytes_succ] at hslice
    unfold readName
    dsimp only
    rw [hstore]
    dsimp only
    by_cases hend : 25 - left = str.length
    . have hzero := (h.eq_zero_iff hi).mpr hend
      rw [if_neg (by simp [hzero])]
      refine ⟨buf', by rw [hend], ?_⟩
      rw [← h.bytes_eq, ← hend, ← hslice]
      exact List.take_prefix _ _
    . have hne : user (name + (25 - left)) ≠ 0 := fun hzero => hend ((h.eq_zero_iff hi).mp hzero)
      rw [if_pos hne]
      apply ih
      . omega
      . omega
      . rw [hlength, hbuf]
      . rw [show 26 - left = 25 - left + 1 by omega]
        exact hslice

theorem readName_of_lt {user : Nat → UInt8} {name : Nat} {str buf : List UInt8} (h : IsString user name str)
    (hlen : 24 < str.length) {left : Nat} (hleft : 1 ≤ left) (hle : left ≤ 26) (hbuf : buf.length = 25)
    : readName user name left buf = none := by
  induction left generalizing buf with
  | zero => omega
  | succ left ih =>
    unfold readName
    dsimp only
    cases Nat.eq_zero_or_pos left with
    | inl hzero =>
      subst hzero
      unfold Block.store
      rw [if_neg (by rw [List.length_singleton]; omega)]
    | inr hpos =>
      have hstore := Block.store_eq_some
        (show 25 - left + [user (name + (25 - left))].length ≤ buf.length by rw [List.length_singleton]; omega)
      have hne : user (name + (25 - left)) ≠ 0 := by
        intro hzero
        have heq := (h.eq_zero_iff (by omega)).mp hzero
        omega
      rw [hstore]
      dsimp only
      rw [if_pos hne]
      apply ih hpos (by omega)
      rw [Block.length_of_store hstore, hbuf]

theorem takeWhile_of_terminated {str bytes : List UInt8} (hzero : 0 ∉ str) (h : str ++ [0] <+: bytes)
    : (bytes.takeWhile fun c => c != 0) = str := by
  obtain ⟨rest, rfl⟩ := h
  rw [List.append_assoc, List.singleton_append]
  exact Block.takeWhile_append_terminator hzero

theorem sysIam_of_le {s : Who} {name : Nat} {str : List UInt8} (h : IsString s.user name str)
    (hname : s.myname.length = 24) (hlen : str.length ≤ 23) (garbage : Nat → UInt8)
    : ∃ w : Who, s.sysIam name garbage = some (w, (str.length : Int)) ∧ w.user = s.user ∧ w.Stores str := by
  obtain ⟨buf, hread, hprefix⟩ := readName_of_le h (Nat.le_succ_of_le hlen) (Nat.le_refl 26) (Nat.zero_le _)
    (show ((List.range 25).map garbage).length = 25 by simp) (by rfl)
  have hstore : strcpy s.myname buf = some ((str ++ [0]) ++ s.myname.drop (str ++ [0]).length) := by
    unfold strcpy
    rw [takeWhile_of_terminated h.zero_not_mem hprefix, Block.store_eq_some (by simp; omega)]
    simp
  unfold sysIam
  rw [hread]
  dsimp only
  rw [if_neg (by omega), hstore]
  refine ⟨{ s with myname := (str ++ [0]) ++ s.myname.drop (str ++ [0]).length }, ?_, rfl, ?_, h.zero_not_mem,
    List.prefix_append _ _⟩
  . have hcount : ((str.length + 1 : Nat) : Int) - 1 = str.length := by omega
    dsimp only
    rw [hcount]
  . exact (Block.length_of_store hstore).trans hname

theorem sysIam_of_eq {s : Who} {name : Nat} {str : List UInt8} (h : IsString s.user name str)
    (hlen : str.length = 24) (garbage : Nat → UInt8)
    : s.sysIam name garbage = some (s, -EINVAL) := by
  obtain ⟨buf, hread, _⟩ := readName_of_le h (Nat.le_of_eq hlen) (Nat.le_refl 26) (Nat.zero_le _)
    (show ((List.range 25).map garbage).length = 25 by simp) (by rfl)
  unfold sysIam
  rw [hread]
  dsimp only
  rw [if_pos (by omega)]

theorem sysIam_of_lt {s : Who} {name : Nat} {str : List UInt8} (h : IsString s.user name str)
    (hlen : 24 < str.length) (garbage : Nat → UInt8)
    : s.sysIam name garbage = none := by
  unfold sysIam
  rw [readName_of_lt h hlen (by omega) (Nat.le_refl 26) (by simp)]

/-
The stores of `sys_iam`, whether they are inside of the arrays or not: the indices in `str`, in the order of the loop,
and the number of bytes that `strcpy` stores into `myname`.
-/

def nameStores (user : Nat → UInt8) (name : Nat) : (left : Nat) → List Nat
  | 0 => [26]
  | left + 1 =>
    let i := 25 - left
    i :: if user (name + i) ≠ 0 then nameStores user name left else []

def strcpyBytes (user : Nat → UInt8) (name : Nat) (garbage : Nat → UInt8) : Nat :=
  match readName user name 26 ((List.range 25).map garbage) with
  | none => 0
  | some (i, str) => if 24 < i then 0 else strlen str + 1

structure StoresFit (user : Nat → UInt8) (name : Nat) (garbage : Nat → UInt8) : Prop where
  str_lt : ∀ i ∈ nameStores user name 26, i < 25
  myname_le : strcpyBytes user name garbage ≤ 24

theorem mem_nameStores {user : Nat → UInt8} {name : Nat} {str : List UInt8} (h : IsString user name str)
    {left : Nat} (hleft : left ≤ 26) (hi : 26 - left ≤ str.length) (k : Nat)
    : k ∈ nameStores user name left ↔ 26 - left ≤ k ∧ k ≤ str.length ∧ k ≤ 26 := by
  induction left with
  | zero =>
    unfold nameStores
    rw [List.mem_singleton]
    omega
  | succ left ih =>
    have hidx : 26 - (left + 1) = 25 - left := by omega
    rw [hidx] at hi ⊢
    unfold nameStores
    rw [List.mem_cons]
    by_cases hend : 25 - left = str.length
    . have hzero := (h.eq_zero_iff hi).mpr hend
      rw [if_neg (by simp [hzero]), List.mem_nil_iff, or_false]
      omega
    . have hne : user (name + (25 - left)) ≠ 0 := fun hzero => hend ((h.eq_zero_iff hi).mp hzero)
      rw [if_pos hne, ih (by omega) (by omega)]
      omega

theorem sysIam_eq_none_iff {s : Who} {name : Nat} {str : List UInt8} (h : IsString s.user name str)
    (hname : s.myname.length = 24) (garbage : Nat → UInt8)
    : s.sysIam name garbage = none ↔ 25 ∈ nameStores s.user name 26 := by
  rw [mem_nameStores h (Nat.le_refl 26) (Nat.zero_le _)]
  cases Nat.lt_or_ge 24 str.length with
  | inl hlong => exact iff_of_true (sysIam_of_lt h hlong garbage) (by omega)
  | inr hshort =>
    apply iff_of_false
    . cases Nat.eq_or_lt_of_le hshort with
      | inl heq => simp [sysIam_of_eq h heq garbage]
      | inr hlt =>
        obtain ⟨who, hcall, _⟩ := sysIam_of_le h hname (by omega) garbage
        simp [hcall]
    . omega

theorem strcpyBytes_le {user : Nat → UInt8} {name : Nat} {str : List UInt8} (h : IsString user name str)
    (garbage : Nat → UInt8)
    : strcpyBytes user name garbage ≤ 24 := by
  unfold strcpyBytes
  cases Nat.lt_or_ge 24 str.length with
  | inl hlong =>
    rw [readName_of_lt h hlong (by omega) (Nat.le_refl 26) (by simp)]
    apply Nat.zero_le
  | inr hshort =>
    obtain ⟨buf, hread, hstart⟩ := readName_of_le h hshort (Nat.le_refl 26) (Nat.zero_le _)
      (show ((List.range 25).map garbage).length = 25 by simp) (by rfl)
    rw [hread]
    dsimp only
    split
    . apply Nat.zero_le
    . unfold strlen
      rw [takeWhile_of_terminated h.zero_not_mem hstart]
      omega

/--
The stores of `sys_iam` are inside of its arrays exactly for the strings of at most 24 bytes.
-/
theorem storesFit_iff {user : Nat → UInt8} {name : Nat} {str : List UInt8} (h : IsString user name str)
    (garbage : Nat → UInt8)
    : StoresFit user name garbage ↔ str.length ≤ 24 := by
  have hmem := mem_nameStores h (Nat.le_refl 26) (Nat.zero_le _)
  constructor
  . intro hfit
    apply Nat.le_of_not_lt
    intro hlong
    have hout := hfit.str_lt 25 ((hmem 25).mpr (by omega))
    omega
  . intro hshort
    constructor
    . intro i hi
      have hle := (hmem i).mp hi
      omega
    . apply strcpyBytes_le h

-- The name of 23 characters of the tests of the system call.
theorem storesFit_twentyThree
    : StoresFit (fun a => if a < 23 then 120 else 0) 0 fun _ => 7 := by
  have hstr : IsString (fun a => if a < 23 then 120 else 0) 0 (List.replicate 23 120) := ⟨by simp, by rfl⟩
  exact (storesFit_iff hstr _).mpr (by decide)

-- The one of 26 letters.
theorem not_storesFit_alphabet
    : ∃ user : Nat → UInt8, IsString user 0 ((List.range 26).map fun i => UInt8.ofNat (97 + i))
        ∧ 25 ∈ nameStores user 0 26 ∧ ¬StoresFit user 0 fun _ => 0 := by
  have hstr : IsString (fun a => if a < 26 then UInt8.ofNat (97 + a) else 0) 0
      ((List.range 26).map fun i => UInt8.ofNat (97 + i)) := ⟨by decide, by decide⟩
  refine ⟨_, hstr, by decide, ?_⟩
  intro hfit
  have hout := hfit.str_lt 25 (by decide)
  omega

theorem putFsBytes_of_outside {user : Nat → UInt8} {addr a : Nat} {bytes : List UInt8}
    (h : a < addr ∨ addr + bytes.length ≤ a)
    : putFsBytes user addr bytes a = user a := by
  induction bytes generalizing user addr with
  | nil => rfl
  | cons c bytes ih =>
    rw [List.length_cons] at h
    unfold putFsBytes
    rw [ih (by omega), Function.update_of_ne (by omega)]

theorem userBytes_putFsBytes (user : Nat → UInt8) (addr : Nat) (bytes : List UInt8)
    : userBytes (putFsBytes user addr bytes) addr bytes.length = bytes := by
  induction bytes generalizing user addr with
  | nil => rfl
  | cons c bytes ih =>
    have hfirst : putFsBytes (Function.update user addr c) (addr + 1) bytes addr = c := by
      rw [putFsBytes_of_outside (by omega), Function.update_self]
    have hrest := ih (Function.update user addr c) (addr + 1)
    unfold userBytes at hrest ⊢
    unfold putFsBytes
    rw [List.length_cons, List.range_succ_eq_map, List.map_cons, List.map_map]
    congr 1
    conv => rhs; rw [← hrest]
    apply List.map_congr_left
    intro i _
    rw [Function.comp_apply, Nat.add_assoc, Nat.succ_eq_one_add]

theorem Stores.strlen_eq {s : Who} {str : List UInt8} (h : s.Stores str) : strlen s.myname = str.length := by
  unfold strlen
  rw [takeWhile_of_terminated h.zero_not_mem h.prefix_eq]

theorem Stores.take_eq {s : Who} {str : List UInt8} (h : s.Stores str) : s.myname.take str.length = str := by
  obtain ⟨rest, hrest⟩ := h.prefix_eq
  rw [← hrest, List.append_assoc]
  simp

end Who

inductive WhoCall where
  | iam (name : Nat) (str : List UInt8) (garbage : Nat → UInt8)
  | whoami (buf size : Nat)
  | poke (user : Nat → UInt8)

-- `accepted` is the last name of at most 23 bytes that has been passed to `iam`.
structure WhoRun where
  who : Who
  accepted : List UInt8

namespace WhoRun

def init (user : Nat → UInt8) : WhoRun :=
  { who := Who.init user, accepted := [] }

def step (s : WhoRun) : WhoCall → Option WhoRun
  | .iam name str garbage =>
    match s.who.sysIam name garbage with
    | none => none
    | some (who, _) => some { who, accepted := if str.length ≤ 23 then str else s.accepted }
  | .whoami buf size => some { s with who := (s.who.sysWhoami buf size).fst }
  | .poke user => some { s with who := { s.who with user } }

def Passes (s : WhoRun) : WhoCall → Prop
  | .iam name str _ => Who.IsString s.who.user name str
  | _ => True

def InBounds : WhoCall → Prop
  | .iam _ str _ => str.length ≤ 24
  | _ => True

def Meets (s : WhoRun) : WhoCall → Prop
  | .iam name str garbage => ∃ who result, s.who.sysIam name garbage = some (who, result)
      ∧ who.user = s.who.user
      ∧ (str.length ≤ 23 → result = str.length ∧ who.Stores str)
      ∧ (23 < str.length → result = -EINVAL ∧ who.myname = s.who.myname)
  | .whoami buf size => ∃ who result, s.who.sysWhoami buf size = (who, result)
      ∧ who.myname = s.who.myname
      ∧ (s.accepted.length ≤ size → result = s.accepted.length
        ∧ Who.userBytes who.user buf s.accepted.length = s.accepted
        ∧ ∀ a, a < buf ∨ buf + s.accepted.length ≤ a → who.user a = s.who.user a)
      ∧ (size < s.accepted.length → result = -EINVAL ∧ who.user = s.who.user)
      ∧ ∀ a, buf + size ≤ a → who.user a = s.who.user a
  | .poke _ => True

def Inv (s : WhoRun) : Prop :=
  s.who.Stores s.accepted

theorem init_inv (user : Nat → UInt8) : (init user).Inv := by
  constructor
  . rfl
  . exact List.not_mem_nil
  . exact ⟨List.replicate 23 0, rfl⟩

theorem meets_iam_iff {s : WhoRun} (hinv : s.Inv) {name : Nat} {str : List UInt8} {garbage : Nat → UInt8}
    (hstr : Who.IsString s.who.user name str)
    : s.Meets (.iam name str garbage) ↔ str.length ≤ 24 := by
  constructor
  . intro ⟨who, result, hcall, _⟩
    apply Nat.le_of_not_lt
    intro hlt
    rw [Who.sysIam_of_lt hstr hlt] at hcall
    simp at hcall
  . intro hle
    cases Nat.eq_or_lt_of_le hle with
    | inl heq =>
      refine ⟨s.who, -EINVAL, Who.sysIam_of_eq hstr heq garbage, rfl, ?_, ?_⟩
      . intro hshort
        omega
      . intro _
        exact ⟨rfl, rfl⟩
    | inr hlt =>
      obtain ⟨who, hcall, huser, hstores⟩ := Who.sysIam_of_le hstr hinv.length_eq (by omega) garbage
      refine ⟨who, str.length, hcall, huser, ?_, ?_⟩
      . intro _
        exact ⟨rfl, hstores⟩
      . intro hlong
        omega

theorem meets_whoami {s : WhoRun} (hinv : s.Inv) (buf size : Nat) : s.Meets (.whoami buf size) := by
  unfold Meets Who.sysWhoami
  dsimp only
  rw [hinv.strlen_eq]
  by_cases hsize : size < s.accepted.length
  . rw [if_pos hsize]
    refine ⟨_, _, rfl, rfl, ?_, fun _ => ⟨rfl, rfl⟩, fun _ _ => rfl⟩
    intro hle
    omega
  . rw [if_neg hsize, hinv.take_eq]
    refine ⟨_, _, rfl, rfl, ?_, ?_, ?_⟩
    . intro _
      refine ⟨rfl, Who.userBytes_putFsBytes _ _ _, ?_⟩
      intro a ha
      exact Who.putFsBytes_of_outside ha
    . intro hlt
      contradiction
    . intro a ha
      exact Who.putFsBytes_of_outside (by omega)

theorem step_inv (s s' : WhoRun) (c : WhoCall) (hinv : s.Inv) (hok : s.Passes c ∧ InBounds c)
    (hstep : s.step c = some s')
    : s'.Inv := by
  cases c with
  | iam name str garbage =>
    obtain ⟨who, result, hcall, huser, hshort, hlong⟩ := (meets_iam_iff hinv hok.left).mpr hok.right
    unfold step at hstep
    dsimp only at hstep
    rw [hcall, Option.some.injEq] at hstep
    subst hstep
    unfold Inv
    dsimp only
    by_cases hle : str.length ≤ 23
    . rw [if_pos hle]
      exact (hshort hle).right
    . rw [if_neg hle]
      have hname := (hlong (Nat.not_le.mp hle)).right
      exact ⟨hname ▸ hinv.length_eq, hinv.zero_not_mem, hname ▸ hinv.prefix_eq⟩
  | whoami buf size =>
    obtain ⟨who, result, hcall, hname, _⟩ := meets_whoami hinv buf size
    unfold step at hstep
    dsimp only at hstep
    rw [hcall, Option.some.injEq] at hstep
    subst hstep
    exact ⟨hname ▸ hinv.length_eq, hinv.zero_not_mem, hname ▸ hinv.prefix_eq⟩
  | poke user =>
    cases hstep
    exact ⟨hinv.length_eq, hinv.zero_not_mem, hinv.prefix_eq⟩

theorem meets_iff_inBounds {user : Nat → UInt8} {s : WhoRun}
    (h : Run.Reaches step (fun s c => s.Passes c ∧ InBounds c) (init user) s) {c : WhoCall} (hpass : s.Passes c)
    : s.Meets c ↔ InBounds c := by
  have hinv : s.Inv := h.invariant Inv (init_inv user) step_inv
  cases c with
  | iam name str garbage => exact meets_iam_iff hinv hpass
  | whoami buf size => exact iff_of_true (meets_whoami hinv buf size) trivial
  | poke user => exact iff_of_true trivial trivial

-- The user's memory from address 0 on is `text` and zeros.
def textAt (text : List UInt8) (a : Nat) : UInt8 :=
  text.getD a 0

-- A name is stored, and read back behind it.
theorem meets_hi_whoami
    : ∃ s who, Run.Reaches step (fun s c => s.Passes c ∧ InBounds c) (init (textAt [104, 105])) s
        ∧ s.who.sysWhoami 10 5 = (who, 2) ∧ Who.userBytes who.user 10 2 = [104, 105] := by
  have hstep : ∃ s, (init (textAt [104, 105])).step (.iam 0 [104, 105] fun _ => 7) = some s
      ∧ s.accepted = [104, 105] := ⟨_, rfl, rfl⟩
  obtain ⟨s, hstep, haccepted⟩ := hstep
  have hreaches : Run.Reaches step (fun s c => s.Passes c ∧ InBounds c) (init (textAt [104, 105])) s := by
    apply Run.Reaches.tail .refl _ hstep
    exact ⟨⟨by simp, by rfl⟩, Nat.le_add_left 2 22⟩
  have hmeets : s.Meets (.whoami 10 5) :=
    (meets_iff_inBounds hreaches (c := .whoami 10 5) trivial).mpr trivial
  obtain ⟨who, result, hcall, _, hfits, _⟩ := hmeets
  rw [haccepted] at hfits
  obtain ⟨hresult, hbytes, _⟩ := hfits (by decide)
  subst hresult
  exact ⟨s, who, hreaches, hcall, hbytes⟩

theorem not_meets_of_twentyFiveBytes
    : ∃ (user : Nat → UInt8) (str : List UInt8), (init user).Passes (.iam 0 str fun _ => 0)
      ∧ ¬ (init user).Meets (.iam 0 str fun _ => 0) := by
  refine ⟨textAt (List.replicate 25 1), List.replicate 25 1, ⟨by simp, by rfl⟩, ?_⟩
  intro ⟨who, result, hcall, _⟩
  have hstr : Who.IsString (textAt (List.replicate 25 1)) 0 (List.replicate 25 1) := ⟨by simp, by rfl⟩
  have hout : (init (textAt (List.replicate 25 1))).who.sysIam 0 (fun _ => 0) = none :=
    Who.sysIam_of_lt hstr (by decide) _
  rw [hout] at hcall
  simp at hcall

end WhoRun
end OS
