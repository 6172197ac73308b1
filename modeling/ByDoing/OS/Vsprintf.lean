import Mathlib.Data.Nat.Basic
import Mathlib.Data.List.Basic
import ByDoing.Lib.Decimal

/-!
This module contains the formatted output of the kernel: `number` and `vsprintf`. A byte is the character with its
code, `str` is what has been stored from `buf` on, and an argument is a word of the stack. `mem` are the strings
that the arguments of `%s` point to.
-/

namespace OS
namespace Vsprintf

def ZEROPAD : BitVec 32 := 1
def SIGN : BitVec 32 := 2
def PLUS : BitVec 32 := 4
def SPACE : BitVec 32 := 8
def LEFT : BitVec 32 := 16
def SPECIAL : BitVec 32 := 32
def SMALL : BitVec 32 := 64

def has (type flag : BitVec 32) : Bool :=
  type &&& flag != 0

def largeDigits : List Char :=
  ['0', '1', '2', '3', '4', '5', '6', '7', '8', '9', 'A', 'B', 'C', 'D', 'E', 'F', 'G', 'H', 'I', 'J', 'K', 'L', 'M',
    'N', 'O', 'P', 'Q', 'R', 'S', 'T', 'U', 'V', 'W', 'X', 'Y', 'Z']

def smallDigits : List Char :=
  ['0', '1', '2', '3', '4', '5', '6', '7', '8', '9', 'a', 'b', 'c', 'd', 'e', 'f', 'g', 'h', 'i', 'j', 'k', 'l', 'm',
    'n', 'o', 'p', 'q', 'r', 's', 't', 'u', 'v', 'w', 'x', 'y', 'z']

-- `while (bound < size--) *str++ = c;`
def pad (c : Char) (bound size : Int) (str : List Char) : Int × List Char :=
  if bound < size then pad c bound (size - 1) (str ++ [c]) else (size - 1, str)
termination_by (size - bound).toNat

-- The digits that are stored in `tmp`, the last one first. `divl` takes `num` as an unsigned word.
def divide (digits : List Char) (base : Nat) (hbase : 1 < base) (num : Nat) : List Char :=
  if num = 0 then
    []
  else
    digits.getD (num % base) '0' :: divide digits base hbase (num / base)
termination_by num
decreasing_by exact Nat.div_lt_self (by omega) hbase

def number (str : List Char) (num : BitVec 32) (base : Nat) (size precision : Int) (type : BitVec 32)
    : Option (List Char) :=
  let digits := if has type SMALL then smallDigits else largeDigits
  let type := if has type LEFT then type &&& ~~~ZEROPAD else type
  if hbase : base < 2 ∨ 36 < base then
    none
  else
    let c := if has type ZEROPAD then '0' else ' '
    let negative := has type SIGN && num.slt 0
    let sign :=
      if negative then some '-'
      else if has type PLUS then some '+'
      else if has type SPACE then some ' '
      else none
    -- The smallest word is its own negation.
    let num := if negative then -num else num
    let size := if sign.isSome then size - 1 else size
    let size :=
      if has type SPECIAL then
        if base = 16 then size - 2
        else if base = 8 then size - 1
        else size
      else size
    let tmp := if num = 0 then ['0'] else divide digits base (by omega) num.toNat
    let precision := if precision < tmp.length then (tmp.length : Int) else precision
    let size := size - precision
    let (size, str) := if has type (ZEROPAD + LEFT) then (size, str) else pad ' ' 0 size str
    let str := str ++ sign.toList
    let str :=
      if has type SPECIAL then
        if base = 8 then str ++ ['0']
        else if base = 16 then str ++ ['0', digits.getD 33 '0']
        else str
      else str
    let (size, str) := if has type LEFT then (size, str) else pad c 0 size str
    let (_, str) := pad '0' tmp.length precision str
    let str := str ++ tmp.reverse
    let (_, str) := pad ' ' 0 size str
    some str

def flagOf : Char → Option (BitVec 32)
  | '-' => some LEFT
  | '+' => some PLUS
  | ' ' => some SPACE
  | '#' => some SPECIAL
  | '0' => some ZEROPAD
  | _ => none

-- The switch at `repeat`.
def skipFlags (flags : BitVec 32) : List Char → BitVec 32 × List Char
  | [] => (flags, [])
  | c :: fmt =>
    match flagOf c with
    | some flag => skipFlags (flags ||| flag) fmt
    | none => (flags, c :: fmt)

def skipAtoi (i : Nat) : List Char → Nat × List Char
  | [] => (i, [])
  | c :: fmt => if c.isDigit then skipAtoi (i * 10 + c.toNat - '0'.toNat) fmt else (i, c :: fmt)

structure State where
  str : List Char
  args : List (BitVec 32)
  -- What `%n` has stored, and at which address.
  stores : List (BitVec 32 × Nat)
  deriving Repr, DecidableEq

structure Spec where
  flags : BitVec 32
  fieldWidth : Int
  precision : Int
  deriving Repr, DecidableEq

-- An argument is taken for `*`, but `fmt` stays at it.
def getFieldWidth (flags : BitVec 32) (fmt : List Char) (s : State) : Option (Spec × List Char × State) :=
  match fmt with
  | [] => some (⟨flags, -1, -1⟩, [], s)
  | c :: rest =>
    if c.isDigit then
      let (width, rest) := skipAtoi 0 (c :: rest)
      some (⟨flags, width, -1⟩, rest, s)
    else if c = '*' then
      match s.args with
      | [] => none
      | width :: args =>
        if width.slt 0 then
          some (⟨flags ||| LEFT, (-width).toInt, -1⟩, c :: rest, { s with args })
        else
          some (⟨flags, width.toInt, -1⟩, c :: rest, { s with args })
    else
      some (⟨flags, -1, -1⟩, c :: rest, s)

def getPrecision (spec : Spec) (fmt : List Char) (s : State) : Option (Spec × List Char × State) :=
  match fmt with
  | '.' :: [] => some ({ spec with precision := 0 }, [], s)
  | '.' :: c :: rest =>
    if c.isDigit then
      let (precision, rest) := skipAtoi 0 (c :: rest)
      some ({ spec with precision }, rest, s)
    else if c = '*' then
      match s.args with
      | [] => none
      | precision :: args => some ({ spec with precision := max precision.toInt 0 }, c :: rest, { s with args })
    else
      some ({ spec with precision := 0 }, c :: rest, s)
  | fmt => some (spec, fmt, s)

def skipQualifier : List Char → List Char
  | 'h' :: fmt => fmt
  | 'l' :: fmt => fmt
  | 'L' :: fmt => fmt
  | fmt => fmt

def convertNumber (base : Nat) (spec : Spec) (fmt : List Char) (s : State) : Option (List Char × State) :=
  match s.args with
  | [] => none
  | num :: args =>
    match number s.str num base spec.fieldWidth spec.precision spec.flags with
    | none => none
    | some str => some (fmt, { s with str, args })

def convertChar (spec : Spec) (fmt : List Char) (s : State) : Option (List Char × State) :=
  match s.args with
  | [] => none
  | c :: args =>
    -- `--field_width > 0`
    let (width, str) :=
      if has spec.flags LEFT then (spec.fieldWidth, s.str) else pad ' ' 1 spec.fieldWidth s.str
    let str := str ++ [Char.ofNat (c.toNat % 256)]
    some (fmt, { s with str := (pad ' ' 1 width str).snd, args })

def convertString (mem : BitVec 32 → List Char) (spec : Spec) (fmt : List Char) (s : State)
    : Option (List Char × State) :=
  match s.args with
  | [] => none
  | p :: args =>
    let len : Int := (mem p).length
    let len := if spec.precision < 0 then len else if spec.precision < len then spec.precision else len
    let (width, str) :=
      if has spec.flags LEFT then (spec.fieldWidth, s.str) else pad ' ' len spec.fieldWidth s.str
    let str := str ++ (mem p).take len.toNat
    some (fmt, { s with str := (pad ' ' len width str).snd, args })

def convert (mem : BitVec 32 → List Char) (spec : Spec) (fmt : List Char) (s : State)
    : Option (List Char × State) :=
  match fmt with
  | 'c' :: fmt => convertChar spec fmt s
  | 's' :: fmt => convertString mem spec fmt s
  | 'o' :: fmt => convertNumber 8 spec fmt s
  | 'p' :: fmt =>
    if spec.fieldWidth = -1 then
      convertNumber 16 { spec with fieldWidth := 8, flags := spec.flags ||| ZEROPAD } fmt s
    else
      convertNumber 16 spec fmt s
  | 'x' :: fmt => convertNumber 16 { spec with flags := spec.flags ||| SMALL } fmt s
  | 'X' :: fmt => convertNumber 16 spec fmt s
  | 'd' :: fmt => convertNumber 10 { spec with flags := spec.flags ||| SIGN } fmt s
  | 'i' :: fmt => convertNumber 10 { spec with flags := spec.flags ||| SIGN } fmt s
  | 'u' :: fmt => convertNumber 10 spec fmt s
  | 'n' :: fmt =>
    match s.args with
    | [] => none
    | ip :: args => some (fmt, { s with args, stores := s.stores ++ [(ip, s.str.length)] })
  | '%' :: fmt => some (fmt, { s with str := s.str ++ ['%'] })
  | c :: fmt => some (fmt, { s with str := s.str ++ ['%', c] })
  | [] => some ([], { s with str := s.str ++ ['%'] })

-- What follows a `%`.
def directive (mem : BitVec 32 → List Char) (fmt : List Char) (s : State) : Option (List Char × State) :=
  let (flags, fmt) := skipFlags 0 fmt
  match getFieldWidth flags fmt s with
  | none => none
  | some (spec, fmt, s) =>
    match getPrecision spec fmt s with
    | none => none
    | some (spec, fmt, s) => convert mem spec (skipQualifier fmt) s

theorem skipFlags_length (flags : BitVec 32) (fmt : List Char) : (skipFlags flags fmt).snd.length ≤ fmt.length := by
  fun_induction skipFlags flags fmt with
  | case1 => exact Nat.le_refl _
  | case2 flags c fmt flag _ ih => exact Nat.le_succ_of_le ih
  | case3 => exact Nat.le_refl _

theorem skipAtoi_length (i : Nat) (fmt : List Char) : (skipAtoi i fmt).snd.length ≤ fmt.length := by
  fun_induction skipAtoi i fmt with
  | case1 => exact Nat.le_refl _
  | case2 i c fmt _ ih => exact Nat.le_succ_of_le ih
  | case3 => exact Nat.le_refl _

theorem getFieldWidth_length {flags : BitVec 32} {fmt fmt' : List Char} {s s' : State} {spec : Spec}
    (h : getFieldWidth flags fmt s = some (spec, fmt', s'))
    : fmt'.length ≤ fmt.length := by
  unfold getFieldWidth at h
  split at h
  . cases h
    exact Nat.le_refl _
  . next c rest =>
    split at h
    . cases h
      exact skipAtoi_length 0 (c :: rest)
    . split at h
      . split at h
        . cases h
        . split at h <;> (cases h; exact Nat.le_refl _)
      . cases h
        exact Nat.le_refl _

theorem getPrecision_length {spec spec' : Spec} {fmt fmt' : List Char} {s s' : State}
    (h : getPrecision spec fmt s = some (spec', fmt', s'))
    : fmt'.length ≤ fmt.length := by
  unfold getPrecision at h
  split at h
  . cases h
    exact Nat.zero_le _
  . next c rest =>
    split at h
    . cases h
      exact Nat.le_succ_of_le (skipAtoi_length 0 (c :: rest))
    . split at h
      . split at h
        . cases h
        . cases h
          exact Nat.le_succ _
      . cases h
        exact Nat.le_succ _
  . cases h
    exact Nat.le_refl _

theorem skipQualifier_length (fmt : List Char) : (skipQualifier fmt).length ≤ fmt.length := by
  unfold skipQualifier
  split <;> simp

theorem convertNumber_fmt {base : Nat} {spec : Spec} {fmt fmt' : List Char} {s s' : State}
    (h : convertNumber base spec fmt s = some (fmt', s'))
    : fmt' = fmt := by
  unfold convertNumber at h
  split at h
  . cases h
  . split at h
    . cases h
    . cases h
      rfl

theorem convertChar_fmt {spec : Spec} {fmt fmt' : List Char} {s s' : State}
    (h : convertChar spec fmt s = some (fmt', s'))
    : fmt' = fmt := by
  unfold convertChar at h
  split at h
  . cases h
  . cases h
    rfl

theorem convertString_fmt {mem : BitVec 32 → List Char} {spec : Spec} {fmt fmt' : List Char} {s s' : State}
    (h : convertString mem spec fmt s = some (fmt', s'))
    : fmt' = fmt := by
  unfold convertString at h
  split at h
  . cases h
  . cases h
    rfl

theorem convert_cons {mem : BitVec 32 → List Char} {spec : Spec} {c : Char} {fmt fmt' : List Char} {s s' : State}
    (h : convert mem spec (c :: fmt) s = some (fmt', s'))
    : fmt' = fmt := by
  have hnumber : ∀ {base spec}, convertNumber base spec fmt s = some (fmt', s') → fmt' = fmt := convertNumber_fmt
  unfold convert at h
  split at h
  . next heq =>
    cases heq
    exact convertChar_fmt h
  . next heq =>
    cases heq
    exact convertString_fmt h
  . next heq =>
    cases heq
    exact hnumber h
  . next heq =>
    cases heq
    split at h <;> exact hnumber h
  . next heq =>
    cases heq
    exact hnumber h
  . next heq =>
    cases heq
    exact hnumber h
  . next heq =>
    cases heq
    exact hnumber h
  . next heq =>
    cases heq
    exact hnumber h
  . next heq =>
    cases heq
    exact hnumber h
  . next heq =>
    cases heq
    split at h
    . cases h
    . cases h
      rfl
  . next heq =>
    cases heq
    cases h
    rfl
  . next heq =>
    cases heq
    cases h
    rfl
  . next heq => cases heq

theorem convert_length {mem : BitVec 32 → List Char} {spec : Spec} {fmt fmt' : List Char} {s s' : State}
    (h : convert mem spec fmt s = some (fmt', s'))
    : fmt'.length ≤ fmt.length := by
  cases fmt with
  | nil =>
    cases h
    exact Nat.le_refl _
  | cons c fmt =>
    rw [convert_cons h]
    exact Nat.le_succ _

theorem directive_length {mem : BitVec 32 → List Char} {fmt fmt' : List Char} {s s' : State}
    (h : directive mem fmt s = some (fmt', s'))
    : fmt'.length ≤ fmt.length := by
  have hflags := skipFlags_length 0 fmt
  unfold directive at h
  dsimp only at h
  split at h
  . cases h
  . next hwidth =>
    split at h
    . cases h
    . next fmt _ hprecision =>
      have hwidth := getFieldWidth_length hwidth
      have hprecision := getPrecision_length hprecision
      have hqualifier := skipQualifier_length fmt
      have hconvert := convert_length h
      omega

def vsprintf.loop (mem : BitVec 32 → List Char) (fmt : List Char) (s : State) : Option State :=
  match fmt with
  | [] => some s
  | c :: fmt =>
    if c ≠ '%' then
      loop mem fmt { s with str := s.str ++ [c] }
    else
      match _h : directive mem fmt s with
      | none => none
      | some (rest, s) => loop mem rest s
termination_by fmt.length
decreasing_by
  . exact Nat.lt_succ_self _
  . exact Nat.lt_succ_of_le (directive_length _h)

structure Output where
  buf : List Char
  len : Nat
  stores : List (BitVec 32 × Nat)
  deriving Repr, DecidableEq

def vsprintf (mem : BitVec 32 → List Char) (fmt : List Char) (args : List (BitVec 32)) : Option Output :=
  (vsprintf.loop mem fmt ⟨[], args, []⟩).map fun s =>
    { buf := s.str ++ ['\x00'], len := s.str.length, stores := s.stores }

-- What `fprintk` gives to `file_write`.
def line (mem : BitVec 32 → List Char) (fmt : List Char) (args : List (BitVec 32)) : Option (List Char) :=
  (vsprintf mem fmt args).map fun out => out.buf.take out.len

theorem pad_of_le (c : Char) {bound size : Int} (h : size ≤ bound) (str : List Char)
    : pad c bound size str = (size - 1, str) := by
  rw [pad, if_neg (by omega)]

theorem reverse_divide {digits : List Char} {base : Nat} (hbase : 1 < base)
    (hdigits : ∀ d < base, digits.getD d '0' = Nat.digitChar d) {num : Nat} (hnum : num ≠ 0)
    : (divide digits base hbase num).reverse = Nat.toDigits base num := by
  induction num using Nat.strongRecOn with
  | ind num ih =>
    rw [divide, if_neg hnum, List.reverse_cons, hdigits _ (Nat.mod_lt _ (by omega))]
    by_cases hlt : num < base
    . rw [Nat.div_eq_of_lt hlt, divide, if_pos rfl, Nat.mod_eq_of_lt hlt, Nat.toDigits_of_lt_base hlt]
      rfl
    . have hne : num / base ≠ 0 := Nat.div_ne_zero_iff.mpr (by omega)
      rw [ih _ (Nat.div_lt_self (by omega) hbase) hne, ← Nat.toDigits_of_base_le hbase (by omega)]

theorem largeDigits_eq : ∀ d < 10, largeDigits.getD d '0' = Nat.digitChar d := by
  decide

theorem has_sign
    : has SIGN SIGN = true ∧ has SIGN SMALL = false ∧ has SIGN LEFT = false ∧ has SIGN ZEROPAD = false
        ∧ has SIGN PLUS = false ∧ has SIGN SPACE = false ∧ has SIGN SPECIAL = false
        ∧ has SIGN (ZEROPAD + LEFT) = false := by
  decide

theorem natAbs_toInt (num : BitVec 32) : num.toInt.natAbs = (if num.slt 0 then -num else num).toNat := by
  have hlt := num.isLt
  rw [BitVec.slt_eq_decide]
  split
  . next hneg =>
    rw [BitVec.toNat_neg]
    simp [BitVec.toInt] at hneg ⊢
    omega
  . next hneg =>
    simp [BitVec.toInt] at hneg ⊢
    omega

theorem number_decimal (str : List Char) (num : BitVec 32)
    : number str num 10 (-1) (-1) SIGN = some (str ++ Decimal.chars num.toInt) := by
  obtain ⟨hsign, hsmall, hleft, hzeropad, hplus, hspace, hspecial, hboth⟩ := has_sign
  have hneg : num.toInt < 0 ↔ num.slt 0 = true := by simp [BitVec.slt_eq_decide]
  rw [Decimal.chars_eq, natAbs_toInt]
  simp only [hneg]
  unfold number
  dsimp only
  rw [dif_neg (by omega)]
  simp only [hsign, hsmall, hleft, hzeropad, hplus, hspace, hspecial, hboth, Bool.false_eq_true, if_false, Bool.true_and]
  generalize (if num.slt 0 = true then -num else num) = num'
  generalize hs : (if num.slt 0 = true then some '-' else none) = sign
  generalize htmp : (if num' = 0 then ['0'] else divide largeDigits 10 (by omega) num'.toNat) = tmp
  have hrev : tmp.reverse = Nat.toDigits 10 num'.toNat := by
    rw [← htmp]
    split
    . next hzero =>
      rw [hzero]
      rfl
    . next hne =>
      apply reverse_divide
      . apply largeDigits_eq
      . simpa [BitVec.toNat_eq] using hne
  have hsize : (if sign.isSome = true then (-1 : Int) - 1 else -1) ≤ -1 := by split <;> omega
  generalize (if sign.isSome = true then (-1 : Int) - 1 else -1) = size at hsize
  -- The precision is the number of digits now, and nothing is left of the size.
  rw [if_pos (show (-1 : Int) < tmp.length by omega),
    pad_of_le ' ' (show size - (tmp.length : Int) ≤ 0 by omega)]
  dsimp only
  rw [pad_of_le ' ' (show size - (tmp.length : Int) - 1 ≤ 0 by omega)]
  dsimp only
  rw [pad_of_le '0' (Int.le_refl _), pad_of_le ' ' (show size - (tmp.length : Int) - 1 - 1 ≤ 0 by omega), hrev, ← hs]
  cases num.slt 0 <;> simp

section Loop

variable (mem : BitVec 32 → List Char) (fmt str : List Char) (args : List (BitVec 32))
  (stores : List (BitVec 32 × Nat))

theorem loop_literal {c : Char} (h : c ≠ '%')
    : vsprintf.loop mem (c :: fmt) ⟨str, args, stores⟩ = vsprintf.loop mem fmt ⟨str ++ [c], args, stores⟩ := by
  rw [vsprintf.loop, if_pos h]

theorem loop_directive {s s' : State} {rest : List Char} (h : directive mem fmt s = some (rest, s'))
    : vsprintf.loop mem ('%' :: fmt) s = vsprintf.loop mem rest s' := by
  rw [vsprintf.loop, if_neg (by simp)]
  split
  . next hnone =>
    rw [hnone] at h
    cases h
  . next hsome =>
    rw [hsome] at h
    cases h
    rfl

theorem directive_ld (num : BitVec 32)
    : directive mem ('l' :: 'd' :: fmt) ⟨str, num :: args, stores⟩
        =
      some (fmt, ⟨str ++ Decimal.chars num.toInt, args, stores⟩) := by
  have hspec : directive mem ('l' :: 'd' :: fmt) ⟨str, num :: args, stores⟩
      = convertNumber 10 ⟨SIGN, -1, -1⟩ fmt ⟨str, num :: args, stores⟩ := by
    simp [directive, skipFlags, flagOf, getFieldWidth, getPrecision, skipQualifier, convert]
  rw [hspec]
  unfold convertNumber
  dsimp only
  rw [number_decimal]

theorem directive_c (c : BitVec 32)
    : directive mem ('c' :: fmt) ⟨str, c :: args, stores⟩
        =
      some (fmt, ⟨str ++ [Char.ofNat (c.toNat % 256)], args, stores⟩) := by
  have hspec : directive mem ('c' :: fmt) ⟨str, c :: args, stores⟩
      = convertChar ⟨0, -1, -1⟩ fmt ⟨str, c :: args, stores⟩ := by
    simp [directive, skipFlags, flagOf, getFieldWidth, getPrecision, skipQualifier, convert]
  rw [hspec]
  unfold convertChar
  dsimp only
  rw [if_neg (by decide), pad_of_le ' ' (show (-1 : Int) ≤ 1 by omega)]
  dsimp only
  rw [pad_of_le ' ' (show (-1 : Int) - 1 ≤ 1 by omega)]

end Loop

end Vsprintf
end OS
