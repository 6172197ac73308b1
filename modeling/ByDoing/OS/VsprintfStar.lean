import ByDoing.OS.Vsprintf

namespace OS
namespace Vsprintf

inductive Flag where
  | left
  | plus
  | space
  | special
  | zeropad

def Flag.char : Flag → Char
  | left => '-'
  | plus => '+'
  | space => ' '
  | special => '#'
  | zeropad => '0'

inductive Written where
  | digits
  | star

def Written.text (n : Nat) : Written → List Char
  | digits => Nat.toDigits 10 n
  | star => ['*']

def Written.args (n : Nat) : Written → List (BitVec 32)
  | digits => []
  | star => [BitVec.ofNat 32 n]

inductive Width where
  | absent
  | digits (m : Nat)
  | star (m : BitVec 32)

def Width.text : Width → List Char
  | absent => []
  | digits m => Nat.toDigits 10 m
  | star _ => ['*']

def Width.args : Width → List (BitVec 32)
  | star m => [m]
  | _ => []

inductive Place where
  | width
  | precision (width : Width)

def Place.text : Place → List Char
  | .width => []
  | .precision w => w.text ++ ['.']

def Place.args : Place → List (BitVec 32)
  | .width => []
  | .precision w => w.args

-- What follows the `%` up to and with the number `n`, and `rest`, the qualifier, the conversion and all text behind it.
def text (flags : List Flag) (place : Place) (n : Nat) (rest : List Char) (as : Written) : List Char :=
  flags.map Flag.char ++ (place.text ++ (as.text n ++ rest))

def State.given (s : State) (place : Place) (n : Nat) (as : Written) : State :=
  { s with args := place.args ++ (as.args n ++ s.args) }

/--
The two ways to write `n` come to the same from the state `s` on, which the format up to the `%` has led to: the output
is the same, and so are the format and the arguments that the directive leaves to what follows.
-/
structure Alike (mem : BitVec 32 → List Char) (s : State) (flags : List Flag) (place : Place) (n : Nat)
    (rest : List Char) : Prop where
  output : ((vsprintf.loop mem ('%' :: text flags place n rest .star) (s.given place n .star)).map fun s =>
        (s.str, s.stores))
      =
    (vsprintf.loop mem ('%' :: text flags place n rest .digits) (s.given place n .digits)).map fun s =>
      (s.str, s.stores)
  consumed : ((directive mem (text flags place n rest .star) (s.given place n .star)).map fun r => (r.1, r.2.args))
      =
    (directive mem (text flags place n rest .digits) (s.given place n .digits)).map fun r => (r.1, r.2.args)

variable {mem : BitVec 32 → List Char} {s s' : State} {flags : List Flag} {fmt fmt' rest : List Char} {n : Nat}

theorem flagOf_char (flag : Flag) : (flagOf flag.char).isSome := by
  cases flag with
  | _ => rfl

theorem skipFlags_flags (flags : List Flag) (init : BitVec 32) (fmt : List Char)
    : ∃ bits, skipFlags init (flags.map Flag.char ++ fmt) = skipFlags bits fmt := by
  induction flags generalizing init with
  | nil => exact ⟨init, rfl⟩
  | cons flag flags ih =>
    obtain ⟨bit, hbit⟩ := Option.isSome_iff_exists.mp (flagOf_char flag)
    rw [List.map_cons, List.cons_append, skipFlags, hbit]
    exact ih (init ||| bit)

theorem skipFlags_digits {ds : List Char} (hds : ∀ c ∈ ds, c.isDigit = true) (init : BitVec 32) (fmt : List Char)
    : (∃ bits, skipFlags init (ds ++ fmt) = skipFlags bits fmt)
        ∨
      ∃ bits c ds', skipFlags init (ds ++ fmt) = (bits, c :: ds' ++ fmt)
        ∧ ∀ d ∈ c :: ds', d.isDigit = true := by
  induction ds generalizing init with
  | nil =>
    left
    exact ⟨init, rfl⟩
  | cons c ds ih =>
    rw [List.cons_append, skipFlags]
    split
    . next flag _ => exact ih (fun d hd => hds d (List.mem_cons_of_mem c hd)) (init ||| flag)
    . right
      exact ⟨init, c, ds, rfl, hds⟩

theorem skipAtoi_digits {ds : List Char} (hds : ∀ c ∈ ds, c.isDigit = true) (i : Nat) (fmt : List Char)
    : ∃ j, skipAtoi i (ds ++ fmt) = skipAtoi j fmt := by
  induction ds generalizing i with
  | nil => exact ⟨i, rfl⟩
  | cons c ds ih =>
    rw [List.cons_append, skipAtoi, if_pos (hds c List.mem_cons_self)]
    exact ih (fun d hd => hds d (List.mem_cons_of_mem c hd)) _

theorem isDigit_toDigits (n : Nat) : ∀ c ∈ Nat.toDigits 10 n, c.isDigit = true := by
  intro c hc
  exact Nat.isDigit_of_mem_toDigits (by omega) (by omega) hc

def afterWidth (mem : BitVec 32 → List Char) (spec : Spec) (fmt : List Char) (s : State)
    : Option (List Char × State) :=
  match getPrecision spec fmt s with
  | none => none
  | some (spec, fmt, s) => convert mem spec (skipQualifier fmt) s

theorem directive_eq {bits : BitVec 32} (h : skipFlags 0 fmt = (bits, fmt')) (s : State)
    : directive mem fmt s
        =
      match getFieldWidth bits fmt' s with
      | none => none
      | some (spec, fmt, s) => afterWidth mem spec fmt s := by
  unfold directive
  rw [h]
  rfl

theorem skipFlags_of_none {c : Char} (h : flagOf c = none) (bits : BitVec 32) (fmt : List Char)
    : skipFlags bits (c :: fmt) = (bits, c :: fmt) := by
  rw [skipFlags, h]

theorem directive_width_star (flags : List Flag) (rest : List Char) (m : BitVec 32) (args : List (BitVec 32))
    (s : State)
    : directive mem (flags.map Flag.char ++ '*' :: rest) { s with args := m :: args }
        =
      some (rest, { s with str := s.str ++ ['%', '*'], args }) := by
  obtain ⟨bits, hflags⟩ := skipFlags_flags flags 0 ('*' :: rest)
  rw [skipFlags_of_none rfl] at hflags
  have hwidth : ∃ spec, getFieldWidth bits ('*' :: rest) { s with args := m :: args }
      = some (spec, '*' :: rest, { s with args }) := by
    unfold getFieldWidth
    dsimp only
    rw [if_neg (by decide), if_pos rfl]
    split
    . exact ⟨_, rfl⟩
    . exact ⟨_, rfl⟩
  obtain ⟨spec, hwidth⟩ := hwidth
  rw [directive_eq hflags, hwidth]
  rfl

theorem directive_width_digits {ds : List Char} (hds : ∀ c ∈ ds, c.isDigit = true) (flags : List Flag)
    (fmt : List Char) (s : State)
    : ∃ spec, directive mem (flags.map Flag.char ++ (ds ++ '.' :: fmt)) s = afterWidth mem spec ('.' :: fmt) s := by
  obtain ⟨bits, hflags⟩ := skipFlags_flags flags 0 (ds ++ '.' :: fmt)
  rcases skipFlags_digits hds bits ('.' :: fmt) with ⟨bits', hskip⟩ | ⟨bits', c, ds', hskip, hds'⟩
  . rw [hskip, skipFlags_of_none rfl] at hflags
    rw [directive_eq hflags]
    exact ⟨_, rfl⟩
  . rw [hskip] at hflags
    rw [directive_eq hflags]
    obtain ⟨j, hatoi⟩ := skipAtoi_digits hds' 0 ('.' :: fmt)
    have hdot : skipAtoi j ('.' :: fmt) = (j, '.' :: fmt) := by
      rw [skipAtoi, if_neg (by decide)]
    have hc := hds' c List.mem_cons_self
    refine ⟨⟨bits', j, -1⟩, ?_⟩
    rw [hdot] at hatoi
    unfold getFieldWidth
    dsimp only [List.cons_append] at hatoi ⊢
    rw [if_pos hc, hatoi]

theorem afterWidth_dot_star (spec : Spec) (rest : List Char) (m : BitVec 32) (args : List (BitVec 32)) (s : State)
    : afterWidth mem spec ('.' :: '*' :: rest) { s with args := m :: args }
        =
      some (rest, { s with str := s.str ++ ['%', '*'], args }) := by
  have hprecision : getPrecision spec ('.' :: '*' :: rest) { s with args := m :: args }
      = some ({ spec with precision := max m.toInt 0 }, '*' :: rest, { s with args }) := by
    have hdigit : '*'.isDigit = false := by decide
    simp only [getPrecision, hdigit, Bool.false_eq_true, if_false, if_true]
  unfold afterWidth
  rw [hprecision]
  rfl

theorem convert_progress {spec : Spec} (h : convert mem spec fmt s = some (fmt', s'))
    : fmt'.length < fmt.length ∨ fmt' = [] ∧ s'.str = s.str ++ ['%'] := by
  cases fmt with
  | nil =>
    right
    cases h
    exact ⟨rfl, rfl⟩
  | cons c fmt =>
    left
    rw [convert_cons h]
    exact Nat.lt_succ_self _

theorem getFieldWidth_str {bits : BitVec 32} {spec : Spec} (h : getFieldWidth bits fmt s = some (spec, fmt', s'))
    : s'.str = s.str := by
  unfold getFieldWidth at h
  split at h
  . cases h
    rfl
  . split at h
    . cases h
      rfl
    . split at h
      . split at h
        . cases h
        . split at h <;> (cases h; rfl)
      . cases h
        rfl

theorem getPrecision_str {spec spec' : Spec} (h : getPrecision spec fmt s = some (spec', fmt', s'))
    : s'.str = s.str := by
  unfold getPrecision at h
  split at h
  . cases h
    rfl
  . split at h
    . cases h
      rfl
    . split at h
      . split at h
        . cases h
        . cases h
          rfl
      . cases h
        rfl
  . cases h
    rfl

-- The directive leaves less than `rest`, unless it stands at the end of the format and is only its `%`.
def Takes (s : State) (rest : List Char) : Option (List Char × State) → Prop
  | none => True
  | some (fmt', s') => fmt'.length < rest.length ∨ fmt' = [] ∧ s'.str = s.str ++ ['%']

theorem takes_convert {spec : Spec} (hlength : fmt.length ≤ rest.length) (hstr : s'.str = s.str)
    : Takes s rest (convert mem spec (skipQualifier fmt) s') := by
  cases h : convert mem spec (skipQualifier fmt) s' with
  | none => trivial
  | some r =>
    have hqualifier := skipQualifier_length fmt
    rcases convert_progress h with hlt | ⟨hnil, hpercent⟩
    . left
      omega
    . right
      rw [hstr] at hpercent
      exact ⟨hnil, hpercent⟩

theorem takes_afterWidth {spec : Spec} (hlength : fmt.length ≤ rest.length) (hstr : s'.str = s.str)
    : Takes s rest (afterWidth mem spec fmt s') := by
  unfold afterWidth
  split
  . trivial
  . next hprecision =>
    apply takes_convert
    . exact Nat.le_trans (getPrecision_length hprecision) hlength
    . exact (getPrecision_str hprecision).trans hstr

theorem takes_width_digits {ds : List Char} (hds : ∀ c ∈ ds, c.isDigit = true) (flags : List Flag)
    (rest : List Char) (s : State)
    : Takes s rest (directive mem (flags.map Flag.char ++ (ds ++ rest)) s) := by
  obtain ⟨bits, hflags⟩ := skipFlags_flags flags 0 (ds ++ rest)
  have hwidth : ∀ {bits fmt'}, skipFlags 0 (flags.map Flag.char ++ (ds ++ rest)) = (bits, fmt') →
      (∀ spec fmt'' s', getFieldWidth bits fmt' s = some (spec, fmt'', s') → fmt''.length ≤ rest.length) →
      Takes s rest (directive mem (flags.map Flag.char ++ (ds ++ rest)) s) := by
    intro bits fmt' hskip hlength
    rw [directive_eq hskip]
    split
    . trivial
    . next hwidth => exact takes_afterWidth (hlength _ _ _ hwidth) (getFieldWidth_str hwidth)
  rcases skipFlags_digits hds bits rest with ⟨bits', hskip⟩ | ⟨bits', c, ds', hskip, hds'⟩
  . rw [hskip] at hflags
    apply hwidth hflags
    intro spec fmt'' s' hfield
    exact Nat.le_trans (getFieldWidth_length hfield) (skipFlags_length bits' rest)
  . rw [hskip] at hflags
    apply hwidth hflags
    intro spec fmt'' s' hfield
    obtain ⟨j, hatoi⟩ := skipAtoi_digits hds' 0 rest
    have hc := hds' c List.mem_cons_self
    unfold getFieldWidth at hfield
    dsimp only [List.cons_append] at hatoi hfield
    rw [if_pos hc, hatoi] at hfield
    cases hfield
    exact skipAtoi_length j rest

theorem takes_dot_digits {ds : List Char} (hds : ∀ c ∈ ds, c.isDigit = true) (hne : ds ≠ []) (spec : Spec)
    (rest : List Char) (s : State)
    : Takes s rest (afterWidth mem spec ('.' :: (ds ++ rest)) s) := by
  cases ds with
  | nil => exact absurd rfl hne
  | cons c ds =>
    obtain ⟨j, hatoi⟩ := skipAtoi_digits hds 0 rest
    have hc := hds c List.mem_cons_self
    rw [List.cons_append] at hatoi ⊢
    have hprecision : getPrecision spec ('.' :: c :: (ds ++ rest)) s
        = some ({ spec with precision := (skipAtoi j rest).1 }, (skipAtoi j rest).2, s) := by
      simp only [getPrecision, hc, if_true, hatoi]
    unfold afterWidth
    rw [hprecision]
    exact takes_convert (skipAtoi_length j rest) rfl

theorem not_alike_of_takes {place : Place}
    (hstar : directive mem (text flags place n rest .star) (s.given place n .star)
      = some (rest, { s with str := s.str ++ ['%', '*'] }))
    (htakes : Takes s rest (directive mem (text flags place n rest .digits) (s.given place n .digits)))
    : ¬ Alike mem s flags place n rest := by
  intro halike
  have hconsumed := halike.consumed
  rw [hstar] at hconsumed
  cases hdigits : directive mem (text flags place n rest .digits) (s.given place n .digits) with
  | none =>
    rw [hdigits] at hconsumed
    cases hconsumed
  | some r =>
    obtain ⟨fmt', s'⟩ := r
    rw [hdigits] at hconsumed htakes
    have hfmt : rest = fmt' := (Prod.mk.inj (Option.some.inj hconsumed)).left
    subst hfmt
    rcases htakes with hlt | ⟨rfl, hstr⟩
    . exact absurd hlt (Nat.lt_irrefl _)
    . -- at the end of the format the one writes a character more than the other
      have houtput := halike.output
      rw [loop_directive _ _ hstar, loop_directive _ _ hdigits, vsprintf.loop, vsprintf.loop] at houtput
      have hsame : s.str ++ ['%', '*'] = s'.str := (Prod.mk.inj (Option.some.inj houtput)).left
      have hlength := congrArg List.length (hsame.trans hstr)
      rw [List.length_append, List.length_append, Nat.add_left_cancel_iff] at hlength
      exact absurd hlength (by decide)

theorem not_alike_width : ¬ Alike mem s flags .width n rest := by
  apply not_alike_of_takes
  . exact directive_width_star flags rest (BitVec.ofNat 32 n) s.args s
  . exact takes_width_digits (isDigit_toDigits n) flags rest s

theorem not_alike_precision {ds : List Char} (hds : ∀ c ∈ ds, c.isDigit = true) {w : Width} (htext : w.text = ds)
    (hargs : w.args = [])
    : ¬ Alike mem s flags (.precision w) n rest := by
  have htext' : ∀ as, text flags (.precision w) n rest as
      = flags.map Flag.char ++ (ds ++ '.' :: (as.text n ++ rest)) := by
    intro as
    unfold text Place.text
    dsimp only
    rw [htext, List.append_assoc]
    rfl
  have hgiven : ∀ as, s.given (.precision w) n as = { s with args := as.args n ++ s.args } := by
    intro as
    unfold State.given Place.args
    dsimp only
    rw [hargs]
    rfl
  apply not_alike_of_takes
  . rw [htext', hgiven]
    obtain ⟨spec, hwidth⟩ := @directive_width_digits mem ds hds flags ('*' :: rest)
      { s with args := BitVec.ofNat 32 n :: s.args }
    exact hwidth.trans (afterWidth_dot_star spec rest _ _ s)
  . rw [htext', hgiven]
    obtain ⟨spec, hwidth⟩ := @directive_width_digits mem ds hds flags (Nat.toDigits 10 n ++ rest) s
    change Takes s rest (directive mem (flags.map Flag.char ++ (ds ++ '.' :: (Nat.toDigits 10 n ++ rest))) s)
    rw [hwidth]
    exact takes_dot_digits (isDigit_toDigits n) Nat.toDigits_ne_nil spec rest s

theorem not_alike_star (m : BitVec 32) : ¬ Alike mem s flags (.precision (.star m)) n rest := by
  intro halike
  have hconsumed := halike.consumed
  have hstar : ∀ as, directive mem (text flags (.precision (.star m)) n rest as) (s.given (.precision (.star m)) n as)
      = some ('.' :: (as.text n ++ rest), { s with str := s.str ++ ['%', '*'], args := as.args n ++ s.args }) := by
    intro as
    exact directive_width_star flags ('.' :: (as.text n ++ rest)) m (as.args n ++ s.args) s
  rw [hstar, hstar] at hconsumed
  have hfmt := (Prod.mk.inj (Option.some.inj hconsumed)).left
  have htext : '*' :: rest = Nat.toDigits 10 n ++ rest := (List.cons.inj hfmt).right
  cases hds : Nat.toDigits 10 n with
  | nil => exact Nat.toDigits_ne_nil hds
  | cons c ds =>
    have hc := isDigit_toDigits n c (by rw [hds]; exact List.mem_cons_self)
    rw [hds, List.cons_append] at htext
    rw [← (List.cons.inj htext).left] at hc
    exact absurd hc (by decide)

/--
Whatever the flags, the place of the `*`, the number and the text behind it are: a `*` never does what the
digits of its argument do.
-/
theorem not_alike (mem : BitVec 32 → List Char) (s : State) (flags : List Flag) (place : Place) (n : Nat)
    (rest : List Char)
    : ¬ Alike mem s flags place n rest := by
  cases place with
  | width => exact not_alike_width
  | precision w =>
    cases w with
    | absent => exact not_alike_precision (fun c hc => absurd hc List.not_mem_nil) rfl rfl
    | digits m => exact not_alike_precision (isDigit_toDigits m) rfl rfl
    | star m => exact not_alike_star m

/--
The format `%*c` with the arguments 2 and `x` gives `%*c`, the format `%2c` with the argument `x` a blank and `x`.
-/
theorem not_alike_two
    : (vsprintf (fun _ => []) ['%', '*', 'c'] [2, 120]).map Output.buf
        ≠
      (vsprintf (fun _ => []) ['%', '2', 'c'] [120]).map Output.buf := by
  have hstar : directive (fun _ => []) ['*', 'c'] ⟨[], [2, 120], []⟩ = some (['c'], ⟨['%', '*'], [120], []⟩) :=
    directive_width_star [] ['c'] 2 [120] ⟨[], [], []⟩
  have hdigits : directive (fun _ => []) ['2', 'c'] ⟨[], [120], []⟩ = some ([], ⟨[' ', 'x'], [], []⟩) := by
    have hspec : directive (fun _ => []) ['2', 'c'] ⟨[], [120], []⟩
        = convertChar ⟨0, 2, -1⟩ [] ⟨[], [120], []⟩ := by
      simp [directive, skipFlags, flagOf, getFieldWidth, getPrecision, skipQualifier, convert, skipAtoi]
    have hpad : pad ' ' 1 2 [] = (0, [' ']) := by
      rw [pad, if_pos (by decide), pad_of_le ' ' (by decide)]
      rfl
    rw [hspec]
    unfold convertChar
    dsimp only
    rw [if_neg (by decide), hpad]
    dsimp only
    rw [pad_of_le ' ' (by decide)]
    rfl
  have hleft : (vsprintf (fun _ => []) ['%', '*', 'c'] [2, 120]).map Output.buf = some ['%', '*', 'c', '\x00'] := by
    unfold vsprintf
    rw [loop_directive _ _ hstar, loop_literal _ _ _ _ _ (by decide), vsprintf.loop]
    rfl
  have hright : (vsprintf (fun _ => []) ['%', '2', 'c'] [120]).map Output.buf = some [' ', 'x', '\x00'] := by
    unfold vsprintf
    rw [loop_directive _ _ hdigits, vsprintf.loop]
    rfl
  rw [hleft, hright]
  decide

end Vsprintf
end OS
