import ByDoing.NetWork.HttpParse

namespace NetWork

theorem comparePrefix_eq_zero_iff {as lit : List UInt8} (hlit : 0 ∉ lit)
    : HttpRequest.comparePrefix as lit = some 0 ↔ lit <+: as := by
  unfold HttpRequest.comparePrefix
  induction lit generalizing as with
  | nil => simp [strncmp]
  | cons b lit ih =>
    rw [List.mem_cons, not_or] at hlit
    cases as with
    | nil => simp [strncmp]
    | cons a as =>
      rw [List.cons_append, List.length_cons, strncmp, List.cons_prefix_cons]
      by_cases hab : a = b
      . subst hab
        rw [if_pos rfl, if_neg (Ne.symm hlit.left), ih hlit.right]
        simp
      . rw [if_neg hab]
        have hne : (a.toNat : Int) - b.toNat ≠ 0 := by
          intro heq
          apply hab
          apply UInt8.toNat_inj.mp
          omega
        simp [hne, Ne.symm hab]

theorem comparePrefix_eq_none_iff {as lit : List UInt8} (hlit : 0 ∉ lit)
    : HttpRequest.comparePrefix as lit = none ↔ as <+: lit ∧ as ≠ lit := by
  unfold HttpRequest.comparePrefix
  induction lit generalizing as with
  | nil => simp [strncmp]
  | cons b lit ih =>
    rw [List.mem_cons, not_or] at hlit
    cases as with
    | nil => simp [strncmp]
    | cons a as =>
      rw [List.cons_append, List.length_cons, strncmp, List.cons_prefix_cons]
      by_cases hab : a = b
      . subst hab
        rw [if_pos rfl, if_neg (Ne.symm hlit.left), ih hlit.right]
        simp
      . rw [if_neg hab]
        simp [hab]

def oneAbove : List UInt8 → List UInt8 → Bool
  | a :: as, b :: bs => if a = b then oneAbove as bs else a.toNat == b.toNat + 1
  | _, _ => false

theorem comparePrefix_eq_one_iff {s rest lit : List UInt8} (hlit : 0 ∉ lit)
    : HttpRequest.comparePrefix (s ++ 0 :: rest) lit = some 1 ↔ oneAbove s lit = true := by
  unfold HttpRequest.comparePrefix
  induction lit generalizing s with
  | nil => cases s <;> simp [strncmp, oneAbove]
  | cons b lit ih =>
    rw [List.mem_cons, not_or] at hlit
    cases s with
    | nil =>
      rw [List.nil_append, List.cons_append, List.length_cons, strncmp, if_neg hlit.left]
      simp [oneAbove]
      omega
    | cons a s =>
      rw [List.cons_append, List.cons_append, List.length_cons, strncmp, oneAbove]
      by_cases hab : a = b
      . subst hab
        rw [if_pos rfl, if_pos rfl, if_neg (Ne.symm hlit.left), ih hlit.right]
      . rw [if_neg hab, if_neg hab]
        simp
        omega

namespace CharBlock

theorem bytes_of_cString {block : CharBlock} {s : List UInt8} (h : block.cString = some s)
    : 0 ∉ s ∧ ∃ rest, block.bytes = s ++ 0 :: rest := by
  unfold cString at h
  split at h
  . next hmem =>
    rw [Option.some.injEq] at h
    obtain ⟨src, rest, hbytes, hsrc⟩ := List.eq_append_cons_of_mem hmem
    rw [hbytes, Block.takeWhile_append_terminator hsrc] at h
    subst h
    exact ⟨hsrc, rest, hbytes⟩
  . simp at h

theorem startsWith_iff {block : CharBlock} {s lit : List UInt8} (h : block.cString = some s)
    (hlit : 0 ∉ lit)
    : lit <+: block.bytes ↔ lit <+: s := by
  obtain ⟨_, rest, hbytes⟩ := bytes_of_cString h
  rw [hbytes]
  constructor
  . intro hpre
    by_cases hlen : lit.length ≤ s.length
    . apply List.prefix_of_prefix_length_le hpre (List.prefix_append s _) hlen
    . -- A longer string would have to hold the terminator.
      have hterminated : s ++ [0] <+: lit := by
        apply List.prefix_of_prefix_length_le _ hpre
        . rw [List.length_append, List.length_singleton]
          omega
        . exact ⟨rest, by simp⟩
      apply absurd (hterminated.subset _) hlit
      simp
  . intro hpre
    exact hpre.trans (List.prefix_append s _)

theorem comparePrefix_isSome {block : CharBlock} {s lit : List UInt8} (h : block.cString = some s)
    (hlit : 0 ∉ lit)
    : ∃ d, HttpRequest.comparePrefix block.bytes lit = some d := by
  obtain ⟨_, rest, hbytes⟩ := bytes_of_cString h
  cases hcompare : HttpRequest.comparePrefix block.bytes lit with
  | some d => exact ⟨d, rfl⟩
  | none =>
    rw [comparePrefix_eq_none_iff hlit, hbytes] at hcompare
    apply absurd (hcompare.left.subset _) hlit
    simp

end CharBlock

namespace HttpRequest

def hasKey (key : List UInt8) (h : RequestHeader) : Bool :=
  h.key.cString == some key

def startsWithKey (key : List UInt8) (h : RequestHeader) : Bool :=
  match h.key.cString with
  | some s => key.isPrefixOf s
  | none => false

-- What the parser leaves: `next` is the byte where the terminator of the version should be.
structure Parsed (r : HttpRequest) (version : List UInt8) (next : UInt8) : Prop where
  version_eq : ∃ overrun, r.version = some ⟨version ++ [next], overrun⟩
  keys : ∀ h ∈ r.requestHeaders, ∃ key, h.key.cString = some key
  values : ∀ h ∈ r.requestHeaders, ∃ value, h.value.cString = some value

def GetsHeader (r : HttpRequest) (key : List UInt8) : Prop :=
  r.httpRequestGetHeader key = some ((r.requestHeaders.find? (hasKey key)).map RequestHeader.value)

def connectionValue (r : HttpRequest) : Option (List UInt8) :=
  (r.requestHeaders.find? (hasKey CONNECTION)).bind fun h => h.value.cString

def versionText (version : List UInt8) : List UInt8 :=
  version.takeWhile (· != 0)

def mustClose (r : HttpRequest) (version : List UInt8) : Bool :=
  r.connectionValue == some CLOSE
    || versionText version == HTTP10 && r.connectionValue != some KEEP_ALIVE

def DecidesClose (r : HttpRequest) (version : List UInt8) : Prop :=
  r.httpRequestCloseConnection = some (r.mustClose version)

def foundValue (r : HttpRequest) : Option (List UInt8) :=
  (r.requestHeaders.find? (startsWithKey CONNECTION)).bind fun h => h.value.cString

def isShadowed (r : HttpRequest) (key : List UInt8) : Bool :=
  match r.requestHeaders.find? (startsWithKey key) with
  | none => false
  | some h => !hasKey key h && (r.requestHeaders.find? (hasKey key)).map RequestHeader.value != some h.value

-- The block of the version ends before it differs from `HTTP/1.0`.
def isCut (stored : List UInt8) : Bool :=
  stored.isPrefixOf HTTP10 && stored != HTTP10

def closeAgrees (r : HttpRequest) (version : List UInt8) (next : UInt8) : Bool :=
  let stored := version ++ [next]
  match r.foundValue with
  | none => !HTTP10.isPrefixOf stored && !isCut stored
  | some value =>
    if CLOSE.isPrefixOf value then
      r.mustClose version
    else if HTTP10.isPrefixOf stored then
      oneAbove value KEEP_ALIVE == r.mustClose version
    else
      !isCut stored && r.connectionValue != some CLOSE

section Lookup

variable {r : HttpRequest} {version key : List UInt8} {next : UInt8}

theorem go_eq_find {hs : List RequestHeader} (hkeys : ∀ h ∈ hs, ∃ key, h.key.cString = some key)
    (hkey : 0 ∉ key)
    : httpRequestGetHeader.go key hs = some ((hs.find? (startsWithKey key)).map RequestHeader.value) := by
  induction hs with
  | nil => rfl
  | cons h hs ih =>
    rw [List.forall_mem_cons] at hkeys
    obtain ⟨⟨s, hs⟩, hrest⟩ := hkeys
    obtain ⟨d, hd⟩ := CharBlock.comparePrefix_isSome hs hkey
    have hzero : d = 0 ↔ startsWithKey key h = true := by
      have hstarts := CharBlock.startsWith_iff hs hkey
      rw [← comparePrefix_eq_zero_iff hkey, hd, Option.some.injEq] at hstarts
      rw [hstarts, startsWithKey, hs, List.isPrefixOf_iff_prefix]
    rw [httpRequestGetHeader.go, hd, List.find?_cons]
    dsimp only
    cases hstarts : startsWithKey key h with
    | true =>
      rw [hstarts] at hzero
      rw [if_pos (hzero.mpr rfl)]
      rfl
    | false =>
      rw [hstarts] at hzero
      rw [if_neg (fun heq => by simpa using hzero.mp heq), ih hrest]

theorem startsWithKey_of_hasKey {h : RequestHeader} (hkey : hasKey key h = true)
    : startsWithKey key h = true := by
  unfold hasKey at hkey
  rw [beq_iff_eq] at hkey
  simp [startsWithKey, hkey]

theorem find_hasKey_eq_none (h : r.requestHeaders.find? (startsWithKey key) = none)
    : r.requestHeaders.find? (hasKey key) = none := by
  rw [List.find?_eq_none] at *
  intro header hheader hhas
  exact h header hheader (startsWithKey_of_hasKey hhas)

theorem find_hasKey_of_find {h : RequestHeader}
    (hfind : r.requestHeaders.find? (startsWithKey key) = some h) (hhas : hasKey key h = true)
    : r.requestHeaders.find? (hasKey key) = some h := by
  rw [List.find?_eq_some_iff_append] at *
  obtain ⟨_, before, after, hsplit, hbefore⟩ := hfind
  refine ⟨hhas, before, after, hsplit, ?_⟩
  intro header hheader
  have hnot := hbefore header hheader
  rw [Bool.not_eq_true'] at hnot ⊢
  by_contra hkey
  rw [Bool.not_eq_false] at hkey
  rw [startsWithKey_of_hasKey hkey] at hnot
  simp at hnot

theorem getsHeader_iff (h : r.Parsed version next) (hkey : 0 ∉ key)
    : r.GetsHeader key ↔ r.isShadowed key = false := by
  unfold GetsHeader httpRequestGetHeader isShadowed
  rw [go_eq_find h.keys hkey, Option.some.injEq]
  cases hfind : r.requestHeaders.find? (startsWithKey key) with
  | none => simp [find_hasKey_eq_none hfind]
  | some header =>
    dsimp only
    cases hhas : hasKey key header with
    | true => simp [find_hasKey_of_find hfind hhas]
    | false =>
      rw [Bool.not_false, Bool.true_and, bne_eq_false_iff_eq, Option.map_some]
      exact eq_comm

theorem not_mem_literals : 0 ∉ CONNECTION ∧ 0 ∉ CLOSE ∧ 0 ∉ KEEP_ALIVE ∧ 0 ∉ HTTP10 := by
  decide

theorem closeConnection_of_none (h : r.Parsed version next)
    (hfind : r.requestHeaders.find? (startsWithKey CONNECTION) = none)
    : r.httpRequestCloseConnection
        =
      match comparePrefix (version ++ [next]) HTTP10 with
      | none => none
      | some d => if d = 0 then none else some false := by
  obtain ⟨overrun, hversion⟩ := h.version_eq
  unfold httpRequestCloseConnection httpRequestGetHeader
  rw [go_eq_find h.keys not_mem_literals.left, hfind, hversion]
  dsimp only [Option.map_none]
  cases comparePrefix (version ++ [next]) HTTP10 with
  | none => rfl
  | some d =>
    by_cases hd : d = 0
    . simp [hd]
    . simp [hd]

theorem closeConnection_of_some (h : r.Parsed version next) {header : RequestHeader}
    {value : List UInt8} (hfind : r.requestHeaders.find? (startsWithKey CONNECTION) = some header)
    (hvalue : header.value.cString = some value)
    : r.httpRequestCloseConnection
        =
      if CLOSE.isPrefixOf value then
        some true
      else
        match comparePrefix (version ++ [next]) HTTP10 with
        | none => none
        | some d => if d = 0 then some (oneAbove value KEEP_ALIVE) else some false := by
  obtain ⟨hconnection, hclose, hkeepAlive, _⟩ := not_mem_literals
  obtain ⟨overrun, hversion⟩ := h.version_eq
  obtain ⟨d, hd⟩ := CharBlock.comparePrefix_isSome hvalue hclose
  obtain ⟨k, hk⟩ := CharBlock.comparePrefix_isSome hvalue hkeepAlive
  have hzero : (d == 0) = CLOSE.isPrefixOf value := by
    have hstarts := CharBlock.startsWith_iff hvalue hclose
    rw [← comparePrefix_eq_zero_iff hclose, hd, Option.some.injEq] at hstarts
    rw [Bool.eq_iff_iff, beq_iff_eq, hstarts, List.isPrefixOf_iff_prefix]
  have hone : (k == 1) = oneAbove value KEEP_ALIVE := by
    obtain ⟨_, rest, hbytes⟩ := CharBlock.bytes_of_cString hvalue
    have habove := @comparePrefix_eq_one_iff value rest KEEP_ALIVE hkeepAlive
    rw [← hbytes, hk, Option.some.injEq] at habove
    rw [Bool.eq_iff_iff, beq_iff_eq, habove]
  unfold httpRequestCloseConnection httpRequestGetHeader
  rw [go_eq_find h.keys hconnection, hfind, hversion]
  dsimp only [Option.map_some]
  simp only [Option.pure_def, Option.bind_eq_bind, Option.bind_some, hd, hk, Option.map_some, hzero, hone]
  cases hprefix : CLOSE.isPrefixOf value with
  | true => rfl
  | false =>
    simp only [Bool.false_eq_true, if_false]
    cases comparePrefix (version ++ [next]) HTTP10 with
    | none => rfl
    | some d' =>
      by_cases hd' : d' = 0
      . simp [hd']
      . simp [hd']

theorem http10_of_versionText (h : versionText version = HTTP10) : HTTP10 <+: version ++ [next] := by
  rw [← h, versionText]
  exact (List.takeWhile_prefix _).trans (List.prefix_append version [next])

theorem connectionValue_of_none (hfind : r.requestHeaders.find? (startsWithKey CONNECTION) = none)
    : r.connectionValue = none := by
  rw [connectionValue, find_hasKey_eq_none hfind]
  rfl

theorem mustClose_of_not_http10 (h : ¬ HTTP10 <+: version ++ [next])
    : r.mustClose version = (r.connectionValue == some CLOSE) := by
  have hne : versionText version ≠ HTTP10 := fun heq => h (http10_of_versionText heq)
  have hfalse : (versionText version == HTTP10) = false := by
    rw [beq_eq_false_iff_ne]
    exact hne
  rw [mustClose, hfalse, Bool.false_and, Bool.or_false]

theorem comparePrefix_http10 (stored : List UInt8)
    : (isCut stored = true ∧ HTTP10.isPrefixOf stored = false ∧ comparePrefix stored HTTP10 = none)
      ∨ (isCut stored = false ∧ HTTP10.isPrefixOf stored = true ∧ comparePrefix stored HTTP10 = some 0)
      ∨ ∃ d, d ≠ 0 ∧ isCut stored = false ∧ HTTP10.isPrefixOf stored = false
          ∧ comparePrefix stored HTTP10 = some d := by
  have hhttp10 := not_mem_literals.right.right.right
  have hzero := @comparePrefix_eq_zero_iff stored HTTP10 hhttp10
  have hnone := @comparePrefix_eq_none_iff stored HTTP10 hhttp10
  have hcut : isCut stored = true ↔ comparePrefix stored HTTP10 = none := by
    rw [hnone, isCut, Bool.and_eq_true, List.isPrefixOf_iff_prefix, bne_iff_ne]
  have hprefix : HTTP10.isPrefixOf stored = true ↔ comparePrefix stored HTTP10 = some 0 := by
    rw [hzero, List.isPrefixOf_iff_prefix]
  cases hcompare : comparePrefix stored HTTP10 with
  | none =>
    rw [hcompare] at hprefix hcut
    apply Or.inl
    refine ⟨hcut.mpr rfl, ?_, rfl⟩
    rw [← Bool.not_eq_true, hprefix]
    simp
  | some d =>
    rw [hcompare] at hprefix hcut
    have hnotcut : isCut stored = false := by
      rw [← Bool.not_eq_true, hcut]
      simp
    apply Or.inr
    by_cases hd : d = 0
    . subst hd
      exact .inl ⟨hnotcut, hprefix.mpr rfl, rfl⟩
    . refine .inr ⟨d, hd, hnotcut, ?_, rfl⟩
      rw [← Bool.not_eq_true, hprefix, Option.some.injEq]
      exact hd

theorem decidesClose_iff (h : r.Parsed version next)
    : r.DecidesClose version ↔ r.closeAgrees version next = true := by
  unfold DecidesClose closeAgrees foundValue
  dsimp only
  cases hfind : r.requestHeaders.find? (startsWithKey CONNECTION) with
  | none =>
    rw [closeConnection_of_none h hfind, Option.bind_none]
    rcases comparePrefix_http10 (version ++ [next]) with
      ⟨hcut, _, hcompare⟩ | ⟨_, hprefix, hcompare⟩ | ⟨d, hd, hcut, hprefix, hcompare⟩
    . simp [hcompare, hcut]
    . simp [hcompare, hprefix]
    . have hnot : ¬ HTTP10 <+: version ++ [next] := by
        rw [← List.isPrefixOf_iff_prefix, hprefix]
        simp
      simp [hcompare, hd, hcut, hprefix, mustClose_of_not_http10 hnot, connectionValue_of_none hfind]
  | some header =>
    obtain ⟨value, hvalue⟩ := h.values header (List.mem_of_find?_eq_some hfind)
    rw [closeConnection_of_some h hfind hvalue, Option.bind_some, hvalue]
    dsimp only
    cases hclose : CLOSE.isPrefixOf value with
    | true =>
      simp only [if_true, Option.some.injEq]
      exact eq_comm
    | false =>
      simp only [Bool.false_eq_true, if_false]
      rcases comparePrefix_http10 (version ++ [next]) with
        ⟨hcut, hprefix, hcompare⟩ | ⟨_, hprefix, hcompare⟩ | ⟨d, hd, hcut, hprefix, hcompare⟩
      . simp [hcompare, hcut, hprefix]
      . simp [hcompare, hprefix]
      . have hnot : ¬ HTTP10 <+: version ++ [next] := by
          rw [← List.isPrefixOf_iff_prefix, hprefix]
          simp
        simp [hcompare, hd, hcut, hprefix, mustClose_of_not_http10 hnot]

end Lookup

end HttpRequest

namespace CharBlock

-- `strncpy` stops at a NUL of its source, and pads.
def padded (src : List UInt8) : List UInt8 :=
  src.takeWhile (· != 0) ++ List.replicate (src.length - (src.takeWhile (· != 0)).length) 0

theorem length_padded (src : List UInt8) : (padded src).length = src.length := by
  have hle := (List.takeWhile_prefix (l := src) (· != 0)).length_le
  simp [padded]
  omega

theorem strncpy_malloc_padded (garbage : Nat → UInt8) (src : List UInt8)
    : (malloc garbage (src.length + 1)).strncpy src src.length
        =
      ⟨padded src ++ [garbage src.length], false⟩ := by
  have hlen : ((List.range (src.length + 1)).map garbage).length = src.length + 1 := by simp
  have hpad := length_padded src
  unfold strncpy malloc
  dsimp only
  rw [List.take_length, ← padded, Block.store_eq_some (by omega), List.range_succ, List.map_append, hpad]
  simp

theorem cString_copyString (garbage : Nat → UInt8) (src : List UInt8)
    : ∃ s, (copyString garbage src src.length).cString = some s := by
  have hpad := length_padded src
  have hbytes : (copyString garbage src src.length).bytes = padded src ++ [0] := by
    unfold copyString
    rw [strncpy_malloc_padded]
    unfold store
    rw [Block.store_eq_some (by simp [hpad])]
    simp [hpad]
  unfold cString
  rw [hbytes, if_pos (by simp)]
  exact ⟨_, rfl⟩

theorem copyString_outside (garbage : Nat → UInt8) (src : List UInt8)
    : copyString garbage src (src.length + 1) = ⟨padded src ++ [garbage src.length], true⟩ := by
  have hpad := length_padded src
  unfold copyString
  rw [strncpy_malloc_padded]
  unfold store Block.store
  rw [if_neg (by simp [hpad])]

end CharBlock

namespace Parser

structure Stored (p : Parser) : Prop where
  version : p.request.currentState ≠ .REQUEST_STATUS →
    ∃ version next overrun, p.request.version = some ⟨version ++ [next], overrun⟩
  keys : ∀ h ∈ p.request.requestHeaders, ∃ key, h.key.cString = some key
  values : ∀ h ∈ p.request.requestHeaders, ∃ value, h.value.cString = some value

theorem stored_processHeaderLine {heap : Heap} {p : Parser} (line : List UInt8) (h : p.Stored)
    (hstate : p.request.currentState = .REQUEST_HEADERS)
    : (processHeaderLine heap line p).Stored := by
  unfold processHeaderLine
  split
  . constructor
    . exact h.version
    . intro header hheader
      simp only [HttpRequest.httpRequestAddHeader, List.mem_append, List.mem_singleton] at hheader
      rcases hheader with hmem | rfl
      . exact h.keys header hmem
      . apply CharBlock.cString_copyString
    . intro header hheader
      simp only [HttpRequest.httpRequestAddHeader, List.mem_append, List.mem_singleton] at hheader
      rcases hheader with hmem | rfl
      . exact h.values header hmem
      . apply CharBlock.cString_copyString
  . constructor
    . exact fun _ => h.version (by simp [hstate])
    . exact h.keys
    . exact h.values

theorem processStatusLine_version {heap : Heap} {line : List UInt8} {p q : Parser} {n : Nat}
    (h : processStatusLine heap line p = .ok (n, q))
    : (∃ version next overrun, q.request.version = some ⟨version ++ [next], overrun⟩)
        ∧ q.request.requestHeaders = p.request.requestHeaders := by
  unfold processStatusLine at h
  split at h
  . simp at h
  . dsimp only at h
    split at h
    . simp at h
    . simp only [Except.ok.injEq, Prod.mk.injEq] at h
      obtain ⟨_, rfl⟩ := h
      refine ⟨?_, rfl⟩
      dsimp only
      rw [CharBlock.copyString_outside]
      exact ⟨_, _, _, rfl⟩

theorem stored_parseStep {heap : Heap} {p q : Parser} (h : p.Stored) (hstep : parseStep heap p = .ok q)
    : q.Stored := by
  unfold parseStep at hstep
  split at hstep
  . split at hstep
    . simp only [Except.ok.injEq] at hstep
      rwa [← hstep]
    . split at hstep
      . simp at hstep
      . next requestLineSize p' hline =>
        obtain ⟨hversion, hheaders⟩ := processStatusLine_version hline
        split at hstep
        . simp only [Except.ok.injEq] at hstep
          subst hstep
          constructor
          . exact fun _ => hversion
          . dsimp only
            rw [hheaders]
            exact h.keys
          . dsimp only
            rw [hheaders]
            exact h.values
        . simp only [Except.ok.injEq] at hstep
          subst hstep
          constructor
          . exact fun _ => hversion
          . rw [hheaders]
            exact h.keys
          . rw [hheaders]
            exact h.values
  . next hstate =>
    split at hstep
    . simp only [Except.ok.injEq] at hstep
      rwa [← hstep]
    . simp only [Except.ok.injEq] at hstep
      rw [← hstep]
      apply stored_processHeaderLine _ h hstate
  . simp only [Except.ok.injEq] at hstep
    rwa [← hstep]
  . simp only [Except.ok.injEq] at hstep
    rwa [← hstep]

theorem parsed_of_returns {heap : Heap} {p p' : Parser} (hnew : p.request = HttpRequest.httpRequestNew)
    (hreturns : Returns heap p p')
    : ∃ version next, p'.request.Parsed version next := by
  have hstored : p.Stored := by
    constructor <;> simp [hnew, HttpRequest.httpRequestNew]
  rw [returns_iff_ends] at hreturns
  have hstored' : p'.Stored :=
    hreturns.reaches.left.invariant (fun p q h _ hstep => stored_parseStep h hstep) hstored
  have hdone : p'.request.currentState ≠ .REQUEST_STATUS := by
    have hcond := hreturns.reaches.right
    rw [Bool.not_eq_false'] at hcond
    intro hstatus
    rw [isDone_of_status hstatus] at hcond
    simp at hcond
  obtain ⟨version, next, overrun, hversion⟩ := hstored'.version hdone
  exact ⟨version, next, ⟨overrun, hversion⟩, hstored'.keys, hstored'.values⟩

end Parser

namespace HttpRequest

theorem lookup_and_close_iff (r : HttpRequest) (version : List UInt8) (next : UInt8)
    (h : r.Parsed version next) (key : List UInt8) (hkey : 0 ∉ key)
    : r.GetsHeader key ∧ r.DecidesClose version
        ↔
      r.isShadowed key = false ∧ r.closeAgrees version next = true := by
  rw [getsHeader_iff h hkey, decidesClose_iff h]

def keepAlive10 : HttpRequest :=
  {
    version := some ⟨ascii "HTTP/1.0" ++ [0], true⟩
    method := some ⟨ascii "GET" ++ [0], true⟩
    url := some ⟨ascii "/" ++ [0], true⟩
    currentState := .REQUEST_DONE
    requestHeaders := [⟨⟨ascii "Connection" ++ [0], false⟩, ⟨ascii "Keep-Alive" ++ [0], false⟩⟩]
    overrun := false
  }

theorem lookup_and_close_iff_keepAlive10
    : keepAlive10.GetsHeader CONNECTION ∧ keepAlive10.DecidesClose (ascii "HTTP/1.0") := by
  rw [lookup_and_close_iff _ _ 0 _ _ (by decide)]
  . decide
  . constructor
    . exact ⟨true, rfl⟩
    . simp only [keepAlive10, List.forall_mem_singleton]
      exact ⟨CONNECTION, by decide⟩
    . simp only [keepAlive10, List.forall_mem_singleton]
      exact ⟨KEEP_ALIVE, by decide⟩

def plain10 : HttpRequest :=
  {
    version := some ⟨ascii "HTTP/1.0" ++ [0], true⟩
    method := some ⟨ascii "GET" ++ [0], true⟩
    url := some ⟨ascii "/" ++ [0], true⟩
    currentState := .REQUEST_DONE
    requestHeaders := []
    overrun := false
  }

-- HTTP/1.0 and no header: `strncmp` gets `NULL`.
theorem not_decidesClose_plain10
    : plain10.Parsed (ascii "HTTP/1.0") 0 ∧ ¬ plain10.DecidesClose (ascii "HTTP/1.0") := by
  constructor
  . constructor
    . exact ⟨true, rfl⟩
    . simp [plain10]
    . simp [plain10]
  . unfold DecidesClose
    decide

end HttpRequest
end NetWork
