import Mathlib.Logic.Function.Basic
import ByDoing.Lib.Run
import ByDoing.OS.Kernel

/-!
This module contains the buffer cache of `buffer.c`, the requests of `ll_rw_blk.c` and `new_block` of
`bitmap.c`, as far as the log file on its device uses them. `NR_BUFFERS` is `n`. The functions call
`sleep_on` and `wake_up` through `Calls`, since these two write lines to the log themselves. A task that
reaches `schedule` has left the call, so nothing comes after `sleep_on` here, and no request ends during a
call: the disk answers by an interrupt.
-/

namespace OS

structure BufferHead where
  dev : Nat
  blocknr : Nat
  uptodate : Bool
  dirt : Bool
  lock : Bool
  count : Nat
  -- the block as an array of zone numbers
  zones : Nat → Nat

inductive WaitQueue (n : Nat) where
  | buffer (b : Fin n)
  | bufferWait
  | super
  | request
  deriving Repr, DecidableEq

structure ZoneMap (n : Nat) where
  buf : Fin n
  bits : Nat → Bool

structure SuperBlock (n : Nat) where
  lock : Bool
  firstdatazone : Nat
  nzones : Nat
  zmap : Nat → Option (ZoneMap n)

/--
The buffers, the free list from `free_list` on, the requests in use, and the inode and the file of the log.
-/
structure Cache (n : Nat) where
  buf : Fin n → BufferHead
  free : List (Fin n)
  request : Nat → Bool
  super : Option (SuperBlock n)
  dev : Nat
  zone : Nat → Nat
  size : Nat
  pos : Nat
  append : Bool
  opened : Bool
  queue : WaitQueue n → Option Page
  current : Page
  state : Page → TaskState

inductive Stop where
  | schedule
  | overflow
  | panic
  deriving Repr, DecidableEq

def NR_REQUEST : Nat := 32
def Z_MAP_SLOTS : Nat := 8

inductive Rw where
  | READ
  | WRITE
  deriving Repr, DecidableEq

namespace Cache

variable {n : Nat}

def setBuf (s : Cache n) (b : Fin n) (h : BufferHead) : Cache n :=
  { s with buf := Function.update s.buf b h }

def setQueue (s : Cache n) (q : WaitQueue n) (p : Option Page) : Cache n :=
  { s with queue := Function.update s.queue q p }

def setState (s : Cache n) (p : Page) (state : TaskState) : Cache n :=
  { s with state := Function.update s.state p state }

structure Calls (n : Nat) where
  sleepOn : WaitQueue n → Cache n → Stop
  wakeUp : WaitQueue n → Cache n → Except Stop (Cache n)
  syncInodes : Cache n → Except Stop (Cache n)

def waitOnBuffer (c : Calls n) (b : Fin n) (s : Cache n) : Except Stop (Cache n) :=
  if (s.buf b).lock then .error (c.sleepOn (.buffer b) s) else .ok s

def unlockBuffer (c : Calls n) (b : Fin n) (s : Cache n) : Except Stop (Cache n) :=
  c.wakeUp (.buffer b) (s.setBuf b { s.buf b with lock := false })

def emptyRequest (s : Cache n) (rw : Rw) : Option Nat :=
  (List.range (if rw = .READ then NR_REQUEST else NR_REQUEST * 2 / 3)).reverse.find? fun i => !s.request i

def makeRequest (c : Calls n) (rw : Rw) (b : Fin n) (s : Cache n) : Except Stop (Cache n) := do
  let s ← waitOnBuffer c b s
  let s := s.setBuf b { s.buf b with lock := true }
  if rw = .WRITE ∧ (s.buf b).dirt = false ∨ rw = .READ ∧ (s.buf b).uptodate = true then
    unlockBuffer c b s
  else
    match s.emptyRequest rw with
    | none => .error (c.sleepOn .request s)
    | some i => .ok { s.setBuf b { s.buf b with dirt := false } with request := Function.update s.request i true }

def syncBuffer (c : Calls n) (b : Fin n) (s : Cache n) : Except Stop (Cache n) := do
  let s ← waitOnBuffer c b s
  if (s.buf b).dirt then makeRequest c .WRITE b s else .ok s

def syncBuffers (c : Calls n) (dev : Nat) : List (Fin n) → Cache n → Except Stop (Cache n)
  | [], s => .ok s
  | b :: bs, s =>
    if (s.buf b).dev ≠ dev then
      syncBuffers c dev bs s
    else do
      let s ← syncBuffer c b s
      syncBuffers c dev bs s

def syncDev (c : Calls n) (dev : Nat) (s : Cache n) : Except Stop (Cache n) := do
  let s ← syncBuffers c dev (List.finRange n) s
  let s ← c.syncInodes s
  syncBuffers c dev (List.finRange n) s

def findBuffer (s : Cache n) (block : Nat) : Option (Fin n) :=
  s.free.find? fun b => (s.buf b).dev == s.dev && (s.buf b).blocknr == block

def getHashTable (c : Calls n) (block : Nat) (s : Cache n) : Except Stop (Option (Fin n) × Cache n) :=
  match s.findBuffer block with
  | none => .ok (none, s)
  | some b => do
    let s ← waitOnBuffer c b (s.setBuf b { s.buf b with count := (s.buf b).count + 1 })
    .ok (some b, s)

def badness (h : BufferHead) : Nat :=
  h.dirt.toNat * 2 + h.lock.toNat

def pick (s : Cache n) : List (Fin n) → Option (Fin n) → Option (Fin n)
  | [], bh => bh
  | tmp :: list, bh =>
    if (s.buf tmp).count ≠ 0 then
      pick s list bh
    else
      match bh with
      | none => if badness (s.buf tmp) = 0 then some tmp else pick s list (some tmp)
      | some b =>
        if badness (s.buf tmp) < badness (s.buf b) then
          if badness (s.buf tmp) = 0 then some tmp else pick s list (some tmp)
        else
          pick s list (some b)

-- The end of `getblk`, which puts the buffer at the end of the free list.
def take (s : Cache n) (b : Fin n) (block : Nat) : Cache n :=
  { s.setBuf b { s.buf b with count := 1, dirt := false, uptodate := false, dev := s.dev, blocknr := block } with
    free := s.free.erase b ++ [b]
  }

def getblk (c : Calls n) (block : Nat) (s : Cache n) : Except Stop (Fin n × Cache n) := do
  match ← getHashTable c block s with
  | (some b, s) => .ok (b, s)
  | (none, s) =>
    match s.pick s.free none with
    | none => .error (c.sleepOn .bufferWait s)
    | some b => do
      let s ← waitOnBuffer c b s
      if (s.buf b).dirt then
        let s ← syncDev c (s.buf b).dev s
        let s ← waitOnBuffer c b s
        .ok (b, s.take b block)
      else
        .ok (b, s.take b block)

def brelse (c : Calls n) (b : Fin n) (s : Cache n) : Except Stop (Cache n) := do
  let s ← waitOnBuffer c b s
  if (s.buf b).count = 0 then
    .error .panic
  else
    c.wakeUp .bufferWait (s.setBuf b { s.buf b with count := (s.buf b).count - 1 })

def readIn (c : Calls n) (b : Fin n) (s : Cache n) : Except Stop (Option (Fin n) × Cache n) := do
  let s ← makeRequest c .READ b s
  let s ← waitOnBuffer c b s
  if (s.buf b).uptodate then
    .ok (some b, s)
  else
    let s ← brelse c b s
    .ok (none, s)

def bread (c : Calls n) (block : Nat) (s : Cache n) : Except Stop (Option (Fin n) × Cache n) := do
  let (b, s) ← getblk c block s
  if (s.buf b).uptodate then .ok (some b, s) else readIn c b s

def findFirstZero (m : ZoneMap n) : Option Nat :=
  (List.range 8192).find? fun j => !m.bits j

def findZone (sb : SuperBlock n) : Option (Nat × ZoneMap n × Nat) :=
  (List.range Z_MAP_SLOTS).findSome? fun i =>
    match sb.zmap i with
    | none => none
    | some m => (findFirstZero m).map fun j => (i, m, j)

def setBit (s : Cache n) (sb : SuperBlock n) (i : Nat) (m : ZoneMap n) (j : Nat) : Cache n :=
  let m' := { m with bits := Function.update m.bits j true }
  { s.setBuf m.buf { s.buf m.buf with dirt := true } with
    super := some { sb with zmap := Function.update sb.zmap i (some m') }
  }

def clearBlock (s : Cache n) (b : Fin n) : Cache n :=
  s.setBuf b { s.buf b with zones := fun _ => 0, uptodate := true, dirt := true }

def clearNew (c : Calls n) (block : Nat) (s : Cache n) : Except Stop (Nat × Cache n) := do
  let (b, s) ← getblk c block s
  if (s.buf b).count ≠ 1 then
    .error .panic
  else
    let s ← brelse c b (s.clearBlock b)
    .ok (block, s)

def newBlock (c : Calls n) (s : Cache n) : Except Stop (Nat × Cache n) :=
  match s.super with
  | none => .error .panic
  | some sb =>
    if sb.lock then
      .error (c.sleepOn .super s)
    else
      match findZone sb with
      | none => .ok (0, s)
      | some (i, m, j) =>
        let s := s.setBit sb i m j
        let block := j + i * 8192 + sb.firstdatazone - 1
        if sb.nzones ≤ block then
          .ok (0, s)
        else
          clearNew c block s

/--
Calls that end where `sleep_on` or a `wake_up` with a line of its own is reached. The inodes that
`sync_inodes` writes out do not unlock a buffer.
-/
structure Calls.Flat (c : Calls n) : Prop where
  wakeUp_ok : ∀ q s s', c.wakeUp q s = .ok s' ↔ s.queue q = none ∧ s' = s
  keeps_lock : ∀ s s' b, c.syncInodes s = .ok s' → (s.buf b).lock = true →
    (s'.buf b).lock = true ∧ (s'.buf b).dev = (s.buf b).dev

theorem waitOnBuffer_ok_iff {c : Calls n} {b : Fin n} {s s' : Cache n}
    : waitOnBuffer c b s = .ok s' ↔ (s.buf b).lock = false ∧ s' = s := by
  unfold waitOnBuffer
  split
  . next h => simp [h]
  . next h => simp [h, eq_comm]

@[simp]
theorem setBuf_self (s : Cache n) (b : Fin n) (h : BufferHead) : (s.setBuf b h).buf b = h := by
  simp [setBuf]

theorem setBuf_of_ne {s : Cache n} {b b' : Fin n} (h : BufferHead) (hne : b' ≠ b)
    : (s.setBuf b h).buf b' = s.buf b' := by
  simp [setBuf, hne]

theorem makeRequest_frame {c : Calls n} (hc : c.Flat) {rw : Rw} {b b' : Fin n} {s s' : Cache n}
    (h : makeRequest c rw b s = .ok s') (hne : b' ≠ b)
    : s'.buf b' = s.buf b' := by
  unfold makeRequest at h
  rw [Run.bind_eq_ok_iff] at h
  obtain ⟨s1, hwait, h⟩ := h
  rw [waitOnBuffer_ok_iff] at hwait
  obtain ⟨_, rfl⟩ := hwait
  dsimp only at h
  split at h
  . unfold unlockBuffer at h
    rw [hc.wakeUp_ok] at h
    obtain ⟨_, rfl⟩ := h
    rw [setBuf_of_ne _ hne, setBuf_of_ne _ hne]
  . split at h
    . simp at h
    . cases h
      exact (setBuf_of_ne _ hne).trans (setBuf_of_ne _ hne)

theorem makeRequest_lock {c : Calls n} {rw : Rw} {b : Fin n} {s s' : Cache n}
    (h : makeRequest c rw b s = .ok s') (hwrite : rw = .WRITE → (s.buf b).dirt = true)
    (hread : rw = .READ → (s.buf b).uptodate = false)
    : (s'.buf b).lock = true ∧ (s'.buf b).dev = (s.buf b).dev := by
  unfold makeRequest at h
  rw [Run.bind_eq_ok_iff] at h
  obtain ⟨s1, hwait, h⟩ := h
  rw [waitOnBuffer_ok_iff] at hwait
  obtain ⟨_, rfl⟩ := hwait
  dsimp only at h
  split at h
  . next hor =>
    rw [setBuf_self] at hor
    cases rw <;> simp_all
  . split at h
    . simp at h
    . cases h
      simp [setBuf]

theorem syncBuffer_unlocked {c : Calls n} {b : Fin n} {s s' : Cache n} (h : syncBuffer c b s = .ok s')
    : (s.buf b).lock = false := by
  unfold syncBuffer at h
  rw [Run.bind_eq_ok_iff] at h
  obtain ⟨s1, hwait, _⟩ := h
  rw [waitOnBuffer_ok_iff] at hwait
  exact hwait.left

theorem syncBuffer_frame {c : Calls n} (hc : c.Flat) {b b' : Fin n} {s s' : Cache n}
    (h : syncBuffer c b s = .ok s') (hne : b' ≠ b)
    : s'.buf b' = s.buf b' := by
  unfold syncBuffer at h
  rw [Run.bind_eq_ok_iff] at h
  obtain ⟨s1, hwait, h⟩ := h
  rw [waitOnBuffer_ok_iff] at hwait
  obtain ⟨_, rfl⟩ := hwait
  split at h
  . exact makeRequest_frame hc h hne
  . cases h
    rfl

theorem syncBuffer_dirty {c : Calls n} {b : Fin n} {s s' : Cache n} (hdirt : (s.buf b).dirt = true)
    (h : syncBuffer c b s = .ok s')
    : (s'.buf b).lock = true ∧ (s'.buf b).dev = (s.buf b).dev := by
  unfold syncBuffer at h
  rw [Run.bind_eq_ok_iff] at h
  obtain ⟨s1, hwait, h⟩ := h
  rw [waitOnBuffer_ok_iff] at hwait
  obtain ⟨_, rfl⟩ := hwait
  rw [if_pos hdirt] at h
  apply makeRequest_lock h
  . intro _
    exact hdirt
  . simp

theorem syncBuffers_locked {c : Calls n} (hc : c.Flat) {dev : Nat} {bs : List (Fin n)} {b : Fin n}
    {s s' : Cache n} (hlock : (s.buf b).lock = true) (hdev : (s.buf b).dev = dev)
    (h : syncBuffers c dev bs s = .ok s')
    : b ∉ bs ∧ s'.buf b = s.buf b := by
  induction bs generalizing s with
  | nil =>
    cases h
    simp
  | cons b1 bs ih =>
    unfold syncBuffers at h
    split at h
    . next hskip =>
      obtain ⟨hmem, heq⟩ := ih hlock hdev h
      refine ⟨?_, heq⟩
      rw [List.mem_cons, not_or]
      refine ⟨?_, hmem⟩
      intro hb
      exact hskip (hb ▸ hdev)
    . rw [Run.bind_eq_ok_iff] at h
      obtain ⟨s1, hsync, h⟩ := h
      have hne : b ≠ b1 := by
        intro hb
        have hunlocked := syncBuffer_unlocked hsync
        rw [← hb, hlock] at hunlocked
        simp at hunlocked
      have hframe := syncBuffer_frame hc hsync hne
      rw [← hframe] at hlock hdev
      obtain ⟨hmem, heq⟩ := ih hlock hdev h
      refine ⟨?_, heq.trans hframe⟩
      rw [List.mem_cons, not_or]
      exact ⟨hne, hmem⟩

theorem syncBuffers_dirty {c : Calls n} (hc : c.Flat) {dev : Nat} {bs : List (Fin n)} {b : Fin n}
    {s s' : Cache n} (hmem : b ∈ bs) (hdirt : (s.buf b).dirt = true) (hdev : (s.buf b).dev = dev)
    (h : syncBuffers c dev bs s = .ok s')
    : (s'.buf b).lock = true ∧ (s'.buf b).dev = dev := by
  induction bs generalizing s with
  | nil => simp at hmem
  | cons b1 bs ih =>
    unfold syncBuffers at h
    by_cases hb : b = b1
    . subst hb
      rw [if_neg (not_not.mpr hdev), Run.bind_eq_ok_iff] at h
      obtain ⟨s1, hsync, h⟩ := h
      obtain ⟨hlock, hdev'⟩ := syncBuffer_dirty hdirt hsync
      rw [hdev] at hdev'
      rw [(syncBuffers_locked hc hlock hdev' h).right]
      exact ⟨hlock, hdev'⟩
    . have htail : b ∈ bs := (List.mem_cons.mp hmem).resolve_left hb
      split at h
      . exact ih htail hdirt hdev h
      . rw [Run.bind_eq_ok_iff] at h
        obtain ⟨s1, hsync, h⟩ := h
        rw [← syncBuffer_frame hc hsync hb] at hdirt hdev
        exact ih htail hdirt hdev h

theorem syncDev_ne_ok {c : Calls n} (hc : c.Flat) {b : Fin n} {s s' : Cache n}
    (hdirt : (s.buf b).dirt = true)
    : syncDev c (s.buf b).dev s ≠ .ok s' := by
  intro h
  unfold syncDev at h
  rw [Run.bind_eq_ok_iff] at h
  obtain ⟨s1, hfirst, h⟩ := h
  rw [Run.bind_eq_ok_iff] at h
  obtain ⟨s2, hinodes, h⟩ := h
  obtain ⟨hlock, hdev⟩ := syncBuffers_dirty hc (List.mem_finRange b) hdirt rfl hfirst
  obtain ⟨hlock', hdev'⟩ := hc.keeps_lock s1 s2 b hinodes hlock
  have hnot := (syncBuffers_locked hc hlock' (hdev'.trans hdev) h).left
  exact hnot (List.mem_finRange b)

def Clean (s : Cache n) (b : Fin n) : Prop :=
  (s.buf b).count = 0 ∧ (s.buf b).lock = false ∧ (s.buf b).dirt = false

theorem badness_eq_zero_iff (h : BufferHead) : badness h = 0 ↔ h.lock = false ∧ h.dirt = false := by
  unfold badness
  cases h.lock <;> cases h.dirt <;> simp

theorem pick_clean {s : Cache n} {list : List (Fin n)} {bh : Option (Fin n)}
    (hbh : ∀ b, bh = some b → badness (s.buf b) ≠ 0) (h : ∃ b ∈ list, s.Clean b)
    : ∃ b, s.pick list bh = some b ∧ s.Clean b := by
  induction list generalizing bh with
  | nil => simp at h
  | cons tmp list ih =>
    have hskip : ¬s.Clean tmp → ∃ b ∈ list, s.Clean b := by
      intro hnot
      obtain ⟨b, hmem, hclean⟩ := h
      rcases List.mem_cons.mp hmem with rfl | htail
      . exact absurd hclean hnot
      . exact ⟨b, htail, hclean⟩
    have hgood : badness (s.buf tmp) = 0 → (s.buf tmp).count = 0 → s.Clean tmp := by
      intro hbad hcount
      exact ⟨hcount, (badness_eq_zero_iff _).mp hbad⟩
    have hbad : badness (s.buf tmp) ≠ 0 → ¬s.Clean tmp := by
      intro hne hclean
      exact hne ((badness_eq_zero_iff _).mpr hclean.right)
    unfold pick
    split
    . next hcount => exact ih hbh (hskip (fun hclean => hcount hclean.left))
    . next hcount =>
      rw [not_not] at hcount
      split
      . split
        . next hzero => exact ⟨tmp, rfl, hgood hzero hcount⟩
        . next hzero =>
          apply ih _ (hskip (hbad hzero))
          intro b hb
          cases hb
          exact hzero
      . next b0 =>
        split
        . split
          . next hzero => exact ⟨tmp, rfl, hgood hzero hcount⟩
          . next hzero =>
            apply ih _ (hskip (hbad hzero))
            intro b hb
            cases hb
            exact hzero
        . next hle =>
          have hb0 := hbh b0 rfl
          exact ih hbh (hskip (hbad (by omega)))

theorem pick_mem {s : Cache n} {list : List (Fin n)} {bh : Option (Fin n)} {b : Fin n}
    (h : s.pick list bh = some b)
    : bh = some b ∨ (b ∈ list ∧ (s.buf b).count = 0) := by
  induction list generalizing bh with
  | nil => exact .inl h
  | cons tmp list ih =>
    have hcons : ∀ {bh' : Option (Fin n)}, s.pick list bh' = some b → (bh' = some b → bh = some b ∨
        (b ∈ tmp :: list ∧ (s.buf b).count = 0)) → bh = some b ∨ (b ∈ tmp :: list ∧ (s.buf b).count = 0) := by
      intro bh' hpick hhead
      rcases ih hpick with heq | ⟨hmem, hcount⟩
      . exact hhead heq
      . exact .inr ⟨List.mem_cons_of_mem tmp hmem, hcount⟩
    unfold pick at h
    split at h
    . exact hcons h .inl
    . next hcount =>
      rw [not_not] at hcount
      have htmp : some tmp = some b → bh = some b ∨ (b ∈ tmp :: list ∧ (s.buf b).count = 0) := by
        intro heq
        cases heq
        exact .inr ⟨List.mem_cons_self, hcount⟩
      split at h
      . split at h
        . exact htmp h
        . exact hcons h htmp
      . split at h
        . split at h
          . exact htmp h
          . exact hcons h htmp
        . exact hcons h .inl

theorem getHashTable_ok_iff {c : Calls n} {block : Nat} {s : Cache n} {b : Option (Fin n)} {s' : Cache n}
    : getHashTable c block s = .ok (b, s')
        ↔
      match s.findBuffer block with
      | none => b = none ∧ s' = s
      | some b' => (s.buf b').lock = false ∧ b = some b'
          ∧ s' = s.setBuf b' { s.buf b' with count := (s.buf b').count + 1 } := by
  unfold getHashTable
  cases s.findBuffer block with
  | none => simp [eq_comm]
  | some b' =>
    simp only [Run.bind_eq_ok_iff, waitOnBuffer_ok_iff, setBuf_self]
    constructor
    . intro ⟨s1, ⟨hlock, heq⟩, hok⟩
      cases hok
      exact ⟨hlock, rfl, heq⟩
    . intro ⟨hlock, hb, heq⟩
      exact ⟨s', ⟨hlock, heq⟩, by rw [hb]⟩

theorem getblk_ok_iff {c : Calls n} (hc : c.Flat) {block : Nat} {s : Cache n} {b : Fin n} {s' : Cache n}
    : getblk c block s = .ok (b, s')
        ↔
      match s.findBuffer block with
      | some b' => (s.buf b').lock = false ∧ b = b'
          ∧ s' = s.setBuf b' { s.buf b' with count := (s.buf b').count + 1 }
      | none => s.pick s.free none = some b ∧ s.Clean b ∧ s' = s.take b block := by
  unfold getblk
  rw [Run.bind_eq_ok_iff]
  cases hfind : s.findBuffer block with
  | some b' =>
    constructor
    . intro ⟨⟨b1, s1⟩, hget, h⟩
      rw [getHashTable_ok_iff, hfind] at hget
      obtain ⟨hlock, rfl, rfl⟩ := hget
      cases h
      exact ⟨hlock, rfl, rfl⟩
    . intro ⟨hlock, hb, heq⟩
      refine ⟨(some b', s'), ?_, ?_⟩
      . rw [getHashTable_ok_iff, hfind]
        exact ⟨hlock, rfl, heq⟩
      . rw [hb]
  | none =>
    have hnone : ∀ b1 s1, getHashTable c block s = .ok (b1, s1) ↔ b1 = none ∧ s1 = s := by
      intro b1 s1
      rw [getHashTable_ok_iff, hfind]
    constructor
    . intro ⟨⟨b1, s1⟩, hget, h⟩
      obtain ⟨rfl, rfl⟩ := (hnone b1 s1).mp hget
      dsimp only at h
      split at h
      . simp at h
      . next b2 hpick =>
        rw [Run.bind_eq_ok_iff] at h
        obtain ⟨s2, hwait, h⟩ := h
        obtain ⟨hlock, rfl⟩ := waitOnBuffer_ok_iff.mp hwait
        split at h
        . next hdirt =>
          rw [Run.bind_eq_ok_iff] at h
          obtain ⟨s3, hsync, _⟩ := h
          exact absurd hsync (syncDev_ne_ok hc hdirt)
        . next hdirt =>
          cases h
          have hcount := ((pick_mem hpick).resolve_left (by simp)).right
          exact ⟨hpick, ⟨hcount, hlock, by simpa using hdirt⟩, rfl⟩
    . intro ⟨hpick, hclean, heq⟩
      refine ⟨(none, s), (hnone none s).mpr ⟨rfl, rfl⟩, ?_⟩
      have hwait : waitOnBuffer c b s = .ok s := waitOnBuffer_ok_iff.mpr ⟨hclean.right.left, rfl⟩
      dsimp only
      rw [hpick]
      dsimp only
      rw [hwait]
      simp [bind, Except.bind, hclean.right.right, heq]

theorem brelse_ok_iff {c : Calls n} (hc : c.Flat) {b : Fin n} {s s' : Cache n}
    : brelse c b s = .ok s'
        ↔
      ((s.buf b).lock = false ∧ (s.buf b).count ≠ 0 ∧ s.queue .bufferWait = none)
        ∧ s' = s.setBuf b { s.buf b with count := (s.buf b).count - 1 } := by
  unfold brelse
  rw [Run.bind_eq_ok_iff]
  constructor
  . intro ⟨s1, hwait, h⟩
    obtain ⟨hlock, rfl⟩ := waitOnBuffer_ok_iff.mp hwait
    split at h
    . simp at h
    . next hcount =>
      obtain ⟨hqueue, heq⟩ := (hc.wakeUp_ok _ _ _).mp h
      exact ⟨⟨hlock, hcount, hqueue⟩, heq⟩
  . intro ⟨⟨hlock, hcount, hqueue⟩, heq⟩
    refine ⟨s, waitOnBuffer_ok_iff.mpr ⟨hlock, rfl⟩, ?_⟩
    rw [if_neg hcount]
    exact (hc.wakeUp_ok _ _ _).mpr ⟨hqueue, heq⟩

def Ready (s : Cache n) (block : Nat) : Prop :=
  ∃ b, s.findBuffer block = some b ∧ (s.buf b).lock = false ∧ (s.buf b).uptodate = true

theorem readIn_ne_ok {c : Calls n} {b : Fin n} {s : Cache n} {r : Option (Fin n) × Cache n}
    (h : (s.buf b).uptodate = false)
    : readIn c b s ≠ .ok r := by
  intro heq
  unfold readIn at heq
  rw [Run.bind_eq_ok_iff] at heq
  obtain ⟨s1, hrequest, heq⟩ := heq
  rw [Run.bind_eq_ok_iff] at heq
  obtain ⟨s2, hwait, _⟩ := heq
  have hlock := (makeRequest_lock hrequest (by simp) (fun _ => h)).left
  rw [waitOnBuffer_ok_iff, hlock] at hwait
  simp at hwait

theorem bread_ok_iff {c : Calls n} (hc : c.Flat) {block : Nat} {s : Cache n}
    : (∃ r s', bread c block s = .ok (r, s')) ↔ s.Ready block := by
  constructor
  . intro ⟨r, s', h⟩
    unfold bread at h
    rw [Run.bind_eq_ok_iff] at h
    obtain ⟨⟨b, s1⟩, hget, h⟩ := h
    dsimp only at h
    rw [getblk_ok_iff hc] at hget
    split at h
    . next huptodate =>
      split at hget
      . next b' hfind =>
        obtain ⟨hlock, rfl, rfl⟩ := hget
        exact ⟨b, hfind, hlock, by simpa using huptodate⟩
      . obtain ⟨_, _, rfl⟩ := hget
        simp [take] at huptodate
    . next huptodate =>
      exact absurd h (readIn_ne_ok (by simpa using huptodate))
  . intro ⟨b, hfind, hlock, huptodate⟩
    have hget : getblk c block s = .ok (b, s.setBuf b { s.buf b with count := (s.buf b).count + 1 }) := by
      rw [getblk_ok_iff hc, hfind]
      exact ⟨hlock, rfl, rfl⟩
    refine ⟨some b, s.setBuf b { s.buf b with count := (s.buf b).count + 1 }, ?_⟩
    unfold bread
    rw [hget]
    simp [bind, Except.bind, huptodate]

def newZone (sb : SuperBlock n) : Option (Nat × ZoneMap n × Nat × Nat) :=
  match findZone sb with
  | none => none
  | some (i, m, j) =>
    let block := j + i * 8192 + sb.firstdatazone - 1
    if sb.nzones ≤ block then none else some (i, m, j, block)

def Fresh (s : Cache n) (block : Nat) : Prop :=
  match s.findBuffer block with
  | some b => (s.buf b).lock = false ∧ (s.buf b).count = 0
  | none => ∃ b ∈ s.free, s.Clean b

def Allocatable (s : Cache n) : Prop :=
  ∃ sb, s.super = some sb ∧ sb.lock = false
    ∧ ∀ i m j block, newZone sb = some (i, m, j, block) →
      (s.setBit sb i m j).Fresh block ∧ s.queue .bufferWait = none

theorem clearNew_ok_iff {c : Calls n} (hc : c.Flat) {block : Nat} {s : Cache n}
    : (∃ r s', clearNew c block s = .ok (r, s')) ↔ s.Fresh block ∧ s.queue .bufferWait = none := by
  unfold clearNew Fresh
  constructor
  . intro ⟨r, s', h⟩
    rw [Run.bind_eq_ok_iff] at h
    obtain ⟨⟨b, s1⟩, hget, h⟩ := h
    dsimp only at h
    split at h
    . simp at h
    . next hcount =>
      rw [Run.bind_eq_ok_iff] at h
      obtain ⟨s2, hrelse, _⟩ := h
      have hqueue := ((brelse_ok_iff hc).mp hrelse).left.right.right
      rw [getblk_ok_iff hc] at hget
      split at hget
      . obtain ⟨hlock, rfl, rfl⟩ := hget
        refine ⟨⟨hlock, ?_⟩, hqueue⟩
        simpa using hcount
      . obtain ⟨hpick, hclean, rfl⟩ := hget
        have hmem := ((pick_mem hpick).resolve_left (by simp)).left
        exact ⟨⟨b, hmem, hclean⟩, hqueue⟩
  . intro ⟨hfresh, hqueue⟩
    have hget : ∃ b s1, getblk c block s = .ok (b, s1) ∧ (s1.buf b).lock = false ∧ (s1.buf b).count = 1
        ∧ s1.queue = s.queue := by
      split at hfresh
      . next b hfind =>
        refine ⟨b, s.setBuf b { s.buf b with count := (s.buf b).count + 1 }, ?_, ?_⟩
        . rw [getblk_ok_iff hc, hfind]
          exact ⟨hfresh.left, rfl, rfl⟩
        . simp [hfresh, setBuf]
      . next hfind =>
        obtain ⟨b, hpick, hclean⟩ := @pick_clean n s s.free none (by simp) hfresh
        refine ⟨b, s.take b block, ?_, ?_⟩
        . rw [getblk_ok_iff hc, hfind]
          exact ⟨hpick, hclean, rfl⟩
        . simp [take, setBuf, hclean.right.left]
    obtain ⟨b, s1, hget, hlock, hcount, heq⟩ := hget
    obtain ⟨s2, hrelse⟩ : ∃ s2, brelse c b (s1.clearBlock b) = .ok s2 := by
      refine ⟨_, (brelse_ok_iff hc).mpr ⟨?_, rfl⟩⟩
      simp [clearBlock, setBuf, hlock, hcount, heq, hqueue]
    refine ⟨block, s2, Run.bind_eq_ok_iff.mpr ⟨(b, s1), hget, ?_⟩⟩
    dsimp only
    rw [if_neg (not_not.mpr hcount)]
    exact Run.bind_eq_ok_iff.mpr ⟨s2, hrelse, rfl⟩

theorem newBlock_ok_iff {c : Calls n} (hc : c.Flat) {s : Cache n}
    : (∃ r s', newBlock c s = .ok (r, s')) ↔ s.Allocatable := by
  cases hsuper : s.super with
  | none => simp [newBlock, Allocatable, hsuper]
  | some sb =>
    cases hlock : sb.lock with
    | true => simp [newBlock, Allocatable, hsuper, hlock]
    | false =>
      cases hfind : findZone sb with
      | none => simp [newBlock, Allocatable, newZone, hsuper, hlock, hfind]
      | some found =>
        obtain ⟨i, m, j⟩ := found
        by_cases hfull : sb.nzones ≤ j + i * 8192 + sb.firstdatazone - 1
        . simp [newBlock, Allocatable, newZone, hsuper, hlock, hfind, hfull]
        . have hnew : newBlock c s
              = clearNew c (j + i * 8192 + sb.firstdatazone - 1) (s.setBit sb i m j) := by
            simp [newBlock, hsuper, hlock, hfind, hfull]
          have hzone : newZone sb = some (i, m, j, j + i * 8192 + sb.firstdatazone - 1) := by
            simp [newZone, hfind, hfull]
          rw [hnew, clearNew_ok_iff hc]
          constructor
          . intro hfresh
            refine ⟨sb, hsuper, hlock, ?_⟩
            intro i' m' j' block heq
            rw [hzone] at heq
            cases heq
            exact hfresh
          . intro ⟨sb', hsb, _, hfresh⟩
            rw [hsuper] at hsb
            cases hsb
            exact hfresh i m j _ hzone

end Cache
end OS
