import ByDoing.Lib.Command
import ByDoing.OS.BufferCache
import ByDoing.OS.LogFile

/-!
This module contains `fprintk` on the log file down to the buffer cache: `_bmap` of `inode.c`, `file_write` of
`file_dev.c`, and `sleep_on` and `wake_up`, which call `fprintk` again. `Calls` of depth `k` allow `k` calls of
`fprintk` inside each other; one more is an overflow of the kernel stack.
-/

namespace OS
namespace Cache

open Command (Prog)

variable {n : Nat}

inductive Op (n : Nat) where
  | bread (block : Nat)
  | newBlock
  | brelse (b : Fin n)

def Op.Result : Op n → Type
  | .bread _ => Option (Fin n)
  | .newBlock => Nat
  | .brelse _ => Unit

abbrev Code (n : Nat) := Prog (Cache n) Stop (Op n) Op.Result

def exec (c : Calls n) : (o : Op n) → Cache n → Except Stop (o.Result × Cache n)
  | .bread block, s => Cache.bread c block s
  | .newBlock, s => Cache.newBlock c s
  | .brelse b, s => (Cache.brelse c b s).map fun s => ((), s)

namespace fileWrite

def bread (block : Nat) : Code n (Option (Fin n)) :=
  .call (.bread block) .ret

def newBlock : Code n Nat :=
  .call .newBlock .ret

def brelse (b : Fin n) : Code n Unit :=
  .call (.brelse b) .ret

def get : Code n (Cache n) :=
  .get .ret

def modify (f : Cache n → Cache n) : Code n Unit :=
  .modify f (.ret ())

-- An entry of `i_zone`, with a new block if it is to be created.
def inodeZone (i : Nat) (create : Bool) : Code n Nat := do
  let s ← get
  if create && s.zone i == 0 then
    let block ← newBlock
    modify fun s => { s with zone := Function.update s.zone i block }
    return block
  else
    return s.zone i

def blockZone (block i : Nat) (create : Bool) : Code n Nat := do
  match ← bread block with
  | none => return 0
  | some b =>
    let s ← get
    let zone := (s.buf b).zones i
    if create && zone == 0 then
      let zone ← newBlock
      modify fun s =>
        if zone = 0 then s
        else s.setBuf b { s.buf b with zones := Function.update (s.buf b).zones i zone, dirt := true }
      brelse b
      return zone
    else
      brelse b
      return zone

def bmap (block : Nat) (create : Bool) : Code n Nat :=
  if 7 + 512 + 512 * 512 ≤ block then
    .fail .panic
  else if block < 7 then
    inodeZone block create
  else if block - 7 < 512 then do
    let zone ← inodeZone 7 create
    if zone = 0 then return 0 else blockZone zone (block - 7) create
  else do
    let block := block - 7 - 512
    let zone ← inodeZone 8 create
    if zone = 0 then
      return 0
    else
      let zone ← blockZone zone (block / 512) create
      if zone = 0 then return 0 else blockZone zone (block % 512) create

def createBlock (block : Nat) : Code n Nat :=
  bmap block true

def written (b : Fin n) (pos : Nat) (s : Cache n) : Cache n :=
  { s.setBuf b { s.buf b with dirt := true } with size := max s.size pos }

-- The loop of `file_write`. Every round but the last writes at least one byte, so `fuel` rounds are enough.
def loop (count : Nat) : (fuel i pos : Nat) → Code n Nat
  | 0, _, pos => return pos
  | fuel + 1, i, pos =>
    if count ≤ i then
      return pos
    else do
      let block ← createBlock (pos / BLOCK_SIZE)
      if block = 0 then
        return pos
      else
        match ← bread block with
        | none => return pos
        | some b =>
          let c := min (BLOCK_SIZE - pos % BLOCK_SIZE) (count - i)
          modify (written b (pos + c))
          brelse b
          loop count fuel (i + c) (pos + c)

end fileWrite

def logPos (s : Cache n) : Nat :=
  if s.append then s.size else s.pos

def fileWrite (count : Nat) : Code n Unit := do
  let s ← fileWrite.get
  let pos ← fileWrite.loop count count 0 s.logPos
  fileWrite.modify fun s => if s.append then s else { s with pos }

def fprintk (c : Calls n) (count : Nat) (s : Cache n) : Except Stop (Cache n) :=
  if s.opened then
    match (fileWrite count).run (exec c) s with
    | .error e => .error e
    | .ok (_, s) => .ok s
  else
    .ok s

-- `sync_inodes`, which writes inodes to buffers of its own and leaves a locked buffer alone.
structure InodeSync (n : Nat) where
  sync : Cache n → Except Stop (Cache n)
  keeps_lock : ∀ s s' b, sync s = .ok s' → (s.buf b).lock = true →
    (s'.buf b).lock = true ∧ (s'.buf b).dev = (s.buf b).dev

def sleepOn (c : Calls n) (len : Page → Nat) (q : WaitQueue n) (s : Cache n) : Stop :=
  if s.current = 0 then
    .panic
  else
    match fprintk c (len s.current) ((s.setQueue q (some s.current)).setState s.current .TASK_UNINTERRUPTIBLE) with
    | .error e => e
    | .ok _ => .schedule

def wakeUp (c : Calls n) (len : Page → Nat) (q : WaitQueue n) (s : Cache n) : Except Stop (Cache n) :=
  match s.queue q with
  | none => .ok s
  | some p => do
    let s ← fprintk c (len p) (s.setState p .TASK_RUNNING)
    .ok (s.setQueue q none)

/--
The calls of a kernel stack that has room for no further line, and of one that has room for `k` of them.
-/
def flat (inodes : InodeSync n) : Calls n :=
  {
    sleepOn := fun _ _ => .overflow
    wakeUp := fun q s => if s.queue q = none then .ok s else .error .overflow
    syncInodes := inodes.sync
  }

def calls (inodes : InodeSync n) (len : Page → Nat) : Nat → Calls n
  | 0 => flat inodes
  | k + 1 =>
    {
      sleepOn := sleepOn (calls inodes len k) len
      wakeUp := wakeUp (calls inodes len k) len
      syncInodes := inodes.sync
    }

def Op.Smooth : Op n → Cache n → Prop
  | .bread block, s => s.Ready block
  | .newBlock, s => s.Allocatable
  | .brelse b, s => (s.buf b).lock = false ∧ (s.buf b).count ≠ 0 ∧ s.queue .bufferWait = none

def Smooth (inodes : InodeSync n) (count : Nat) (s : Cache n) : Prop :=
  s.opened = true → (fileWrite count).Meets (exec (flat inodes)) Op.Smooth s

theorem flat_flat (inodes : InodeSync n) : (flat inodes).Flat := by
  constructor
  . intro q s s'
    unfold flat
    by_cases h : s.queue q = none
    . simp [h, eq_comm]
    . simp [h]
  . exact inodes.keeps_lock

theorem exec_ok_iff (inodes : InodeSync n) (o : Op n) (s : Cache n)
    : (∃ r s', exec (flat inodes) o s = .ok (r, s')) ↔ o.Smooth s := by
  have hflat := flat_flat inodes
  cases o with
  | bread block => exact bread_ok_iff hflat
  | newBlock => exact newBlock_ok_iff hflat
  | brelse b =>
    have hexec : exec (flat inodes) (.brelse b) s
        = (Cache.brelse (flat inodes) b s).map fun s => ((), s) := rfl
    rw [hexec]
    constructor
    . intro ⟨r, s', h⟩
      cases hrelse : Cache.brelse (flat inodes) b s with
      | error e => simp [hrelse, Except.map] at h
      | ok s1 => exact ((brelse_ok_iff hflat).mp hrelse).left
    . intro h
      rw [(brelse_ok_iff hflat).mpr ⟨h, rfl⟩]
      exact ⟨(), _, rfl⟩

theorem fprintk_returns_iff (inodes : InodeSync n) (count : Nat) (s : Cache n)
    : (∃ s', fprintk (flat inodes) count s = .ok s') ↔ s.Smooth inodes count := by
  unfold fprintk Smooth
  cases hopen : s.opened with
  | false => simp
  | true =>
    rw [← Prog.run_ok_iff (exec_ok_iff inodes)]
    cases (fileWrite count).run (exec (flat inodes)) s with
    | error e => simp
    | ok rs =>
      obtain ⟨a, s'⟩ := rs
      simp

theorem bread_of_locked {c : Calls n} {block : Nat} {b : Fin n} {s : Cache n}
    (hfind : s.findBuffer block = some b) (hlock : (s.buf b).lock = true)
    : Cache.bread c block s
        = .error (c.sleepOn (.buffer b) (s.setBuf b { s.buf b with count := (s.buf b).count + 1 })) := by
  simp [Cache.bread, getblk, getHashTable, hfind, waitOnBuffer, hlock, bind, Except.bind]

structure Blocked (s : Cache n) : Prop where
  opened : s.opened = true
  current : s.current ≠ 0
  direct : s.logPos / BLOCK_SIZE < 7
  mapped : s.zone (s.logPos / BLOCK_SIZE) ≠ 0
  locked : ∃ b, s.findBuffer (s.zone (s.logPos / BLOCK_SIZE)) = some b ∧ (s.buf b).lock = true

theorem createBlock_of_mapped {c : Calls n} {block : Nat} {s : Cache n} (hdirect : block < 7)
    (hmapped : s.zone block ≠ 0)
    : (fileWrite.createBlock block).run (exec c) s = .ok (s.zone block, s)
        ∧ ∀ ok, (fileWrite.createBlock block).Meets (exec c) ok s := by
  have hsmall : ¬7 + 512 + 512 * 512 ≤ block := by omega
  unfold fileWrite.createBlock fileWrite.bmap
  rw [if_neg hsmall, if_pos hdirect]
  unfold fileWrite.inodeZone fileWrite.get
  simp [bind, Prog.bind, Prog.run, Prog.Meets, hmapped, pure]

theorem findBuffer_count (s : Cache n) (b : Fin n) (count block : Nat)
    : (s.setBuf b { s.buf b with count }).findBuffer block = s.findBuffer block := by
  unfold findBuffer
  congr 1
  funext b'
  by_cases hb : b' = b
  . simp [setBuf, hb]
  . simp [setBuf, hb]

theorem Blocked.count {s : Cache n} (h : s.Blocked) (b : Fin n) (count : Nat)
    : (s.setBuf b { s.buf b with count }).Blocked := by
  obtain ⟨b', hfind, hlock⟩ := h.locked
  refine ⟨h.opened, h.current, h.direct, h.mapped, b', ?_, ?_⟩
  . rw [findBuffer_count]
    exact hfind
  . by_cases hb : b' = b
    . subst hb
      simpa using hlock
    . rw [setBuf_of_ne _ hb]
      exact hlock

theorem loop_of_blocked {c : Calls n} {count fuel : Nat} (hcount : 0 < count) {s : Cache n} {b : Fin n}
    (h : s.Blocked) (hfind : s.findBuffer (s.zone (s.logPos / BLOCK_SIZE)) = some b)
    (hlock : (s.buf b).lock = true)
    : (fileWrite.loop count (fuel + 1) 0 s.logPos).run (exec c) s
        = .error (c.sleepOn (.buffer b) (s.setBuf b { s.buf b with count := (s.buf b).count + 1 })) := by
  unfold fileWrite.loop
  rw [if_neg (by omega), Prog.run_bind, (createBlock_of_mapped h.direct h.mapped).left]
  dsimp only
  rw [if_neg h.mapped, Prog.run_bind]
  have hread : (fileWrite.bread (s.zone (s.logPos / BLOCK_SIZE))).run (exec c) s
      = .error (c.sleepOn (.buffer b) (s.setBuf b { s.buf b with count := (s.buf b).count + 1 })) := by
    apply Prog.run_call_error
    exact bread_of_locked hfind hlock
  rw [hread]

theorem bread_of_ready {c : Calls n} {block : Nat} {b : Fin n} {s : Cache n}
    (hfind : s.findBuffer block = some b) (hlock : (s.buf b).lock = false)
    (huptodate : (s.buf b).uptodate = true)
    : Cache.bread c block s = .ok (some b, s.setBuf b { s.buf b with count := (s.buf b).count + 1 }) := by
  simp [Cache.bread, getblk, getHashTable, hfind, waitOnBuffer, hlock, huptodate, bind, Except.bind]

theorem loop_done {c : Calls n} {ok : Op n → Cache n → Prop} (count fuel pos : Nat) (s : Cache n)
    : (fileWrite.loop count fuel count pos).Meets (exec c) ok s := by
  cases fuel with
  | zero => trivial
  | succ fuel =>
    unfold fileWrite.loop
    rw [if_pos (Nat.le_refl count)]
    trivial

theorem smooth_iff_of_mapped (inodes : InodeSync n) {count : Nat} {s : Cache n} (hopened : s.opened = true)
    (hcount : 0 < count) (hfits : s.logPos % BLOCK_SIZE + count ≤ BLOCK_SIZE)
    (hdirect : s.logPos / BLOCK_SIZE < 7) (hmapped : s.zone (s.logPos / BLOCK_SIZE) ≠ 0)
    : s.Smooth inodes count
        ↔
      s.Ready (s.zone (s.logPos / BLOCK_SIZE)) ∧ s.queue .bufferWait = none := by
  have hfull : min (BLOCK_SIZE - s.logPos % BLOCK_SIZE) (count - 0) = count := by omega
  obtain ⟨fuel, rfl⟩ : ∃ fuel, count = fuel + 1 := ⟨count - 1, by omega⟩
  have hloop : s.Smooth inodes (fuel + 1)
      ↔ (fileWrite.loop (fuel + 1) (fuel + 1) 0 s.logPos).Meets (exec (flat inodes)) Op.Smooth s := by
    have hmeets : (fileWrite.get : Code n (Cache n)).Meets (exec (flat inodes)) Op.Smooth s := trivial
    have hrun : (fileWrite.get : Code n (Cache n)).run (exec (flat inodes)) s = .ok (s, s) := rfl
    unfold Smooth fileWrite
    rw [forall_prop_of_true hopened, Prog.meets_bind_of_ok hmeets hrun, Prog.meets_bind]
    exact and_iff_left (fun _ _ _ => trivial)
  obtain ⟨hcreate, hnothing⟩ := @createBlock_of_mapped n (flat inodes) _ s hdirect hmapped
  rw [hloop]
  unfold fileWrite.loop
  rw [if_neg (by omega), Prog.meets_bind_of_ok (hnothing _) hcreate, if_neg hmapped, hfull]
  constructor
  . intro ⟨hready, hrest⟩
    refine ⟨hready, ?_⟩
    obtain ⟨b, hfind, hlock, huptodate⟩ := hready
    have hrelse := hrest (some b) _ (bread_of_ready hfind hlock huptodate)
    exact hrelse.left.right.right
  . intro ⟨hready, hqueue⟩
    refine ⟨hready, ?_⟩
    intro r s' hread
    obtain ⟨b, hfind, hlock, huptodate⟩ := hready
    have hread' := (bread_of_ready hfind hlock huptodate).symm.trans hread
    cases hread'
    refine ⟨⟨?_, ?_, hqueue⟩, ?_⟩
    . simpa [fileWrite.written] using hlock
    . simp [fileWrite.written]
    . intro _ s2 _
      rw [Nat.zero_add]
      apply loop_done

theorem fprintk_of_blocked {c : Calls n} {count : Nat} (hcount : 0 < count) {s : Cache n} (h : s.Blocked)
    : ∃ b s', fprintk c count s = .error (c.sleepOn (.buffer b) s') ∧ s'.Blocked := by
  obtain ⟨b, hfind, hlock⟩ := h.locked
  obtain ⟨fuel, rfl⟩ : ∃ fuel, count = fuel + 1 := ⟨count - 1, by omega⟩
  refine ⟨b, s.setBuf b { s.buf b with count := (s.buf b).count + 1 }, ?_, h.count b _⟩
  have hrun : (fileWrite (fuel + 1)).run (exec c) s
      = .error (c.sleepOn (.buffer b) (s.setBuf b { s.buf b with count := (s.buf b).count + 1 })) := by
    unfold fileWrite
    rw [Prog.run_bind]
    have hget : fileWrite.get.run (exec c) s = .ok (s, s) := rfl
    rw [hget]
    dsimp only
    rw [Prog.run_bind, loop_of_blocked hcount h hfind hlock]
  unfold fprintk
  rw [if_pos h.opened, hrun]

theorem overflow_of_blocked (inodes : InodeSync n) {len : Page → Nat} (hlen : ∀ p, 0 < len p) {count : Nat}
    (hcount : 0 < count) {s : Cache n} (h : s.Blocked) (k : Nat)
    : fprintk (calls inodes len k) count s = .error .overflow := by
  induction k generalizing count s with
  | zero =>
    obtain ⟨b, s', heq, _⟩ := @fprintk_of_blocked n (flat inodes) count hcount s h
    exact heq
  | succ k ih =>
    obtain ⟨b, s', heq, hblocked⟩ := @fprintk_of_blocked n (calls inodes len (k + 1)) count hcount s h
    rw [heq]
    have hsleep : (s'.setQueue (.buffer b) (some s'.current)).setState s'.current .TASK_UNINTERRUPTIBLE
        |>.Blocked :=
      ⟨hblocked.opened, hblocked.current, hblocked.direct, hblocked.mapped, hblocked.locked⟩
    show Except.error (sleepOn (calls inodes len k) len (.buffer b) s') = _
    unfold sleepOn
    rw [if_neg hblocked.current, ih (hlen s'.current) hsleep]

def dirtyLog : Cache 1 :=
  {
    buf := fun _ =>
      { dev := 1, blocknr := 5, uptodate := true, dirt := true, lock := false, count := 0, zones := fun _ => 0 }
    free := [0]
    request := fun _ => false
    super := none
    dev := 1
    zone := fun _ => 5
    size := 0
    pos := 0
    append := false
    opened := true
    queue := fun _ => none
    current := 1
    state := fun _ => .TASK_RUNNING
  }

def noInodes : InodeSync n :=
  { sync := .ok, keeps_lock := by intro s s' b h; cases h; simp }

-- `write_inode`, which reads the block of the inode, writes to it and releases it.
def writeInode (block : Nat) (s : Cache n) : Except Stop (Cache n) := do
  match ← bread (flat noInodes) block s with
  | (none, _) => .error .panic
  | (some b, s) => brelse (flat noInodes) b (s.setBuf b { s.buf b with dirt := true })

theorem writeInode_keeps_lock {block : Nat} {s s' : Cache n} {b : Fin n} (h : writeInode block s = .ok s')
    (hlock : (s.buf b).lock = true)
    : (s'.buf b).lock = true ∧ (s'.buf b).dev = (s.buf b).dev := by
  unfold writeInode at h
  rw [Run.bind_eq_ok_iff] at h
  obtain ⟨r, hread, hrest⟩ := h
  obtain ⟨b', hfind, hunlocked, huptodate⟩ := (bread_ok_iff (flat_flat noInodes)).mp ⟨r.fst, r.snd, hread⟩
  have hne : b ≠ b' := by
    rintro rfl
    rw [hunlocked] at hlock
    cases hlock
  cases (bread_of_ready hfind hunlocked huptodate).symm.trans hread
  obtain ⟨_, rfl⟩ := (brelse_ok_iff (flat_flat noInodes)).mp hrest
  rw [setBuf_of_ne _ hne, setBuf_of_ne _ hne, setBuf_of_ne _ hne]
  exact ⟨hlock, rfl⟩

def dirtyInodes (blocks : List Nat) : InodeSync n where
  sync := fun s => blocks.foldlM (fun s block => writeInode block s) s
  keeps_lock := by
    intro s s' b h hlock
    induction blocks generalizing s with
    | nil =>
      cases h
      exact ⟨hlock, rfl⟩
    | cons block blocks ih =>
      rw [List.foldlM_cons, Run.bind_eq_ok_iff] at h
      obtain ⟨s₁, hwrite, hrest⟩ := h
      obtain ⟨hlock₁, hdev₁⟩ := writeInode_keeps_lock hwrite hlock
      obtain ⟨hlock', hdev'⟩ := ih s₁ hrest hlock₁
      exact ⟨hlock', hdev'.trans hdev₁⟩

theorem overflow_of_syncedLog
    : (∃ s, fprintk (flat (dirtyInodes [3])) 10 dirtyLog = .ok s)
        ∧ ∃ s, makeRequest (flat (dirtyInodes [3])) .WRITE 0 dirtyLog = .ok s
          ∧ (¬∃ s', fprintk (flat (dirtyInodes [3])) 10 s = .ok s')
          ∧ ∀ k, fprintk (calls (dirtyInodes [3]) (fun _ => 10) k) 10 s = .error .overflow := by
  obtain ⟨s, hs, hblocked⟩ : ∃ s, makeRequest (flat (dirtyInodes [3])) .WRITE 0 dirtyLog = .ok s ∧ s.Blocked :=
    ⟨_, rfl, rfl, by decide, by decide, by decide, 0, rfl, rfl⟩
  have hover := @overflow_of_blocked 1 (dirtyInodes [3]) (fun _ => 10) (fun _ => by decide) 10 (by decide) s hblocked
  refine ⟨⟨_, rfl⟩, s, hs, ?_, hover⟩
  intro ⟨s', heq⟩
  have hzero : fprintk (flat (dirtyInodes [3])) 10 s = .error .overflow := hover 0
  rw [hzero] at heq
  simp at heq

end Cache
end OS
