import Mathlib.Algebra.Group.Int.Defs
import ByDoing.OS.Minix.FileDev

namespace OS
namespace Minix

def NR_OPEN : Nat := 20

def EIO : Int := 5
def EBADF : Int := 9
def EINVAL : Int := 22
def ESPIPE : Int := 29

def O_APPEND : Nat := 0o2000

def MAJOR (dev : Nat) : Nat :=
  dev / 256

def IS_SEEKABLE (x : Nat) : Bool :=
  1 ≤ x ∧ x ≤ 3

-- `f_pos` is signed, but nothing makes it negative.
structure File where
  fMode : Nat
  fFlags : Nat
  fInode : Option Slot
  fPos : Nat

def File.append (file : File) : Bool :=
  file.fFlags &&& O_APPEND != 0

-- The files are those of `file_table`; `filp` are the descriptors of the tasks.
structure OpenFiles where
  fs : Fs Slot
  file : Nat → File
  filp : Nat → Nat → Option Nat

abbrev FileCall (α : Type) := Machine OpenFiles Stop α

def liftFs {α : Type} (x : Call Slot α) : FileCall α :=
  fun t =>
    match x t.fs with
    | .ok (a, fs) => .ok (a, { t with fs })
    | .error e => .error e

inductive Special where
  | pipe
  | chr
  | blk

-- `read_pipe`, `rw_char` and `block_read`, and those for writing.
structure Drivers where
  read : Special → Slot → Nat → Int → Call Slot (Int × Nat × List UInt8)
  write : Special → Slot → Nat → List UInt8 → Call Slot (Int × Nat)

section Code

def OpenFiles.setPos (t : OpenFiles) (f pos : Nat) : OpenFiles :=
  { t with file := Function.update t.file f { t.file f with fPos := pos } }

-- `current->filp[fd]`, of a descriptor that is in range.
def OpenFiles.openFile (t : OpenFiles) (current fd : Nat) : Option Nat :=
  if fd ≥ NR_OPEN then none else t.filp current fd

def long (n : Int) : Int :=
  n.bmod (2 ^ 32)

def sysLseek (current fd : Nat) (offset : BitVec 32) (origin : Nat) : FileCall Int := do
  let t ← get
  let offset := offset.toInt
  match t.openFile current fd with
  | none => return -EBADF
  | some f =>
    let file := t.file f
    match file.fInode with
    | none => return -EBADF
    | some inode =>
      let m := t.fs.inode inode
      if !IS_SEEKABLE (MAJOR m.iDev) then return -EBADF
      if m.iPipe then return -ESPIPE
      match origin with
      | 0 =>
        if offset < 0 then return -EINVAL
        modify fun t => t.setPos f offset.toNat
        return offset
      | 1 =>
        let tmp := long (file.fPos + offset)
        if tmp < 0 then return -EINVAL
        modify fun t => t.setPos f tmp.toNat
        return tmp
      | 2 =>
        let tmp := long (m.iSize + offset)
        if tmp < 0 then return -EINVAL
        modify fun t => t.setPos f tmp.toNat
        return tmp
      | _ => return -EINVAL

-- The comparison with `i_size` is one of unsigned longs, and the difference is stored in an int.
def sysRead (drivers : Drivers) (current fd : Nat) (count : BitVec 32) : FileCall (Int × List UInt8) := do
  let t ← get
  let count := count.toInt
  match t.openFile current fd with
  | none => return (-EINVAL, [])
  | some f =>
    if count < 0 then return (-EINVAL, [])
    if count = 0 then return (0, [])
    let file := t.file f
    match file.fInode with
    | none => Machine.stop .fault
    | some inode =>
      let m := t.fs.inode inode
      let transfer (x : Call Slot (Int × Nat × List UInt8)) : FileCall (Int × List UInt8) := do
        let (n, pos, bytes) ← liftFs x
        modify fun t => t.setPos f pos
        return (n, bytes)
      if m.iPipe then
        if file.fMode % 2 = 1 then
          return ← transfer (drivers.read .pipe inode file.fPos count)
        else
          return (- EIO, [])
      if S_ISCHR m.iMode then return ← transfer (drivers.read .chr inode file.fPos count)
      if S_ISBLK m.iMode then return ← transfer (drivers.read .blk inode file.fPos count)
      if S_ISDIR m.iMode || S_ISREG m.iMode then
        let count :=
          if (count + file.fPos) % 2 ^ 32 > m.iSize then long (m.iSize - file.fPos) else count
        if count ≤ 0 then return (0, [])
        return ← transfer (fileRead inode file.fPos count)
      return (-EINVAL, [])

def sysWrite (drivers : Drivers) (current fd : Nat) (buf : Nat → UInt8) (count : BitVec 32) : FileCall Int := do
  let t ← get
  let count := count.toInt
  match t.openFile current fd with
  | none => return -EINVAL
  | some f =>
    if count < 0 then return -EINVAL
    if count = 0 then return 0
    let file := t.file f
    match file.fInode with
    | none => Machine.stop .fault
    | some inode =>
      let m := t.fs.inode inode
      let bytes := (List.range count.toNat).map buf
      let transfer (x : Call Slot (Int × Nat)) : FileCall Int := do
        let (n, pos) ← liftFs x
        modify fun t => t.setPos f pos
        return n
      if m.iPipe then
        if file.fMode / 2 % 2 = 1 then
          return ← transfer (drivers.write .pipe inode file.fPos bytes)
        else
          return - EIO
      if S_ISCHR m.iMode then return ← transfer (drivers.write .chr inode file.fPos bytes)
      if S_ISBLK m.iMode then return ← transfer (drivers.write .blk inode file.fPos bytes)
      if S_ISREG m.iMode then return ← transfer (fileWrite inode file.append file.fPos bytes)
      return -EINVAL

inductive FileOp where
  | lseek (offset : BitVec 32) (origin : Nat)
  | read (count : BitVec 32)
  | write (buf : Nat → UInt8) (count : BitVec 32)

structure FileRequest where
  current : Nat
  fd : Nat
  op : FileOp

def perform (drivers : Drivers) (r : FileRequest) : FileCall (Int × List UInt8) :=
  match r.op with
  | .lseek offset origin => do return (← sysLseek r.current r.fd offset origin, [])
  | .read count => sysRead drivers r.current r.fd count
  | .write buf count => do return (← sysWrite drivers r.current r.fd buf count, [])

def performAll (drivers : Drivers) : List FileRequest → FileCall (List (Int × List UInt8))
  | [] => return []
  | r :: rs => do
    let out ← perform drivers r
    let outs ← performAll drivers rs
    return out :: outs

end Code

section Spec

/--
Files as lists of bytes, with the positions of those that are open. `full` are the files with no free zone on their
device.
-/
structure ByteFiles where
  content : Slot → List UInt8
  pos : Nat → Nat
  full : Slot → Prop

def OpenFiles.view (t : OpenFiles) : ByteFiles where
  content := fileBytes t.fs
  pos f := (t.file f).fPos
  full inode := Full t.fs (t.fs.inode inode).iDev

-- Where `lseek` goes to, if there is such a position.
def seekTo (b : ByteFiles) (f : Nat) (inode : Slot) (offset : Int) (origin : Nat) : Option Nat :=
  let target : Int :=
    match origin with
    | 0 => offset
    | 1 => b.pos f + offset
    | 2 => (b.content inode).length + offset
    | _ => -1
  if 0 ≤ target ∧ target < 2 ^ 31 then some target.toNat else none

def writeStart (b : ByteFiles) (f : Nat) (inode : Slot) (append : Bool) : Nat :=
  if append then (b.content inode).length else b.pos f

def Answers (b b' : ByteFiles) (f : Nat) (inode : Slot) (append : Bool) (out : Int × List UInt8) : FileOp → Prop
  | .lseek offset origin =>
    b'.content = b.content
      ∧ match seekTo b f inode offset.toInt origin with
        | some pos => out = ((pos : Int), []) ∧ b'.pos = Function.update b.pos f pos
        | none => out = (-EINVAL, []) ∧ b'.pos = b.pos
  | .read count =>
    b'.content = b.content
      ∧ if count.toInt < 0 then
          out = (-EINVAL, []) ∧ b'.pos = b.pos
        else
          let bytes := Overwrite.slice (b.content inode) (b.pos f) count.toInt.toNat
          out = ((bytes.length : Int), bytes) ∧ b'.pos = Function.update b.pos f (b.pos f + bytes.length)
  | .write buf count =>
    if count.toInt < 0 then
      out = (-EINVAL, []) ∧ b'.content = b.content ∧ b'.pos = b.pos
    else if count.toInt = 0 then
      out = (0, []) ∧ b'.content = b.content ∧ b'.pos = b.pos
    else
      let bytes := (List.range count.toInt.toNat).map buf
      let start := writeStart b f inode append
      ∃ k ≤ bytes.length,
        out = (if k = 0 then -1 else (k : Int), [])
          ∧ b'.content = Function.update b.content inode (Overwrite.overwrite 0 (b.content inode) start (bytes.take k))
          ∧ b'.pos = (if append then b.pos else Function.update b.pos f (start + k))
          ∧ (k < bytes.length → b'.full inode)
          ∧ (0 < k → start + k ≤ maxBytes)

def TooBig (b : ByteFiles) (f : Nat) (inode : Slot) (append : Bool) : FileOp → Prop
  | .write _ count => 0 < count.toInt ∧ maxBytes < writeStart b f inode append + count.toInt.toNat
  | _ => False

structure Names (t : OpenFiles) (r : FileRequest) (f : Nat) (inode : Slot) : Prop where
  opened : t.openFile r.current r.fd = some f
  points : (t.file f).fInode = some inode

structure Regular (t : OpenFiles) (files : Slot → Prop) (r : FileRequest) (f : Nat) (inode : Slot) : Prop
    extends Names t r f inode where
  file : files inode
  reg : S_ISREG (t.fs.inode inode).iMode = true
  pipe : (t.fs.inode inode).iPipe = false
  seekable : IS_SEEKABLE (MAJOR (t.fs.inode inode).iDev) = true

def AnswersAll (drivers : Drivers) : OpenFiles → List FileRequest → List (Int × List UInt8) → OpenFiles → Prop
  | t, [], [], t' => t' = t
  | t, r :: rs, out :: outs, t' =>
    ∃ t₁ f inode, perform drivers r t = .ok (out, t₁) ∧ Names t r f inode
      ∧ Answers t.view t₁.view f inode (t.file f).append out r.op ∧ AnswersAll drivers t₁ rs outs t'
  | _, _, _, _ => False

end Spec

section Steps

open Machine

variable {t t₁ t' : OpenFiles} {files : Slot → Prop} {drivers : Drivers} {r : FileRequest} {f : Nat} {inode : Slot}

structure SameFiles (t t' : OpenFiles) : Prop where
  filp : t'.filp = t.filp
  file : ∀ f, ∃ pos, t'.file f = { t.file f with fPos := pos }
  touches : Touches t.fs t'.fs

theorem SameFiles.refl (t : OpenFiles) : SameFiles t t where
  filp := rfl
  file := fun f => ⟨(t.file f).fPos, rfl⟩
  touches := fun _ => ⟨_, _, _, _, _, _, rfl⟩

theorem SameFiles.trans (h : SameFiles t t₁) (h₁ : SameFiles t₁ t') : SameFiles t t' where
  filp := h₁.filp.trans h.filp
  file := by
    intro f
    obtain ⟨_, hf⟩ := h.file f
    obtain ⟨pos, hf₁⟩ := h₁.file f
    exact ⟨pos, by rw [hf₁, hf]⟩
  touches := h.touches.trans h₁.touches

theorem SameFiles.regular (h : SameFiles t t') (hreg : Regular t files r f inode) : Regular t' files r f inode := by
  obtain ⟨_, _, _, _, _, _, hj⟩ := h.touches inode
  obtain ⟨_, hf⟩ := h.file f
  refine ⟨⟨?_, ?_⟩, hreg.file, ?_, ?_, ?_⟩
  . rw [← hreg.opened]
    unfold OpenFiles.openFile
    rw [h.filp]
  . rw [hf]
    exact hreg.points
  . rw [hj]
    exact hreg.reg
  . rw [hj]
    exact hreg.pipe
  . rw [hj]
    exact hreg.seekable

structure Ready (t : OpenFiles) (files : Slot → Prop) : Prop where
  healthy : Healthy t.fs files
  pos : ∀ f, (t.file f).fPos < 2 ^ 31

theorem liftFs_ensures {α : Type} {x : Call Slot α} {Q : α → OpenFiles → Prop} {E : Stop → Prop}
    (h : Ensures x t.fs (fun a fs => Q a { t with fs }) E)
    : Ensures (liftFs x) t Q E := by
  cases hrun : x t.fs with
  | ok q =>
    have hlift : liftFs x t = .ok (q.fst, { t with fs := q.snd }) := by
      simp [liftFs, hrun]
    exact .of_eq_ok hlift (h.ok hrun)
  | error e =>
    refine .of_eq_error (e := e) ?_ (h.error hrun)
    simp [liftFs, hrun]

@[simp]
theorem pos_setPos (t : OpenFiles) (f pos : Nat) : (t.setPos f pos).view.pos = Function.update t.view.pos f pos := by
  funext g
  by_cases hg : g = f
  . subst hg
    simp [OpenFiles.view, OpenFiles.setPos]
  . simp [OpenFiles.view, OpenFiles.setPos, hg]

theorem sameFiles_setPos (t : OpenFiles) (f pos : Nat) : SameFiles t (t.setPos f pos) where
  filp := rfl
  file := by
    intro g
    by_cases hg : g = f
    . subst hg
      exact ⟨pos, by simp [OpenFiles.setPos]⟩
    . exact ⟨(t.file g).fPos, by simp [OpenFiles.setPos, hg]⟩
  touches := fun _ => ⟨_, _, _, _, _, _, rfl⟩

theorem Ready.setPos (h : Ready t files) {pos : Nat} (hpos : pos < 2 ^ 31) : Ready (t.setPos f pos) files where
  healthy := h.healthy
  pos := by
    intro g
    by_cases hg : g = f
    . subst hg
      simpa [OpenFiles.setPos] using hpos
    . simpa [OpenFiles.setPos, hg] using h.pos g

theorem long_cases {n : Int} (hlow : -2 ^ 31 ≤ n) (hhigh : n < 2 ^ 32)
    : (0 ≤ n ∧ n < 2 ^ 31 ∧ long n = n) ∨ (¬ (0 ≤ n ∧ n < 2 ^ 31) ∧ long n < 0) := by
  unfold long
  rw [Int.bmod_def]
  omega

theorem seek_ensures (hready : Ready t files) {offset : BitVec 32} {origin : Nat} {append : Bool} {n : Int}
    (hseek : seekTo t.view f inode offset.toInt origin = if 0 ≤ n ∧ n < 2 ^ 31 then some n.toNat else none)
    (hlow : -2 ^ 31 ≤ n) (hhigh : n < 2 ^ 32)
    : Ensures (if long n < 0 then pure (-EINVAL) else do
          modify fun t => t.setPos f (long n).toNat
          return long n : FileCall Int) t
        (fun out t' => Ready t' files ∧ SameFiles t t'
          ∧ Answers t.view t'.view f inode append (out, []) (.lseek offset origin))
        fun _ => False := by
  apply Ensures.ite
  . intro hneg
    apply Ensures.pure
    refine ⟨hready, .refl t, rfl, ?_⟩
    obtain ⟨hnonneg, _, hlong⟩ | ⟨hout, _⟩ := long_cases hlow hhigh
    . omega
    . rw [hseek, if_neg hout]
      exact ⟨rfl, rfl⟩
  . intro hpos
    apply Ensures.bind
    apply Ensures.modify
    apply Ensures.pure
    obtain ⟨hnonneg, hlt, hlong⟩ | ⟨_, hneg⟩ := long_cases hlow hhigh
    . rw [hlong]
      refine ⟨hready.setPos (by omega), sameFiles_setPos t f _, rfl, ?_⟩
      rw [hseek, if_pos ⟨hnonneg, hlt⟩]
      refine ⟨?_, pos_setPos t f _⟩
      rw [Int.toNat_of_nonneg hnonneg]
    . exact absurd hneg hpos

theorem sysLseek_ensures (hready : Ready t files) (hreg : Regular t files r f inode) (offset : BitVec 32)
    (origin : Nat) (append : Bool)
    : Ensures (sysLseek r.current r.fd offset origin) t
        (fun out t' => Ready t' files ∧ SameFiles t t'
          ∧ Answers t.view t'.view f inode append (out, []) (.lseek offset origin))
        fun _ => False := by
  have hlow := offset.le_toInt
  have hhigh := offset.toInt_lt
  have hpos := hready.pos f
  have hsize := hready.healthy.size inode hreg.file
  have hmax : maxBytes < 2 ^ 31 := by decide
  unfold sysLseek
  apply Ensures.bind
  apply Ensures.get
  simp only [hreg.opened, hreg.points, hreg.seekable, hreg.pipe, Bool.not_true, Bool.false_eq_true, if_false]
  split
  . have hlong : long offset.toInt = offset.toInt := by
      unfold long
      rw [Int.bmod_def]
      omega
    have hseek := @seek_ensures t files f inode hready offset 0 append offset.toInt rfl hlow (by omega)
    rwa [hlong] at hseek
  . exact seek_ensures hready rfl (by omega) (by omega)
  . apply seek_ensures hready ?_ (by omega) (by omega)
    rw [seekTo, show t.view.content inode = fileBytes t.fs inode from rfl, length_fileBytes]
  . next hzero hone htwo =>
    apply Ensures.pure
    have h0 : origin ≠ 0 := hzero
    have h1 : origin ≠ 1 := hone
    have h2 : origin ≠ 2 := htwo
    obtain ⟨k, rfl⟩ : ∃ k, origin = k + 3 := ⟨origin - 3, by omega⟩
    have hseek : seekTo t.view f inode offset.toInt (k + 3) = none := by
      simp [seekTo]
    refine ⟨hready, .refl t, rfl, ?_⟩
    rw [hseek]
    exact ⟨rfl, rfl⟩

theorem Regular.not_special (hreg : Regular t files r f inode)
    : S_ISCHR (t.fs.inode inode).iMode = false ∧ S_ISBLK (t.fs.inode inode).iMode = false := by
  have hmode := hreg.reg
  unfold S_ISREG at hmode
  unfold S_ISCHR S_ISBLK
  rw [eq_of_beq hmode]
  decide

theorem Wrote.ready {fs : Fs Slot} {pos : Nat} {bytes : List UInt8} (h : Wrote t.fs fs files inode pos bytes)
    (hready : Ready t files) {pos' : Nat} (hpos : pos' < 2 ^ 31)
    : Ready (OpenFiles.setPos { t with fs } f pos') files
        ∧ SameFiles t (OpenFiles.setPos { t with fs } f pos') := by
  have hsame : SameFiles t { t with fs } := ⟨rfl, fun f => ⟨(t.file f).fPos, rfl⟩, h.touches⟩
  have hready' : Ready { t with fs } files := ⟨h.healthy, hready.pos⟩
  exact ⟨hready'.setPos hpos, hsame.trans (sameFiles_setPos _ f pos')⟩

theorem Wrote.content {fs : Fs Slot} {pos : Nat} {bytes : List UInt8} (h : Wrote t.fs fs files inode pos bytes)
    (pos' : Nat)
    : (OpenFiles.setPos { t with fs } f pos').view.content
        = Function.update t.view.content inode (Overwrite.overwrite 0 (t.view.content inode) pos bytes) := by
  funext j
  by_cases hj : j = inode
  . subst hj
    rw [Function.update_self]
    exact h.here
  . rw [Function.update_of_ne hj]
    exact h.other j hj

theorem sysRead_ensures (hready : Ready t files) (hreg : Regular t files r f inode) (count : BitVec 32)
    (append : Bool)
    : Ensures (sysRead drivers r.current r.fd count) t
        (fun out t' => Ready t' files ∧ SameFiles t t' ∧ Answers t.view t'.view f inode append out (.read count))
        fun _ => False := by
  have hhigh := count.toInt_lt
  have hpos := hready.pos f
  have hsize := hready.healthy.size inode hreg.file
  have hmax : maxBytes < 2 ^ 31 := by decide
  obtain ⟨hchr, hblk⟩ := hreg.not_special
  unfold sysRead
  apply Ensures.bind
  apply Ensures.get
  simp only [hreg.opened, hreg.points, hreg.pipe, hchr, hblk, hreg.reg, Bool.false_eq_true, if_false, Bool.or_true,
    if_true]
  apply Ensures.ite
  . intro hneg
    apply Ensures.pure
    exact ⟨hready, .refl t, rfl, by rw [if_pos hneg]; exact ⟨rfl, rfl⟩⟩
  intro hnonneg
  have hnothing : Overwrite.slice (t.view.content inode) (t.view.pos f) count.toInt.toNat = [] →
      Answers t.view t.view f inode append (0, []) (.read count) := by
    intro hnil
    refine ⟨rfl, ?_⟩
    rw [if_neg hnonneg, hnil]
    exact ⟨rfl, (Function.update_eq_self f _).symm⟩
  have hend : (t.view.content inode).length = (t.fs.inode inode).iSize := length_fileBytes _ _
  apply Ensures.ite
  . intro hzero
    apply Ensures.pure
    exact ⟨hready, .refl t, hnothing (by rw [hzero]; rfl)⟩
  intro hne
  generalize hclip : (if (count.toInt + (t.file f).fPos) % 2 ^ 32 > (t.fs.inode inode).iSize then
    long ((t.fs.inode inode).iSize - (t.file f).fPos) else count.toInt) = clipped
  have hbound : clipped ≤ count.toInt ∧ (clipped = (t.fs.inode inode).iSize - (t.file f).fPos
      ∨ clipped = count.toInt ∧ (t.file f).fPos + count.toInt ≤ (t.fs.inode inode).iSize) := by
    have hlong : long ((t.fs.inode inode).iSize - (t.file f).fPos)
        = (t.fs.inode inode).iSize - (t.file f).fPos := by
      unfold long
      rw [Int.bmod_def]
      omega
    rw [hlong] at hclip
    split at hclip
    . omega
    . omega
  apply Ensures.ite
  . intro hclipped
    apply Ensures.pure
    refine ⟨hready, .refl t, hnothing (Overwrite.slice_of_length_le ?_)⟩
    rw [hend]
    change (t.fs.inode inode).iSize ≤ (t.file f).fPos
    omega
  intro hpositive
  obtain ⟨n, rfl⟩ := Int.eq_ofNat_of_zero_le (show 0 ≤ clipped by omega)
  apply Ensures.bind
  apply liftFs_ensures
  apply (fileRead_ensures hreg.file hready.healthy (show 0 < n by omega) (by omega)).mono _ fun _ h => h
  rintro _ fs ⟨rfl, hwrote⟩
  apply Ensures.bind
  apply Ensures.modify
  apply Ensures.pure
  obtain ⟨hready', hsame⟩ := hwrote.ready (f := f) hready (show (t.file f).fPos + n < 2 ^ 31 by omega)
  refine ⟨hready', hsame, ?_⟩
  have hslice : Overwrite.slice (t.view.content inode) (t.view.pos f) count.toInt.toNat
      = Overwrite.slice (fileBytes t.fs inode) (t.file f).fPos n := by
    change Overwrite.slice (fileBytes t.fs inode) (t.file f).fPos _ = _
    by_cases hshort : (t.fs.inode inode).iSize ≤ (t.file f).fPos + n
    . exact Overwrite.slice_of_le (by omega) (by rwa [length_fileBytes])
    . congr 1
      omega
  have hlength : (Overwrite.slice (fileBytes t.fs inode) (t.file f).fPos n).length = n :=
    Overwrite.length_slice (by rw [length_fileBytes]; omega)
  refine ⟨?_, ?_⟩
  . rw [hwrote.content, Overwrite.overwrite_nil, Function.update_eq_self]
  . rw [if_neg hnonneg, hslice]
    dsimp only
    rw [hlength]
    exact ⟨rfl, pos_setPos _ _ _⟩

theorem sysWrite_ensures (hready : Ready t files) (hreg : Regular t files r f inode) (buf : Nat → UInt8)
    (count : BitVec 32)
    : Ensures (sysWrite drivers r.current r.fd buf count) t
        (fun out t' => Ready t' files ∧ SameFiles t t'
          ∧ Answers t.view t'.view f inode (t.file f).append (out, []) (.write buf count))
        fun e => e = .panic "_bmap: block>big" ∧ TooBig t.view f inode (t.file f).append (.write buf count) := by
  have hpos := hready.pos f
  have hmax : maxBytes < 2 ^ 31 := by decide
  obtain ⟨hchr, hblk⟩ := hreg.not_special
  unfold sysWrite
  apply Ensures.bind
  apply Ensures.get
  simp only [hreg.opened, hreg.points, hreg.pipe, hchr, hblk, hreg.reg, Bool.false_eq_true, if_false, if_true]
  apply Ensures.ite
  . intro hneg
    apply Ensures.pure
    refine ⟨hready, .refl t, ?_⟩
    rw [Answers, if_pos hneg]
    exact ⟨rfl, rfl, rfl⟩
  intro hnonneg
  apply Ensures.ite
  . intro hzero
    apply Ensures.pure
    refine ⟨hready, .refl t, ?_⟩
    rw [Answers, if_neg hnonneg, if_pos hzero]
    exact ⟨rfl, rfl, rfl⟩
  intro hne
  have hlength : ((List.range count.toInt.toNat).map buf).length = count.toInt.toNat := by simp
  have hstart : writeStart t.view f inode (t.file f).append
      = if (t.file f).append then (t.fs.inode inode).iSize else (t.file f).fPos := by
    unfold writeStart
    rw [show (t.view.content inode).length = (t.fs.inode inode).iSize from length_fileBytes _ _]
    rfl
  apply Ensures.bind
  apply liftFs_ensures
  apply (fileWrite_ensures hreg.file hready.healthy (t.file f).append _).mono
  . rintro _ fs ⟨k, rfl, htook⟩
    apply Ensures.bind
    apply Ensures.modify
    apply Ensures.pure
    rw [← hstart] at htook
    have hle := htook.le
    have hnewpos : (if (t.file f).append then (t.file f).fPos else (t.file f).fPos + k) < 2 ^ 31 := by
      split
      . exact hpos
      . next happend =>
        by_cases hk : k = 0
        . omega
        . have hfits := htook.fits (by omega)
          rw [hstart, if_neg happend] at hfits
          omega
    obtain ⟨hready', hsame⟩ := htook.wrote.ready (f := f) hready hnewpos
    refine ⟨hready', hsame, ?_⟩
    rw [Answers, if_neg hnonneg, if_neg hne]
    refine ⟨k, hle, rfl, htook.wrote.content _, ?_, ?_, htook.fits⟩
    . rw [pos_setPos]
      cases happend : (t.file f).append with
      | true =>
        rw [if_pos rfl, if_pos rfl]
        exact Function.update_eq_self f _
      | false =>
        simp only [Bool.false_eq_true, if_false]
        rfl
    . intro hlt
      change Full fs (fs.inode inode).iDev
      rw [htook.wrote.touches.iDev]
      exact htook.full hlt
  . rintro e ⟨he, hbig⟩
    rw [← hstart, hlength] at hbig
    exact ⟨he, by omega, hbig⟩

theorem perform_ensures (hready : Ready t files) (hreg : Regular t files r f inode)
    : Ensures (perform drivers r) t
        (fun out t' => Ready t' files ∧ SameFiles t t'
          ∧ Answers t.view t'.view f inode (t.file f).append out r.op)
        fun e => e = .panic "_bmap: block>big" ∧ TooBig t.view f inode (t.file f).append r.op := by
  unfold perform
  cases hop : r.op with
  | lseek offset origin =>
    apply Ensures.bind
    apply (sysLseek_ensures hready hreg offset origin (t.file f).append).mono _ fun _ h => h.elim
    intro out t' h
    exact .pure h
  | read count => exact (sysRead_ensures hready hreg count (t.file f).append).mono (fun _ _ h => h) fun _ h => h.elim
  | write buf count =>
    apply Ensures.bind
    apply (sysWrite_ensures hready hreg buf count).imp
    intro out t' h
    exact .pure h

end Steps

section Main

open Machine

variable {files : Slot → Prop} {drivers : Drivers}

def StopsAt (drivers : Drivers) (t : OpenFiles) (rs : List FileRequest) : Prop :=
  ∃ before r after outs t₁ f inode, rs = before ++ r :: after ∧ performAll drivers before t = .ok (outs, t₁)
    ∧ Names t₁ r f inode ∧ TooBig t₁.view f inode (t₁.file f).append r.op

theorem StopsAt.cons {t t₁ : OpenFiles} {r : FileRequest} {rs : List FileRequest} {out : Int × List UInt8}
    (hrun : perform drivers r t = .ok (out, t₁)) (h : StopsAt drivers t₁ rs)
    : StopsAt drivers t (r :: rs) := by
  obtain ⟨before, r', after, outs, t₂, f, inode, rfl, hbefore, hnames, hbig⟩ := h
  refine ⟨r :: before, r', after, out :: outs, t₂, f, inode, rfl, ?_, hnames, hbig⟩
  unfold performAll
  rw [Machine.bind_of_eq_ok hrun, Machine.bind_of_eq_ok hbefore]
  rfl

/--
Any run of `lseek`, `read` and `write` on regular files, through any descriptors of any tasks, is one of calls on
lists of bytes, with holes that read as zeros. Only a full device makes a write short, and a run stops only at a write
that would make a file larger than its inode can hold.
-/
theorem performAll_answers {t : OpenFiles} (hready : Ready t files) {rs : List FileRequest}
    (hreg : ∀ r ∈ rs, ∃ f inode, Regular t files r f inode)
    : Ensures (performAll drivers rs) t (fun outs t' => AnswersAll drivers t rs outs t')
        fun e => e = .panic "_bmap: block>big" ∧ StopsAt drivers t rs := by
  induction rs generalizing t with
  | nil => exact .pure rfl
  | cons r rs ih =>
    obtain ⟨f, inode, hr⟩ := hreg r List.mem_cons_self
    have hstep := @perform_ensures t files drivers r f inode hready hr
    unfold performAll
    cases hrun : perform drivers r t with
    | error e =>
      apply Ensures.of_eq_error (bind_of_eq_error hrun)
      obtain ⟨he, hbig⟩ := hstep.error hrun
      exact ⟨he, [], r, rs, [], t, f, inode, rfl, rfl, hr.toNames, hbig⟩
    | ok q =>
      obtain ⟨out, t₁⟩ := q
      obtain ⟨hready₁, hsame, hanswers⟩ := hstep.ok hrun
      apply Ensures.bind
      apply Ensures.of_eq_ok hrun
      apply Ensures.bind
      have hreg₁ : ∀ r ∈ rs, ∃ f inode, Regular t₁ files r f inode := by
        intro r' hr'
        obtain ⟨f', inode', h⟩ := hreg r' (List.mem_cons_of_mem r hr')
        exact ⟨f', inode', hsame.regular h⟩
      apply (ih hready₁ hreg₁).mono
      . intro outs t' hall
        exact .pure ⟨t₁, f, inode, hrun, hr.toNames, hanswers, hall⟩
      . rintro e ⟨he, hstops⟩
        exact ⟨he, hstops.cons hrun⟩

def blankFs : Fs Slot where
  superBlock dev :=
    if dev = 0x301 then
      some {
        sNinodes := 32
        sNzones := 20
        sImapBlocks := 1
        sZmapBlocks := 1
        sFirstdatazone := 5
        sImap := fun _ => none
        sZmap := fun i => if i = 0 then some { bData := fun k => if k = 0 then 1 else 0, bDirt := false } else none
        sImount := none
      }
    else
      none
  cache _ _ := none
  disk _ _ := some fun _ => 0
  inode _ := { MInode.zero with iMode := 0o100644, iNlinks := 1, iDev := 0x301, iNum := 2, iCount := 1 }
  CURRENT_TIME := 0
  cleared := []

def blankTable : OpenFiles where
  fs := blankFs
  file _ := { fMode := 3, fFlags := 0, fInode := some 0, fPos := 0 }
  filp _ fd := if fd = 3 then some 0 else none

def noDrivers : Drivers where
  read _ _ pos _ := return (0, pos, [])
  write _ _ pos _ := return (0, pos)

def blankRequests : List FileRequest :=
  [⟨1, 3, .lseek 1022 0⟩, ⟨1, 3, .write (fun i => 97 + UInt8.ofNat i) 3⟩, ⟨1, 3, .lseek (-4) 1⟩, ⟨1, 3, .read 100⟩]

theorem blankFs_ptr (inode : Slot) (p : List Nat) : (forest blankFs).ptr inode p = none := by
  induction p with
  | nil => rfl
  | cons k p ih =>
    cases p with
    | nil => rfl
    | cons l p => exact Forest.ptr_cons_of_none ih

theorem blankFs_formatted : IsFormatted blankFs 0x301 := by
  refine ⟨_, rfl, by decide, ?_, fun _ _ _ _ => rfl⟩
  intro zone hzone
  dsimp only at hzone ⊢
  have hword : (zone + 1 - 5) / 8192 = 0 := by omega
  rw [hword]
  exact ⟨by decide, rfl⟩

theorem blankTable_ready : Ready blankTable fun _ => True where
  healthy := {
    sound := {
      unshared := by
        intro i j p q a _ _ ha
        rw [show blankTable.fs = blankFs from rfl, blankFs_ptr] at ha
        cases ha
      marked := by
        intro i p a _ ha
        rw [show blankTable.fs = blankFs from rfl, blankFs_ptr] at ha
        cases ha
    }
    readable := fun _ _ => Option.some_ne_none _
    formatted := fun _ _ => blankFs_formatted
    size := fun _ _ => Nat.zero_le _
    blank := by
      intro i _ n _
      rw [show blankTable.fs = blankFs from rfl, fileByte, blockData_eq_none (blankFs_ptr _ _)]
  }
  pos := fun _ => Nat.two_pow_pos 31

theorem blankTable_regular
    : ∀ r ∈ blankRequests, ∃ f inode, Regular blankTable (fun _ => True) r f inode := by
  intro r hr
  have hfd : ∀ r ∈ blankRequests, r.fd = 3 := by decide
  refine ⟨0, 0, ⟨⟨?_, rfl⟩, trivial, by decide, rfl, by decide⟩⟩
  rw [OpenFiles.openFile, hfd r hr]
  rfl

theorem performAll_answers_blank
    : Ensures (performAll noDrivers blankRequests) blankTable
        (fun outs t' => AnswersAll noDrivers blankTable blankRequests outs t')
        fun e => e = .panic "_bmap: block>big" ∧ StopsAt noDrivers blankTable blankRequests := by
  have hreg := blankTable_regular
  -- The list is generalized so that nothing runs the requests.
  generalize blankRequests = rs at hreg ⊢
  exact performAll_answers blankTable_ready hreg

example : (performAll noDrivers blankRequests blankTable).toOption.map Prod.fst
    = some [(1022, []), (3, []), (1021, []), (4, [0, 97, 98, 99])] := by
  decide +kernel

end Main

end Minix
end OS
