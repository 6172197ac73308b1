import ByDoing.OS.Directory

/-!
This module contains the directory tree of one file system and the calls of `namei.c` that change it, each run to its
end before the next one begins. `inodes` are the inodes of the disk by their number, of which a free one is `none`.
`holds` are the references that tasks keep between the calls, to open files and to their directories. The reads
succeed except where an answer of the system says otherwise, and nothing is mounted. The bits of a mode come in only
through `access`.
-/

namespace OS
namespace Namei

open Directory (dot dotDot)

def EPERM : Int := 1
def ENOENT : Int := 2
def EACCES : Int := 13
def EEXIST : Int := 17
def ENOTDIR : Int := 20
def EISDIR : Int := 21
def ENOSPC : Int := 28
def ENOTEMPTY : Int := 39
def ERROR : Int := 99

def MAY_EXEC : Nat := 1
def MAY_WRITE : Nat := 2

def O_ACCMODE : Nat := 3
def O_WRONLY : Nat := 1
def O_CREAT : Nat := 0o100
def O_EXCL : Nat := 0o200
def O_TRUNC : Nat := 0o1000

def ACC_MODE (flag : Nat) : Nat :=
  [4, 2, 6, 255].getD (flag &&& O_ACCMODE) 0

def ROOT_INO : Nat := 1

/--
A directory that `sys_mknod` has made has no block and no entries.
-/
inductive NodeKind where
  | file
  | bareDirectory
  | directory
  deriving Repr, DecidableEq

structure Node where
  nlinks : UInt8
  kind : NodeKind
  entries : List DirEntry
  deriving DecidableEq

structure FileSystem where
  inodes : List (Option Node)
  holds : Nat → Nat

-- `base` is the last component, which is missing in a path like `/usr/`.
structure Path where
  dirs : List FileName
  base : Option FileName

/--
What a call reads of its task: `start` is where the path begins, and there is none for the empty path. `sticky` says
that a sticky bit of the directory forbids to remove the entry.
-/
structure Context where
  root : Nat
  start : Option Nat
  access : Nat → Nat → Bool
  suser : Bool
  sticky : Bool

namespace FileSystem

def node (s : FileSystem) (x : Nat) : Option Node :=
  (s.inodes[x]?).join

def setNode (s : FileSystem) (x : Nat) (n : Option Node) : FileSystem :=
  { s with inodes := s.inodes.set x n }

def isDir (s : FileSystem) (x : Nat) : Bool :=
  match s.node x with
  | none => false
  | some n => n.kind != .file

def permission (s : FileSystem) (c : Context) (x mask : Nat) : Bool :=
  match s.node x with
  | none => false
  | some n => n.nlinks != 0 && c.access x mask

-- The number of the entry. `..` in the root directory of the task is taken for `.`.
def findEntry (s : FileSystem) (c : Context) (dir : Nat) (name : FileName) : Option Nat :=
  match s.node dir with
  | none => none
  | some n =>
    if n.kind = .directory then
      n.entries.findIdx? fun de => de.isNamed (if name = dotDot ∧ dir = c.root then dot else name)
    else
      none

def inodeAt (s : FileSystem) (dir k : Nat) : Nat :=
  match s.node dir with
  | none => 0
  | some n =>
    match n.entries[k]? with
    | none => 0
    | some de => de.inode

-- `iput` frees none of the directories on the way: they have links, or `permission` refuses them.
def getDir (s : FileSystem) (c : Context) (dir : Nat) : List FileName → Option Nat
  | [] => if s.isDir dir && s.permission c dir MAY_EXEC then some dir else none
  | name :: names =>
    if s.isDir dir && s.permission c dir MAY_EXEC then
      match s.findEntry c dir name with
      | none => none
      | some k => getDir s c (s.inodeAt dir k) names
    else
      none

def dirNamei (s : FileSystem) (c : Context) (path : Path) : Option Nat :=
  match c.start with
  | none => none
  | some dir => s.getDir c dir path.dirs

def namei (s : FileSystem) (c : Context) (path : Path) : Option Nat :=
  match s.dirNamei c path with
  | none => none
  | some dir =>
    match path.base with
    | none => some dir
    | some name =>
      match s.findEntry c dir name with
      | none => none
      | some k => some (s.inodeAt dir k)

def iput (s : FileSystem) (x : Nat) : FileSystem :=
  match s.node x with
  | none => s
  | some n => if s.holds x = 0 ∧ n.nlinks = 0 then s.setNode x none else s

def setLinks (s : FileSystem) (x : Nat) (nlinks : UInt8) : FileSystem :=
  match s.node x with
  | none => s
  | some n => s.setNode x (some { n with nlinks })

def nlinks (s : FileSystem) (x : Nat) : UInt8 :=
  match s.node x with
  | none => 0
  | some n => n.nlinks

def hold (s : FileSystem) (x : Nat) : FileSystem :=
  { s with holds := Function.update s.holds x (s.holds x + 1) }

-- `created` is whether `create_block` finds a block if it needs one.
def addEntry (s : FileSystem) (dir : Nat) (name : FileName) (inode : Nat) (created : Bool) : Option FileSystem :=
  match s.node dir with
  | none => none
  | some n =>
    if n.kind = .directory then
      match n.entries.findIdx? fun de => de.inode == 0 with
      | some k => some (s.setNode dir (some { n with entries := n.entries.set k (.make inode name) }))
      | none =>
        if n.entries.length % DIR_ENTRIES_PER_BLOCK = 0 ∧ created = false then
          none
        else
          some (s.setNode dir (some { n with entries := n.entries ++ [.make inode name] }))
    else
      none

def clearEntry (s : FileSystem) (dir k : Nat) : FileSystem :=
  match s.node dir with
  | none => s
  | some n => s.setNode dir (some { n with entries := n.entries.modify k fun de => { de with inode := 0 } })

def newInode (s : FileSystem) : Option Nat :=
  (List.range' 1 (s.inodes.length - 1)).find? fun x => (s.node x).isNone

def emptyDir (s : FileSystem) (x : Nat) : Bool :=
  match s.node x with
  | some { kind := .directory, entries := de₀ :: de₁ :: rest, .. } =>
    de₀.inode == x && de₁.inode != 0 && de₀.text == dot.bytes && de₁.text == dotDot.bytes
      && rest.all fun de => de.inode == 0
  | _ => false

-- The inode that `namei` leaves with the caller.
def keep (s : FileSystem) (c : Context) (path : Path) : Int × FileSystem :=
  match s.namei c path with
  | none => (-ENOENT, s)
  | some x => (0, s.hold x)

def release (s : FileSystem) (x : Nat) : FileSystem :=
  { s with holds := Function.update s.holds x (s.holds x - 1) }.iput x

def openNamei (s : FileSystem) (c : Context) (path : Path) (flag : Nat) (created : Bool) : Int × FileSystem :=
  let flag := if flag &&& O_TRUNC ≠ 0 ∧ flag &&& O_ACCMODE = 0 then flag ||| O_WRONLY else flag
  match s.dirNamei c path with
  | none => (-ENOENT, s)
  | some dir =>
    match path.base with
    | none =>
      if flag &&& (O_ACCMODE ||| O_CREAT ||| O_TRUNC) = 0 then (0, s.hold dir) else (-EISDIR, s.iput dir)
    | some name =>
      match s.findEntry c dir name with
      | none =>
        if flag &&& O_CREAT = 0 then
          (-ENOENT, s.iput dir)
        else if s.permission c dir MAY_WRITE = false then
          (-EACCES, s.iput dir)
        else
          match s.newInode with
          | none => (-ENOSPC, s.iput dir)
          | some x =>
            match (s.setNode x (some { nlinks := 1, kind := .file, entries := [] })).addEntry dir name x created with
            -- The new inode is freed again.
            | none => (-ENOSPC, s.iput dir)
            | some s => (0, (s.iput dir).hold x)
      | some k =>
        let x := s.inodeAt dir k
        let s := s.iput dir
        if flag &&& O_EXCL ≠ 0 then
          (-EEXIST, s)
        else if (s.isDir x && flag &&& O_ACCMODE != 0) || s.permission c x (ACC_MODE flag) = false then
          (-EPERM, s.iput x)
        else
          (0, s.hold x)

-- `kind` is what the bits of `mode` say.
def sysMknod (s : FileSystem) (c : Context) (path : Path) (kind : NodeKind) (created : Bool) : Int × FileSystem :=
  if c.suser = false then
    (-EPERM, s)
  else
    match s.dirNamei c path with
    | none => (-ENOENT, s)
    | some dir =>
      match path.base with
      | none => (-ENOENT, s.iput dir)
      | some name =>
        if s.permission c dir MAY_WRITE = false then
          (-EPERM, s.iput dir)
        else
          match s.findEntry c dir name with
          | some _ => (-EEXIST, s.iput dir)
          | none =>
            match s.newInode with
            | none => (-ENOSPC, s.iput dir)
            | some x =>
              let kind := if kind = .file then .file else .bareDirectory
              match (s.setNode x (some { nlinks := 1, kind, entries := [] })).addEntry dir name x created with
              | none => (-ENOSPC, s.iput dir)
              | some s => (0, (s.iput dir).iput x)

/--
`newBlock` and `bread` are the answers of the system. Where `add_entry` fails the kernel panics: it frees the block of
the new directory, and `truncate` finds it free.
-/
def sysMkdir (s : FileSystem) (c : Context) (path : Path) (newBlock bread created : Bool)
    : Option (Int × FileSystem) :=
  if c.suser = false then
    some (-EPERM, s)
  else
    match s.dirNamei c path with
    | none => some (-ENOENT, s)
    | some dir =>
      match path.base with
      | none => some (-ENOENT, s.iput dir)
      | some name =>
        if s.permission c dir MAY_WRITE = false then
          some (-EPERM, s.iput dir)
        else
          match s.findEntry c dir name with
          | some _ => some (-EEXIST, s.iput dir)
          | none =>
            match s.newInode with
            | none => some (-ENOSPC, s.iput dir)
            | some x =>
              if newBlock = false then
                some (-ENOSPC, s.iput dir)
              else if bread = false then
                some (- ERROR, s.iput dir)
              else
                let entries := [DirEntry.make x dot, DirEntry.make dir dotDot]
                match (s.setNode x (some { nlinks := 2, kind := .directory, entries })).addEntry dir name x created with
                | none => none
                | some s =>
                  let s := s.setLinks dir (s.nlinks dir + 1)
                  some (0, (s.iput dir).iput x)

def sysRmdir (s : FileSystem) (c : Context) (path : Path) : Int × FileSystem :=
  if c.suser = false then
    (-EPERM, s)
  else
    match s.dirNamei c path with
    | none => (-ENOENT, s)
    | some dir =>
      match path.base with
      | none => (-ENOENT, s.iput dir)
      | some name =>
        if s.permission c dir MAY_WRITE = false then
          (-EPERM, s.iput dir)
        else
          match s.findEntry c dir name with
          | none => (-ENOENT, s.iput dir)
          | some k =>
            let x := s.inodeAt dir k
            if c.sticky then
              (-EPERM, (s.iput dir).iput x)
            -- The count of the inode is more than 1.
            else if s.holds x ≠ 0 ∨ x = dir then
              (-EPERM, (s.iput dir).iput x)
            else if s.isDir x = false then
              (-ENOTDIR, (s.iput x).iput dir)
            else if s.emptyDir x = false then
              (-ENOTEMPTY, (s.iput x).iput dir)
            else
              let s := (s.clearEntry dir k).setLinks x 0
              let s := s.setLinks dir (s.nlinks dir - 1)
              (0, (s.iput dir).iput x)

def sysUnlink (s : FileSystem) (c : Context) (path : Path) : Int × FileSystem :=
  match s.dirNamei c path with
  | none => (-ENOENT, s)
  | some dir =>
    match path.base with
    | none => (-ENOENT, s.iput dir)
    | some name =>
      if s.permission c dir MAY_WRITE = false then
        (-EPERM, s.iput dir)
      else
        match s.findEntry c dir name with
        | none => (-ENOENT, s.iput dir)
        | some k =>
          let x := s.inodeAt dir k
          if c.sticky then
            (-EPERM, (s.iput dir).iput x)
          else if s.isDir x then
            (-EPERM, (s.iput x).iput dir)
          else
            let nlinks := if s.nlinks x = 0 then 1 else s.nlinks x
            let s := (s.clearEntry dir k).setLinks x (nlinks - 1)
            (0, (s.iput x).iput dir)

def sysLink (s : FileSystem) (c c' : Context) (oldname newname : Path) (created : Bool) : Int × FileSystem :=
  match s.namei c oldname with
  | none => (-ENOENT, s)
  | some x =>
    if s.isDir x then
      (-EPERM, s.iput x)
    else
      match s.dirNamei c' newname with
      | none => (-EACCES, s.iput x)
      | some dir =>
        match newname.base with
        | none => (-EPERM, (s.iput x).iput dir)
        | some name =>
          if s.permission c' dir MAY_WRITE = false then
            (-EACCES, (s.iput dir).iput x)
          else
            match s.findEntry c' dir name with
            | some _ => (-EEXIST, (s.iput dir).iput x)
            | none =>
              match s.addEntry dir name x created with
              | none => (-ENOSPC, (s.iput dir).iput x)
              | some s =>
                let s := s.iput dir
                (0, (s.setLinks x (s.nlinks x + 1)).iput x)

end FileSystem

inductive Act where
  | keep (c : Context) (path : Path)
  | release (x : Nat)
  | openNamei (c : Context) (path : Path) (flag : Nat) (created : Bool)
  | sysMknod (c : Context) (path : Path) (kind : NodeKind) (created : Bool)
  | sysMkdir (c : Context) (path : Path) (newBlock bread created : Bool)
  | sysRmdir (c : Context) (path : Path)
  | sysUnlink (c : Context) (path : Path)
  | sysLink (c c' : Context) (oldname newname : Path) (created : Bool)

namespace FileSystem

def call (s : FileSystem) : Act → Option (Int × FileSystem)
  | .keep c path => some (s.keep c path)
  | .release x => if s.holds x = 0 then none else some (0, s.release x)
  | .openNamei c path flag created => some (s.openNamei c path flag created)
  | .sysMknod c path kind created => some (s.sysMknod c path kind created)
  | .sysMkdir c path newBlock bread created => s.sysMkdir c path newBlock bread created
  | .sysRmdir c path => some (s.sysRmdir c path)
  | .sysUnlink c path => some (s.sysUnlink c path)
  | .sysLink c c' oldname newname created => some (s.sysLink c c' oldname newname created)

def step (s : FileSystem) (a : Act) : Option FileSystem :=
  (s.call a).map Prod.snd

end FileSystem
end Namei
end OS
