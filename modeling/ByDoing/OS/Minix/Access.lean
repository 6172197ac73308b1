import ByDoing.OS.Namei
import ByDoing.OS.Minix.Inode

namespace OS
namespace Minix

open Namei (EACCES MAY_EXEC)

def Task.suser (current : Task) : Bool :=
  current.euid == 0

def permission (current : Task) (m : MInode) (mask : Nat) : Bool :=
  if m.iDev ≠ 0 ∧ m.iNlinks = 0 then
    false
  else
    let mode :=
      if current.euid = m.iUid then m.iMode >>> 6
      else if current.egid = m.iGid then m.iMode >>> 3
      else m.iMode
    mode &&& mask &&& 0o7 == mask || current.suser

structure Process extends Task where
  uid : Nat
  gid : Nat

-- The code after `namei`, which has found `inode` or nothing.
def sysAccess (current : Process) (inode : Option MInode) (mode : Nat) : Int :=
  let mode := mode &&& 0o7
  match inode with
  | none => -EACCES
  | some inode =>
    let iMode := inode.iMode &&& 0o777
    let res :=
      if current.uid = inode.iUid then iMode >>> 6
      else if current.gid = inode.iGid then iMode >>> 6
      else iMode
    if res &&& 0o7 &&& mode = mode then
      0
    else if current.uid = 0 ∧ (mode &&& 1 = 0 ∨ iMode &&& 0o111 ≠ 0) then
      0
    else
      -EACCES

-- The check of `do_execve` between the ones for a regular file and for its first block.
def executable (current : Task) (inode : MInode) : Bool :=
  let i :=
    if current.euid = inode.iUid then inode.iMode >>> 6
    else if current.egid = inode.iGid then inode.iMode >>> 3
    else inode.iMode
  i &&& 1 != 0 || (inode.iMode &&& 0o111 != 0 && current.suser)

-- The low three of `bits` have every bit of `mask`.
def Grants (bits mask : Nat) : Prop :=
  bits &&& mask &&& 0o7 = mask

instance (bits mask : Nat) : Decidable (Grants bits mask) :=
  inferInstanceAs (Decidable (_ = _))

def Agree (current : Process) (inode : MInode) (mask : Nat) : Prop :=
  (sysAccess current (some inode) mask = 0 ↔ permission current.toTask inode mask = true)
    ∧
  executable current.toTask inode = permission current.toTask inode MAY_EXEC

structure Plain (current : Process) : Prop where
  uid : current.uid ≠ 0
  euid : current.euid = current.uid
  egid : current.egid = current.gid

variable {current : Process} {inode : MInode} {mask : Nat}

theorem Plain.suser (h : Plain current) : current.suser = false := by
  unfold Task.suser
  rw [h.euid, beq_eq_false_iff_ne]
  exact h.uid

theorem permission_iff (h : Plain current) (hlinks : inode.iNlinks ≠ 0)
    : permission current.toTask inode mask = true
        ↔
      if current.uid = inode.iUid then Grants (inode.iMode >>> 6) mask
      else if current.gid = inode.iGid then Grants (inode.iMode >>> 3) mask
      else Grants inode.iMode mask := by
  unfold permission
  rw [if_neg fun hdeleted => hlinks hdeleted.right, h.suser, h.euid, h.egid, Bool.or_false, beq_iff_eq]
  unfold Grants
  split
  . exact Iff.rfl
  . split
    . exact Iff.rfl
    . exact Iff.rfl

theorem access_bits (mode shift : Nat) (h : 0o777 >>> shift &&& 0o7 = 0o7)
    : (mode &&& 0o777) >>> shift &&& 0o7 &&& mask = mode >>> shift &&& mask &&& 0o7 := by
  rw [Nat.shiftRight_and_distrib, Nat.and_assoc (mode >>> shift), h, Nat.and_assoc, Nat.and_assoc,
    Nat.and_comm 0o7]

theorem and_seven (h : mask ≤ 7) : mask &&& 0o7 = mask := by
  rw [show 0o7 = 2 ^ 3 - 1 from rfl, Nat.and_two_pow_sub_one_eq_mod]
  omega

theorem access_ends (h : current.uid ≠ 0) (granted last : Prop) [Decidable granted] [Decidable last]
    : (if granted then 0 else if current.uid = 0 ∧ last then 0 else -EACCES) = 0 ↔ granted := by
  have hdenied : -EACCES ≠ 0 := by decide
  split
  . next hgranted => simp only [hgranted]
  . next hgranted =>
    rw [if_neg fun hroot => h hroot.left]
    simp only [hgranted, hdenied]

theorem sysAccess_iff (h : current.uid ≠ 0) (hmask : mask ≤ 7)
    : sysAccess current (some inode) mask = 0
        ↔
      if current.uid = inode.iUid ∨ current.gid = inode.iGid then Grants (inode.iMode >>> 6) mask
      else Grants inode.iMode mask := by
  have howner := @access_bits mask inode.iMode 6 (by decide)
  have hother := @access_bits mask inode.iMode 0 (by decide)
  rw [Nat.shiftRight_zero, Nat.shiftRight_zero] at hother
  unfold sysAccess Grants
  dsimp only
  rw [and_seven hmask, access_ends h]
  by_cases huid : current.uid = inode.iUid
  . rw [if_pos huid, if_pos (Or.inl huid), howner]
  . rw [if_neg huid]
    by_cases hgid : current.gid = inode.iGid
    . rw [if_pos hgid, if_pos (Or.inr hgid), howner]
    . rw [if_neg hgid, if_neg (not_or.mpr ⟨huid, hgid⟩), hother]

theorem and_one_ne_zero_iff (bits : Nat) : bits &&& 1 ≠ 0 ↔ Grants bits 1 := by
  unfold Grants
  rw [Nat.and_assoc, show 1 &&& 0o7 = 1 from rfl, Nat.and_one_is_mod]
  omega

theorem executable_eq (h : Plain current) (hlinks : inode.iNlinks ≠ 0)
    : executable current.toTask inode = permission current.toTask inode MAY_EXEC := by
  rw [Bool.eq_iff_iff, permission_iff h hlinks]
  unfold executable
  rw [h.suser, h.euid, h.egid, Bool.and_false, Bool.or_false, bne_iff_ne, and_one_ne_zero_iff]
  split
  . exact Iff.rfl
  . split
    . exact Iff.rfl
    . exact Iff.rfl

/--
`sys_access` gives a member of the group the bits of the owner. So the three checks agree on an inode, a
process and a mask exactly if the process owns the inode, or is not of its group, or the bits of the
owner and those of the group grant the mask alike.
-/
theorem agree_iff (h : Plain current) (hlinks : inode.iNlinks ≠ 0) (hmask : mask ≤ 7)
    : Agree current inode mask
        ↔
      (current.uid = inode.iUid ∨ current.gid ≠ inode.iGid
        ∨ (Grants (inode.iMode >>> 6) mask ↔ Grants (inode.iMode >>> 3) mask)) := by
  unfold Agree
  rw [permission_iff h hlinks, sysAccess_iff h.uid hmask, and_iff_left (executable_eq h hlinks)]
  by_cases huid : current.uid = inode.iUid
  . simp only [huid, true_or, if_true]
  . by_cases hgid : current.gid = inode.iGid
    . simp only [huid, hgid, or_true, if_true, if_false, false_or, ne_eq, not_true_eq_false]
    . simp only [huid, hgid, or_self, if_false, false_or, ne_eq, not_false_eq_true, true_or]

def member : Process where
  root := none
  pwd := none
  euid := 2
  egid := 5
  umask := 0
  uid := 2
  gid := 5

def groupFile (mode : Nat) : MInode :=
  { MInode.zero with iMode := mode, iUid := 1, iGid := 5, iNlinks := 1, iDev := 1, iNum := 2 }

theorem plain_member : Plain member :=
  ⟨by decide, rfl, rfl⟩

/--
A regular file that its owner and its group may read.
-/
theorem agree_of_readable
    : Agree member (groupFile 0o100640) 4
        ↔
      (member.uid = (groupFile 0o100640).iUid ∨ member.gid ≠ (groupFile 0o100640).iGid
        ∨ (Grants ((groupFile 0o100640).iMode >>> 6) 4 ↔ Grants ((groupFile 0o100640).iMode >>> 3) 4)) := by
  apply agree_iff
  . exact plain_member
  . decide
  . decide

/--
`sys_access` lets a member of the group read a file that only its owner can open.
-/
theorem not_agree_of_member
    : ¬ ∀ (current : Process) (inode : MInode) (mask : Nat), Plain current → inode.iNlinks ≠ 0 → mask ≤ 7 →
        Agree current inode mask := by
  intro hall
  have hagree := hall member (groupFile 0o100600) 4 plain_member (by decide) (by decide)
  have haccess : sysAccess member (some (groupFile 0o100600)) 4 = 0 := by decide
  have hpermission : permission member.toTask (groupFile 0o100600) 4 = false := by decide
  rw [hagree.left.mp haccess] at hpermission
  cases hpermission

end Minix
end OS
