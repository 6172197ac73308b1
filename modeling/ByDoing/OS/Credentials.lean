import ByDoing.Lib.Run

namespace OS.Credentials

-- An `unsigned short`.
abbrev UShort := BitVec 16

def EPERM : Int := 1

structure Task where
  uid : UShort
  euid : UShort
  suid : UShort
  gid : UShort
  egid : UShort
  sgid : UShort
  deriving DecidableEq

-- Two ids are compared as `int`.
def Same (id : UShort) (arg : Int) : Prop :=
  (id.toNat : Int) = arg

instance (id : UShort) (arg : Int) : Decidable (Same id arg) :=
  inferInstanceAs (Decidable (_ = _))

def store (arg : Int) : UShort :=
  BitVec.ofInt 16 arg

def Task.suser (current : Task) : Prop :=
  current.euid = 0

instance (current : Task) : Decidable current.suser :=
  inferInstanceAs (Decidable (_ = _))

-- The second half of `sys_setregid`.
def setegid (egid : Int) (current : Task) : Int × Task :=
  if egid > 0 then
    if Same current.gid egid ∨ Same current.egid egid ∨ Same current.sgid egid ∨ current.suser then
      (0, { current with egid := store egid })
    else
      (-EPERM, current)
  else
    (0, current)

def sysSetregid (rgid egid : Int) (current : Task) : Int × Task :=
  if rgid > 0 then
    if Same current.gid rgid ∨ current.suser then
      setegid egid { current with gid := store rgid }
    else
      (-EPERM, current)
  else
    setegid egid current

def sysSetgid (gid : Int) (current : Task) : Int × Task :=
  sysSetregid gid gid current

-- The second half of `sys_setreuid`, with the user id from before the first half.
def seteuid (old_ruid : UShort) (euid : Int) (current : Task) : Int × Task :=
  if euid > 0 then
    if Same old_ruid euid ∨ Same current.euid euid ∨ current.suser then
      (0, { current with euid := store euid })
    else
      (-EPERM, { current with uid := old_ruid })
  else
    (0, current)

def sysSetreuid (ruid euid : Int) (current : Task) : Int × Task :=
  let old_ruid := current.uid
  if ruid > 0 then
    if Same current.euid ruid ∨ Same old_ruid ruid ∨ current.suser then
      seteuid old_ruid euid { current with uid := store ruid }
    else
      (-EPERM, current)
  else
    seteuid old_ruid euid current

def sysSetuid (uid : Int) (current : Task) : Int × Task :=
  sysSetreuid uid uid current

inductive Call where
  | setreuid (ruid euid : Int)
  | setuid (uid : Int)
  | setregid (rgid egid : Int)
  | setgid (gid : Int)

def Call.run (current : Task) : Call → Int × Task
  | .setreuid ruid euid => sysSetreuid ruid euid current
  | .setuid uid => sysSetuid uid current
  | .setregid rgid egid => sysSetregid rgid egid current
  | .setgid gid => sysSetgid gid current

def step (current : Task) (c : Call) : Option Task :=
  some (c.run current).2

-- The ids of `t` are among those that `init` had.
structure Confined (init t : Task) : Prop where
  uid : t.uid = init.uid ∨ t.uid = init.euid
  euid : t.euid = init.uid ∨ t.euid = init.euid
  gid : t.gid = init.gid ∨ t.gid = init.egid ∨ t.gid = init.sgid
  egid : t.egid = init.gid ∨ t.egid = init.egid ∨ t.egid = init.sgid

variable {t t' init : Task}

theorem store_of_same {id : UShort} {arg : Int} (h : Same id arg) : store arg = id := by
  unfold Same at h
  unfold store
  rw [← h, BitVec.ofInt_natCast, BitVec.ofNat_toNat, BitVec.setWidth_eq]

structure Allowed (t : Task) (res : Int × Task) : Prop where
  refused : res.1 = -EPERM → res.2 = t
  uid : res.2.uid = t.uid ∨ res.2.uid = t.euid
  euid : res.2.euid = t.uid ∨ res.2.euid = t.euid
  gid : res.2.gid = t.gid
  egid : res.2.egid = t.gid ∨ res.2.egid = t.egid ∨ res.2.egid = t.sgid
  sgid : res.2.sgid = t.sgid

theorem Allowed.refl (res : Int) (t : Task) : Allowed t (res, t) :=
  ⟨fun _ => rfl, .inl rfl, .inr rfl, rfl, .inr (.inl rfl), rfl⟩

theorem setegid_allowed (h : ¬ t.suser) (egid : Int) : Allowed t (setegid egid t) := by
  unfold setegid
  split
  . split
    . next hsame =>
      have hstore : store egid = t.gid ∨ store egid = t.egid ∨ store egid = t.sgid := by
        rcases hsame with hgid | hegid | hsgid | hsuser
        . left
          exact store_of_same hgid
        . right
          left
          exact store_of_same hegid
        . right
          right
          exact store_of_same hsgid
        . exact absurd hsuser h
      exact ⟨nofun, .inl rfl, .inr rfl, rfl, hstore, rfl⟩
    . apply Allowed.refl
  . apply Allowed.refl

theorem sysSetregid_allowed (h : ¬ t.suser) (rgid egid : Int) : Allowed t (sysSetregid rgid egid t) := by
  unfold sysSetregid
  split
  . split
    . next hsame =>
      -- without root the group id that is set is the one that the process has
      have hgid : { t with gid := store rgid } = t := by
        rcases hsame with hgid | hsuser
        . rw [store_of_same hgid]
        . exact absurd hsuser h
      rw [hgid]
      exact setegid_allowed h egid
    . apply Allowed.refl
  . exact setegid_allowed h egid

theorem seteuid_allowed (h : ¬ t.suser) (uid : UShort) (huid : uid = t.uid ∨ uid = t.euid) (euid : Int)
    : Allowed t (seteuid t.uid euid { t with uid := uid }) := by
  unfold seteuid
  split
  . split
    . next hsame =>
      have hstore : store euid = t.uid ∨ store euid = t.euid := by
        rcases hsame with hruid | heuid | hsuser
        . left
          exact store_of_same hruid
        . right
          exact store_of_same heuid
        . exact absurd hsuser h
      exact ⟨nofun, huid, hstore, rfl, .inr (.inl rfl), rfl⟩
    . exact Allowed.refl _ t
  . exact ⟨nofun, huid, .inr rfl, rfl, .inr (.inl rfl), rfl⟩

theorem sysSetreuid_allowed (h : ¬ t.suser) (ruid euid : Int) : Allowed t (sysSetreuid ruid euid t) := by
  unfold sysSetreuid
  dsimp only
  split
  . split
    . next hsame =>
      apply seteuid_allowed h
      rcases hsame with heuid | hruid | hsuser
      . right
        exact store_of_same heuid
      . left
        exact store_of_same hruid
      . exact absurd hsuser h
    . apply Allowed.refl
  . exact seteuid_allowed h t.uid (.inl rfl) euid

theorem Call.run_allowed (h : ¬ t.suser) (c : Call) : Allowed t (c.run t) := by
  cases c with
  | setreuid ruid euid => exact sysSetreuid_allowed h ruid euid
  | setuid uid => exact sysSetreuid_allowed h uid uid
  | setregid rgid egid => exact sysSetregid_allowed h rgid egid
  | setgid gid => exact sysSetregid_allowed h gid gid

structure Inv (init t : Task) : Prop where
  confined : Confined init t
  gid : t.gid = init.gid
  sgid : t.sgid = init.sgid

theorem Inv.refl (t : Task) : Inv t t :=
  ⟨⟨.inl rfl, .inr rfl, .inl rfl, .inr (.inl rfl)⟩, rfl, rfl⟩

theorem Inv.not_suser (h : Inv init t) (huid : init.uid ≠ 0) (heuid : init.euid ≠ 0) : ¬ t.suser := by
  intro hsuser
  unfold Task.suser at hsuser
  rcases h.confined.euid with heq | heq
  . exact huid (heq.symm.trans hsuser)
  . exact heuid (heq.symm.trans hsuser)

theorem Inv.step (h : Inv init t) {res : Int × Task} (hallowed : Allowed t res) : Inv init res.2 := by
  have huser : ∀ id, id = t.uid ∨ id = t.euid → id = init.uid ∨ id = init.euid := by
    rintro id (rfl | rfl)
    . exact h.confined.uid
    . exact h.confined.euid
  have hgroup : res.2.egid = init.gid ∨ res.2.egid = init.egid ∨ res.2.egid = init.sgid := by
    rcases hallowed.egid with heq | heq | heq
    . left
      exact heq.trans h.gid
    . rw [heq]
      exact h.confined.egid
    . right
      right
      exact heq.trans h.sgid
  have hgid := hallowed.gid.trans h.gid
  exact ⟨⟨huser _ hallowed.uid, huser _ hallowed.euid, .inl hgid, hgroup⟩, hgid, hallowed.sgid.trans h.sgid⟩

/--
A process whose user id and effective user id are not root's stays within the ids it started with,
whatever calls it makes and with whatever arguments, and a call that is refused changes none of them.
-/
theorem confined_of_reaches (huid : init.uid ≠ 0) (heuid : init.euid ≠ 0)
    (h : Run.Reaches step (fun _ _ => True) init t)
    : Confined init t ∧ ∀ c : Call, (c.run t).1 = -EPERM → (c.run t).2 = t := by
  have hinv : Inv init t := by
    apply h.invariant (Inv init) (Inv.refl init)
    rintro s s' c hinv _ hstep
    obtain rfl : (c.run s).2 = s' := Option.some.inj hstep
    exact hinv.step (Call.run_allowed (hinv.not_suser huid heuid) c)
  constructor
  . exact hinv.confined
  . intro c
    exact (Call.run_allowed (hinv.not_suser huid heuid) c).refused

/--
A process of a set-user-id program after the call that swaps its two user ids.
-/
theorem confined_of_swap
    : Confined ⟨5, 7, 0, 5, 9, 0⟩ ⟨7, 5, 0, 5, 9, 0⟩
        ∧
      ∀ c : Call, (c.run ⟨7, 5, 0, 5, 9, 0⟩).1 = -EPERM →
        (c.run ⟨7, 5, 0, 5, 9, 0⟩).2 = ⟨7, 5, 0, 5, 9, 0⟩ := by
  apply confined_of_reaches
  . decide
  . decide
  . apply Run.Reaches.tail (a := .setreuid 7 5) .refl trivial
    decide

end OS.Credentials
