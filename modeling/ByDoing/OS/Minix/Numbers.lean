import ByDoing.Lib.Allotment
import ByDoing.OS.Minix.Inode

namespace OS
namespace Minix

open Machine

inductive MapKind where
  | imap
  | zmap
  deriving Repr, DecidableEq

structure BitAt where
  map : MapKind
  dev : Nat
  n : Nat
  deriving Repr, DecidableEq

def SuperBlock.maps {ι : Type} (sb : SuperBlock ι) (map : MapKind) : Nat → Option Bitmap :=
  match map with
  | .imap => sb.sImap
  | .zmap => sb.sZmap

def Fs.bitAt {ι : Type} (s : Fs ι) (b : BitAt) : Bool :=
  match s.superBlock b.dev with
  | some sb => mapBit (sb.maps b.map) b.n
  | none => false

inductive Number where
  | zone (dev zone : Nat)
  | inode (dev nr : Nat)
  deriving Repr, DecidableEq

def Number.bit {ι : Type} (s : Fs ι) (x : Number) : BitAt :=
  match x with
  | .zone dev z => ⟨.zmap, dev, z + 1 - ((s.superBlock dev).elim 0 fun sb => sb.sFirstdatazone)⟩
  | .inode dev nr => ⟨.imap, dev, nr⟩

def Number.Valid {ι : Type} (s : Fs ι) (x : Number) : Prop :=
  match x with
  | .zone dev z => ∃ sb, s.superBlock dev = some sb ∧ sb.sFirstdatazone ≤ z ∧ z < sb.sNzones
  | .inode dev nr => ∃ sb, s.superBlock dev = some sb ∧ 1 ≤ nr ∧ nr ≤ sb.sNinodes

-- What `read_super` has seen to: bit 0 of either bitmap is set.
def BitZero {ι : Type} (s : Fs ι) : Prop :=
  ∀ dev map, (s.superBlock dev).isSome → s.bitAt ⟨map, dev, 0⟩ = true

def SuperBlock.shape {ι : Type} (sb : SuperBlock ι) : Nat × Nat × Nat :=
  (sb.sNinodes, sb.sNzones, sb.sFirstdatazone)

def SameShape {ι : Type} (s s' : Fs ι) : Prop :=
  ∀ dev, (s'.superBlock dev).map SuperBlock.shape = (s.superBlock dev).map SuperBlock.shape

inductive MapCall where
  | newBlock (dev : Nat)
  | freeBlock (dev block : Nat)
  | newInode (current : Task) (dev : Nat)
  | freeInode (inode : Option Slot)

def MapCall.run (call : MapCall) : Sys (Option Number) :=
  match call with
  | .newBlock dev => do
    let block ← liftCall (Minix.newBlock dev)
    return if block = 0 then none else some (.zone dev block)
  | .freeBlock dev block => do
    liftCall (Minix.freeBlock dev block)
    return none
  | .newInode current dev => do
    match ← Minix.newInode current dev with
    | none => return none
    | some inode =>
      let m := (← get).fs.inode inode
      return some (.inode m.iDev m.iNum)
  | .freeInode inode => do
    liftCall (Minix.freeInode inode)
    return none

structure MapEvent where
  before : Kernel
  call : MapCall
  hands : Option Number
  after : Kernel

-- The number that the call takes back. `free_block` declines a block that is in use.
def MapEvent.frees (e : MapEvent) : Option Number :=
  match e.call with
  | .freeBlock dev block => if e.before.fs.count dev block = 0 then some (.zone dev block) else none
  | .freeInode (some inode) =>
    let m := e.before.fs.inode inode
    if m.iDev = 0 then none else some (.inode m.iDev m.iNum)
  | _ => none

inductive History (init : Kernel) : List MapEvent → Kernel → Prop where
  | nil : History init [] init
  | call {log : List MapEvent} {k k' : Kernel} {call : MapCall} {x : Option Number} : History init log k →
      call.run k = .ok (x, k') → History init (⟨k, call, x, k'⟩ :: log) k'
  | other {log : List MapEvent} {k k' : Kernel} : History init log k →
      k'.fs.superBlock = k.fs.superBlock → History init log k'

section Bits

variable {ι : Type}

theorem bitAt_update {s s' : Fs ι} {map : MapKind} {dev i j : Nat} {sb sb' : SuperBlock ι} {m m' : Bitmap}
    (hsb : s.superBlock dev = some sb) (hsb' : s'.superBlock dev = some sb')
    (hother : ∀ d, d ≠ dev → s'.superBlock d = s.superBlock d)
    (hmaps : sb'.maps = Function.update sb.maps map (Function.update (sb.maps map) i (some m')))
    (hmap : sb.maps map i = some m) (hj : j < 8192) (hbit : ∀ nr, nr ≠ j → m'.bit nr = m.bit nr)
    : s'.bitAt = Function.update s.bitAt ⟨map, dev, j + i * 8192⟩ (m'.bit j) := by
  funext b
  obtain ⟨map', d, n⟩ := b
  by_cases hd : d = dev
  . subst hd
    unfold Fs.bitAt
    simp only [hsb', hmaps]
    by_cases hkind : map' = map
    . subst hkind
      rw [Function.update_self, mapBit_update hmap hj hbit]
      split
      . next hn => rw [hn, Function.update_self]
      . next hn =>
        rw [Function.update_of_ne (by simpa using hn)]
        simp only [hsb]
    . rw [Function.update_of_ne hkind, Function.update_of_ne (by simp [hkind])]
      simp only [hsb]
  . rw [Function.update_of_ne (by simp [hd])]
    unfold Fs.bitAt
    simp only [hother d hd]

theorem bitAt_congr {s s' : Fs ι} (h : s'.superBlock = s.superBlock) : s'.bitAt = s.bitAt := by
  funext b
  simp only [Fs.bitAt, h]

theorem SameShape.of_eq {s s' : Fs ι} (h : s'.superBlock = s.superBlock) : SameShape s s' := by
  intro dev
  rw [h]

theorem SameShape.trans {s s₁ s' : Fs ι} (h : SameShape s s₁) (h₁ : SameShape s₁ s') : SameShape s s' :=
  fun dev => (h₁ dev).trans (h dev)

theorem SameShape.bit {s s' : Fs ι} (h : SameShape s s') (x : Number) : x.bit s' = x.bit s := by
  cases x with
  | inode dev nr => rfl
  | zone dev z =>
    have hdev := h dev
    unfold Number.bit
    cases hs : s.superBlock dev with
    | none =>
      rw [hs] at hdev
      simp [Option.map_eq_none_iff.mp hdev, hs]
    | some sb =>
      rw [hs] at hdev
      obtain ⟨sb', hs', hshape⟩ := Option.map_eq_some_iff.mp hdev
      simp only [SuperBlock.shape, Prod.mk.injEq] at hshape
      simp [hs', hs, hshape.right.right]

theorem SameShape.valid {s s' : Fs ι} (h : SameShape s s') {x : Number} (hx : x.Valid s') : x.Valid s := by
  have hsuper : ∀ dev sb', s'.superBlock dev = some sb' →
      ∃ sb, s.superBlock dev = some sb ∧ sb.shape = sb'.shape := by
    intro dev sb' hs'
    have hdev := h dev
    rw [hs'] at hdev
    exact Option.map_eq_some_iff.mp hdev.symm
  cases x with
  | zone dev z =>
    obtain ⟨sb', hs', hfirst, hzones⟩ := hx
    obtain ⟨sb, hs, hshape⟩ := hsuper dev sb' hs'
    simp only [SuperBlock.shape, Prod.mk.injEq] at hshape
    exact ⟨sb, hs, by omega, by omega⟩
  | inode dev nr =>
    obtain ⟨sb', hs', hone, hnodes⟩ := hx
    obtain ⟨sb, hs, hshape⟩ := hsuper dev sb' hs'
    simp only [SuperBlock.shape, Prod.mk.injEq] at hshape
    exact ⟨sb, hs, hone, by omega⟩

theorem Number.bit_injective {s : Fs ι} {x y : Number} (hx : x.Valid s) (hy : y.Valid s) (h : x.bit s = y.bit s)
    : x = y := by
  cases x with
  | inode dev nr =>
    cases y with
    | inode dev' nr' =>
      simp only [Number.bit, BitAt.mk.injEq, true_and] at h
      rw [h.left, h.right]
    | zone dev' z' => simp [Number.bit] at h
  | zone dev z =>
    cases y with
    | inode dev' nr' => simp [Number.bit] at h
    | zone dev' z' =>
      simp only [Number.bit, BitAt.mk.injEq, true_and] at h
      obtain ⟨rfl, hn⟩ := h
      obtain ⟨sb, hsb, hfirst, _⟩ := hx
      obtain ⟨sb', hsb', hfirst', _⟩ := hy
      cases hsb.symm.trans hsb'
      simp only [hsb, Option.elim_some] at hn
      rw [show z = z' by omega]

variable {s : Fs ι} {dev i j : Nat} {sb : SuperBlock ι} {m m' : Bitmap}

theorem SameShape.of_update {s' : Fs ι} {sb' : SuperBlock ι} (hsb : s.superBlock dev = some sb)
    (hsb' : s'.superBlock dev = some sb') (hother : ∀ d, d ≠ dev → s'.superBlock d = s.superBlock d)
    (hshape : sb'.shape = sb.shape)
    : SameShape s s' := by
  intro d
  by_cases hd : d = dev
  . rw [hd, hsb', hsb, Option.map_some, Option.map_some, hshape]
  . rw [hother d hd]

theorem setZmap_bits (hsb : s.superBlock dev = some sb) (hmap : sb.sZmap i = some m) (hj : j < 8192)
    (hbit : ∀ nr, nr ≠ j → m'.bit nr = m.bit nr)
    : (s.setZmap dev i m').bitAt = Function.update s.bitAt ⟨.zmap, dev, j + i * 8192⟩ (m'.bit j)
        ∧ SameShape s (s.setZmap dev i m') := by
  have hsb' : (s.setZmap dev i m').superBlock dev
      = some { sb with sZmap := Function.update sb.sZmap i (some m') } := by
    simp [Fs.setZmap, hsb]
  have hother : ∀ d, d ≠ dev → (s.setZmap dev i m').superBlock d = s.superBlock d := by
    intro d hd
    simp [Fs.setZmap, hd]
  have hmaps : ({ sb with sZmap := Function.update sb.sZmap i (some m') } : SuperBlock ι).maps
      = Function.update sb.maps .zmap (Function.update (sb.maps .zmap) i (some m')) := by
    funext map
    cases map with
    | imap | zmap => rfl
  exact ⟨bitAt_update hsb hsb' hother hmaps hmap hj hbit, .of_update hsb hsb' hother rfl⟩

theorem setImap_bits (hsb : s.superBlock dev = some sb) (hmap : sb.sImap i = some m) (hj : j < 8192)
    (hbit : ∀ nr, nr ≠ j → m'.bit nr = m.bit nr)
    : (s.setImap dev i m').bitAt = Function.update s.bitAt ⟨.imap, dev, j + i * 8192⟩ (m'.bit j)
        ∧ SameShape s (s.setImap dev i m') := by
  have hsb' : (s.setImap dev i m').superBlock dev
      = some { sb with sImap := Function.update sb.sImap i (some m') } := by
    simp [Fs.setImap, hsb]
  have hother : ∀ d, d ≠ dev → (s.setImap dev i m').superBlock d = s.superBlock d := by
    intro d hd
    simp [Fs.setImap, hd]
  have hmaps : ({ sb with sImap := Function.update sb.sImap i (some m') } : SuperBlock ι).maps
      = Function.update sb.maps .imap (Function.update (sb.maps .imap) i (some m')) := by
    funext map
    cases map with
    | imap | zmap => rfl
  exact ⟨bitAt_update hsb hsb' hother hmaps hmap hj hbit, .of_update hsb hsb' hother rfl⟩

end Bits

section Calls

variable {ι : Type}

structure Takes (s s' : Fs ι) (x : Number) : Prop where
  valid : x.Valid s
  clear : s.bitAt (x.bit s) = false
  bits : s'.bitAt = Function.update s.bitAt (x.bit s) true

structure GivesBack (s s' : Fs ι) (x : Number) : Prop where
  valid : x.Valid s
  bits : s'.bitAt = Function.update s.bitAt (x.bit s) false

theorem firstClear_pos {s : Fs ι} {dev i j : Nat} {sb : SuperBlock ι} {map : MapKind} (hzero : BitZero s)
    (hsb : s.superBlock dev = some sb) (h : firstClear (sb.maps map) = some (i, j))
    : 0 < j + i * 8192 := by
  by_contra hpos
  have hclear := mapBit_firstClear h
  have hset := hzero dev map (by rw [hsb]; rfl)
  simp only [Fs.bitAt, hsb] at hset
  rw [show j + i * 8192 = 0 by omega, hset] at hclear
  cases hclear

theorem bitAt_firstClear {s : Fs ι} {dev i j : Nat} {sb : SuperBlock ι} {map : MapKind}
    (hsb : s.superBlock dev = some sb) (h : firstClear (sb.maps map) = some (i, j))
    : s.bitAt ⟨map, dev, j + i * 8192⟩ = false := by
  simp only [Fs.bitAt, hsb]
  exact mapBit_firstClear h

theorem setBit_of_ne (m : Bitmap) (j nr : Nat) (h : nr ≠ j) : (m.setBit j).bit nr = m.bit nr := by
  simp [h]

theorem clearBit_of_ne (m : Bitmap) (j nr : Nat) (h : nr ≠ j) : (m.clearBit j).bit nr = m.bit nr := by
  simp [h]

theorem newBlock_bits {s s' : Fs ι} {dev r : Nat} (hzero : BitZero s) (h : newBlock dev s = .ok (r, s'))
    : SameShape s s' ∧ (∀ b, s.bitAt b = true → s'.bitAt b = true) ∧ (r ≠ 0 → Takes s s' (.zone dev r)) := by
  obtain ⟨sb, hget, hcases⟩ := newBlock_cases h
  have hsb := getSuper_eq hget
  obtain ⟨_, rfl, rfl⟩ | ⟨i, j, m, hfirst, hmap, hbit, hcases⟩ := hcases
  . exact ⟨.of_eq rfl, fun _ hb => hb, fun hne => absurd rfl hne⟩
  . obtain ⟨_, hj, _⟩ := firstClear_spec hfirst
    obtain ⟨hbits, hshape⟩ := setZmap_bits hsb hmap hj (setBit_of_ne m j)
    rw [show (m.setBit j).bit j = true by simp] at hbits
    have hkeeps : ∀ b, s.bitAt b = true → (s.setZmap dev i (m.setBit j)).bitAt b = true := by
      intro b hb
      rw [hbits, Function.update_apply]
      split
      . rfl
      . exact hb
    obtain ⟨_, rfl, rfl⟩ | ⟨hlt, hr, _, rfl⟩ := hcases
    . exact ⟨hshape, hkeeps, fun hne => absurd rfl hne⟩
    . have hput := bitAt_congr (superBlock_put (s.setZmap dev i (m.setBit j)) dev r zeroed)
      refine ⟨hshape.trans (.of_eq rfl), ?_, ?_⟩
      . rw [hput]
        exact hkeeps
      . intro _
        have hpos : 0 < j + i * 8192 := @firstClear_pos ι s dev i j sb .zmap hzero hsb hfirst
        have hnumber : (Number.zone dev r).bit s = ⟨.zmap, dev, j + i * 8192⟩ := by
          simp only [Number.bit, hsb, Option.elim_some, BitAt.mk.injEq, true_and]
          omega
        constructor
        . exact ⟨sb, hsb, by omega, hlt⟩
        . rw [hnumber]
          exact @bitAt_firstClear ι s dev i j sb .zmap hsb hfirst
        . rw [hnumber, hput, hbits]

theorem freeBlock_bits {s s' : Fs ι} {dev block : Nat} {u : Unit} (h : freeBlock dev block s = .ok (u, s'))
    : SameShape s s' ∧ (s.count dev block ≠ 0 → s'.bitAt = s.bitAt)
        ∧ (s.count dev block = 0 → GivesBack s s' (.zone dev block)) := by
  obtain ⟨sb, hget, hfirst, hzones, hcases⟩ := freeBlock_cases h
  have hsb := getSuper_eq hget
  obtain ⟨bh, hcache, hbusy, rfl⟩ | ⟨hcount, m, hmap, _, rfl⟩ := hcases
  . have hcount : s.count dev block ≠ 0 := by simpa [Fs.count, hcache] using hbusy
    exact ⟨.of_eq rfl, fun _ => bitAt_congr rfl, fun hidle => absurd hidle hcount⟩
  . have hlt : (block + 1 - sb.sFirstdatazone) % 8192 < 8192 := Nat.mod_lt _ (by decide)
    obtain ⟨hbits, hshape⟩ := setZmap_bits hsb hmap hlt (clearBit_of_ne m _)
    have hfreed : (freed s dev block (block + 1 - sb.sFirstdatazone) m).superBlock
        = (s.setZmap dev ((block + 1 - sb.sFirstdatazone) / 8192)
            (m.clearBit ((block + 1 - sb.sFirstdatazone) % 8192))).superBlock := by
      simp [freed, Fs.setZmap]
    refine ⟨hshape.trans (.of_eq hfreed), fun hbusy => absurd hcount hbusy, fun _ => ⟨⟨sb, hsb, hfirst, hzones⟩, ?_⟩⟩
    rw [bitAt_congr hfreed, hbits]
    simp only [Number.bit, hsb, Option.elim_some, Bitmap.bit_clearBit, decide_true, Bool.not_true, Bool.false_and]
    rw [Nat.mod_add_div']

theorem freeInode_bits (s : Fs Slot) (inode : Option Slot)
    : Ensures (freeInode inode) s
        (fun _ s' => SameShape s s' ∧ ((∀ i, inode = some i → (s.inode i).iDev = 0) → s'.bitAt = s.bitAt)
          ∧ ∀ i, inode = some i → (s.inode i).iDev ≠ 0 →
            GivesBack s s' (.inode (s.inode i).iDev (s.inode i).iNum))
        fun _ => True := by
  unfold freeInode
  split
  . apply Ensures.pure
    exact ⟨.of_eq rfl, fun _ => rfl, fun _ hi => by cases hi⟩
  . next inode =>
    apply Ensures.bind
    apply Ensures.get
    dsimp only
    split
    . next hdev =>
      apply Ensures.bind
      apply Ensures.modify
      apply Ensures.pure
      refine ⟨.of_eq rfl, fun _ => bitAt_congr rfl, ?_⟩
      rintro _ ⟨⟩ hne
      exact absurd hdev hne
    . next hdev =>
      apply Ensures.ite
      . intro _
        apply Ensures.bind
        exact .stop trivial
      intro _
      apply Ensures.ite
      . intro _
        apply Ensures.bind
        exact .stop trivial
      intro _
      apply Ensures.bind
      apply Ensures.get
      split
      . exact .stop trivial
      . next sb hget =>
        apply Ensures.ite
        . intro _
          apply Ensures.bind
          exact .stop trivial
        intro hrange
        split
        . exact .stop trivial
        . next map hmap =>
          apply Ensures.bind
          apply Ensures.modify
          apply Ensures.modify
          have hsb := getSuper_eq hget
          have hlt : (s.inode inode).iNum % 8192 < 8192 := Nat.mod_lt _ (by decide)
          obtain ⟨hbits, hshape⟩ := setImap_bits hsb hmap hlt (clearBit_of_ne map _)
          refine ⟨hshape.trans (.of_eq rfl), fun hall => absurd (hall inode rfl) hdev, ?_⟩
          rintro _ ⟨⟩ _
          refine ⟨⟨sb, hsb, by omega, by omega⟩, ?_⟩
          rw [bitAt_congr (superBlock_setInode _ _ _), hbits]
          simp only [Number.bit, Bitmap.bit_clearBit, decide_true, Bool.not_true, Bool.false_and]
          rw [Nat.mod_add_div']

theorem newInode_bits {k : Kernel} (hzero : BitZero k.fs) (current : Task) (dev : Nat)
    : Ensures (newInode current dev) k
        (fun r k' => SameShape k.fs k'.fs ∧ (r = none → k'.fs.bitAt = k.fs.bitAt)
          ∧ ∀ i, r = some i → Takes k.fs k'.fs (.inode (k'.fs.inode i).iDev (k'.fs.inode i).iNum))
        fun _ => True := by
  unfold newInode
  apply Ensures.bind
  apply (getEmptyInode_ensures (fun _ _ => trivial) k).imp
  intro inode k₁ hemptied
  have hself : k₁.fs.inode inode = { MInode.zero with iCount := 1 } := by simp [hemptied.inode]
  have hgive : Ensures (liftCall (iput (some inode)) >>= fun _ => (return none : Sys (Option Slot))) k₁
      (fun r k' => SameShape k.fs k'.fs ∧ (r = none → k'.fs.bitAt = k.fs.bitAt)
        ∧ ∀ i, r = some i → Takes k.fs k'.fs (.inode (k'.fs.inode i).iDev (k'.fs.inode i).iNum))
      fun _ => True := by
    apply Ensures.bind
    apply liftCall_ensures
    apply Ensures.of_eq_ok (iput_no_device (by rw [hself]; simp) (by rw [hself]; rfl) (by rw [hself]; rfl))
    apply Ensures.pure
    exact ⟨.of_eq hemptied.superBlock, fun _ => bitAt_congr hemptied.superBlock, fun _ hi => by cases hi⟩
  apply Ensures.bind
  apply Ensures.get
  split
  . exact .stop trivial
  . next sb hget =>
    split
    . exact hgive
    . next i j hfirst =>
      split
      . exact hgive
      . next hrange =>
        split
        . exact .stop trivial
        . next map hmap =>
          apply Ensures.ite
          . intro _
            apply Ensures.bind
            exact .stop trivial
          intro _
          apply Ensures.bind
          apply liftCall_ensures
          apply Ensures.modify
          apply Ensures.bind
          apply liftCall_ensures
          apply Ensures.modify
          apply Ensures.pure
          have hsb := getSuper_eq hget
          have hsb₀ : k.fs.superBlock dev = some sb := hemptied.superBlock ▸ hsb
          obtain ⟨_, hj, _⟩ := firstClear_spec hfirst
          obtain ⟨hbits, hshape⟩ := setImap_bits hsb hmap hj (setBit_of_ne map j)
          rw [bitAt_congr hemptied.superBlock] at hbits
          refine ⟨(SameShape.of_eq hemptied.superBlock).trans (hshape.trans (.of_eq rfl)), fun hr => absurd hr (by simp), ?_⟩
          rintro _ ⟨⟩
          simp only [inode_setInode, Function.update_self]
          have hpos : 0 < j + i * 8192 := @firstClear_pos Slot k.fs dev i j sb .imap hzero hsb₀ hfirst
          refine ⟨⟨sb, hsb₀, hpos, by omega⟩, @bitAt_firstClear Slot k.fs dev i j sb .imap hsb₀ hfirst, ?_⟩
          rw [bitAt_congr (superBlock_setInode _ _ _), hbits]
          simp [Number.bit]

structure Effect (e : MapEvent) : Prop where
  shape : SameShape e.before.fs e.after.fs
  hands : ∀ x, e.hands = some x → Takes e.before.fs e.after.fs x
  frees : ∀ x, e.frees = some x → GivesBack e.before.fs e.after.fs x
  keeps : e.frees = none → ∀ b, e.before.fs.bitAt b = true → e.after.fs.bitAt b = true
  same : e.hands = none → e.frees = none → (∀ dev, e.call ≠ .newBlock dev) →
    e.after.fs.bitAt = e.before.fs.bitAt

theorem Takes.keeps {s s' : Fs ι} {x : Number} (h : Takes s s' x) (b : BitAt) (hb : s.bitAt b = true)
    : s'.bitAt b = true := by
  rw [h.bits, Function.update_apply]
  split
  . rfl
  . exact hb

theorem effect_newBlock {k k' : Kernel} {dev : Nat} {x : Option Number} (hzero : BitZero k.fs)
    (h : (MapCall.newBlock dev).run k = .ok (x, k'))
    : Effect ⟨k, .newBlock dev, x, k'⟩ := by
  obtain ⟨r, k₁, hlift, hpure⟩ := bind_eq_ok_iff.mp h
  rw [pure_eq_ok_iff] at hpure
  obtain ⟨rfl, rfl⟩ := hpure
  have hcall : Ensures (liftCall (Minix.newBlock dev)) k
      (fun r k' => SameShape k.fs k'.fs ∧ (∀ b, k.fs.bitAt b = true → k'.fs.bitAt b = true)
        ∧ (r ≠ 0 → Takes k.fs k'.fs (.zone dev r))) fun _ => True := by
    apply liftCall_ensures
    cases hrun : Minix.newBlock dev k.fs with
    | error e => exact .of_eq_error hrun trivial
    | ok p => exact .of_eq_ok hrun (newBlock_bits hzero hrun)
  obtain ⟨hshape, hkeeps, htakes⟩ := hcall.ok hlift
  refine ⟨hshape, ?_, (fun _ hx => by cases hx), fun _ => hkeeps, fun _ _ hne => absurd rfl (hne dev)⟩
  intro x hx
  dsimp only at hx
  split at hx
  . cases hx
  . next hr =>
    cases hx
    exact htakes hr

theorem effect_freeBlock {k k' : Kernel} {dev block : Nat} {x : Option Number}
    (h : (MapCall.freeBlock dev block).run k = .ok (x, k'))
    : Effect ⟨k, .freeBlock dev block, x, k'⟩ := by
  obtain ⟨u, k₁, hlift, hpure⟩ := bind_eq_ok_iff.mp h
  rw [pure_eq_ok_iff] at hpure
  obtain ⟨rfl, rfl⟩ := hpure
  have hcall : Ensures (liftCall (Minix.freeBlock dev block)) k
      (fun _ k' => SameShape k.fs k'.fs ∧ (k.fs.count dev block ≠ 0 → k'.fs.bitAt = k.fs.bitAt)
        ∧ (k.fs.count dev block = 0 → GivesBack k.fs k'.fs (.zone dev block))) fun _ => True := by
    apply liftCall_ensures
    cases hrun : Minix.freeBlock dev block k.fs with
    | error e => exact .of_eq_error hrun trivial
    | ok p => exact .of_eq_ok hrun (freeBlock_bits hrun)
  obtain ⟨hshape, hbusy, hidle⟩ := hcall.ok hlift
  have hdeclined : MapEvent.frees ⟨k, .freeBlock dev block, none, k₁⟩ = none → k.fs.count dev block ≠ 0 := by
    intro hnone hcount
    simp [MapEvent.frees, hcount] at hnone
  refine ⟨hshape, (fun _ hx => by cases hx), ?_, ?_, fun _ hnone _ => hbusy (hdeclined hnone)⟩
  . intro x hx
    simp only [MapEvent.frees, Option.ite_none_right_eq_some, Option.some.injEq] at hx
    obtain ⟨hcount, rfl⟩ := hx
    exact hidle hcount
  . intro hnone b hb
    rw [← hb, hbusy (hdeclined hnone)]

theorem effect_newInode {k k' : Kernel} {current : Task} {dev : Nat} {x : Option Number} (hzero : BitZero k.fs)
    (h : (MapCall.newInode current dev).run k = .ok (x, k'))
    : Effect ⟨k, .newInode current dev, x, k'⟩ := by
  obtain ⟨r, k₁, hcall, hrest⟩ := bind_eq_ok_iff.mp h
  obtain ⟨hshape, hnone, hsome⟩ := (newInode_bits hzero current dev).ok hcall
  cases r with
  | none =>
    rw [pure_eq_ok_iff] at hrest
    obtain ⟨rfl, rfl⟩ := hrest
    refine ⟨hshape, (fun _ hx => by cases hx), (fun _ hx => by cases hx), ?_, fun _ _ _ => hnone rfl⟩
    intro _ b hb
    rw [← hb]
    exact congrFun (hnone rfl) b
  | some i =>
    dsimp only at hrest
    rw [bind_of_eq_ok get_eq, pure_eq_ok_iff] at hrest
    obtain ⟨rfl, rfl⟩ := hrest
    have htakes := hsome i rfl
    refine ⟨hshape, ?_, (fun _ hx => by cases hx), fun _ => htakes.keeps, fun hx => by cases hx⟩
    rintro _ ⟨⟩
    exact htakes

theorem effect_freeInode {k k' : Kernel} {inode : Option Slot} {x : Option Number}
    (h : (MapCall.freeInode inode).run k = .ok (x, k'))
    : Effect ⟨k, .freeInode inode, x, k'⟩ := by
  obtain ⟨u, k₁, hlift, hpure⟩ := bind_eq_ok_iff.mp h
  rw [pure_eq_ok_iff] at hpure
  obtain ⟨rfl, rfl⟩ := hpure
  have hcall : Ensures (liftCall (Minix.freeInode inode)) k
      (fun _ k' => SameShape k.fs k'.fs
        ∧ ((∀ i, inode = some i → (k.fs.inode i).iDev = 0) → k'.fs.bitAt = k.fs.bitAt)
        ∧ ∀ i, inode = some i → (k.fs.inode i).iDev ≠ 0 →
          GivesBack k.fs k'.fs (.inode (k.fs.inode i).iDev (k.fs.inode i).iNum)) fun _ => True :=
    liftCall_ensures (freeInode_bits k.fs inode)
  obtain ⟨hshape, hsame, hfreed⟩ := hcall.ok hlift
  have hnothing : MapEvent.frees ⟨k, .freeInode inode, none, k₁⟩ = none → k₁.fs.bitAt = k.fs.bitAt := by
    intro hnone
    apply hsame
    rintro i rfl
    by_contra hdev
    simp [MapEvent.frees, hdev] at hnone
  refine ⟨hshape, (fun _ hx => by cases hx), ?_, ?_, fun _ hnone _ => hnothing hnone⟩
  . intro x hx
    cases inode with
    | none => cases hx
    | some i =>
      simp only [MapEvent.frees, Option.ite_none_left_eq_some, Option.some.injEq] at hx
      obtain ⟨hdev, rfl⟩ := hx
      exact hfreed i rfl hdev
  . intro hnone b hb
    rw [← hb, hnothing hnone]

theorem effect_of_run {k k' : Kernel} {call : MapCall} {x : Option Number} (hzero : BitZero k.fs)
    (h : call.run k = .ok (x, k'))
    : Effect ⟨k, call, x, k'⟩ := by
  cases call with
  | newBlock dev => exact effect_newBlock hzero h
  | freeBlock dev block => exact effect_freeBlock h
  | newInode current dev => exact effect_newInode hzero h
  | freeInode inode => exact effect_freeInode h

end Calls

section Runs

structure Proper (init : Fs Slot) (e : MapEvent) : Prop where
  valid : ∀ x, e.hands = some x → x.Valid init
  clear : ∀ x, e.hands = some x → e.before.fs.bitAt (x.bit init) = false
  set : ∀ x, e.hands = some x → e.after.fs.bitAt = Function.update e.before.fs.bitAt (x.bit init) true
  cleared : ∀ x, e.frees = some x → e.after.fs.bitAt = Function.update e.before.fs.bitAt (x.bit init) false
  same : e.hands = none → e.frees = none → (∀ dev, e.call ≠ .newBlock dev) →
    e.after.fs.bitAt = e.before.fs.bitAt

theorem Effect.proper {init : Fs Slot} {e : MapEvent} (h : Effect e) (hshape : SameShape init e.before.fs)
    : Proper init e where
  valid := fun x hx => hshape.valid (h.hands x hx).valid
  clear := fun x hx => hshape.bit x ▸ (h.hands x hx).clear
  set := fun x hx => hshape.bit x ▸ (h.hands x hx).bits
  cleared := fun x hx => hshape.bit x ▸ (h.frees x hx).bits
  same := h.same

theorem SameShape.isSome {s s' : Fs Slot} (h : SameShape s s') {dev : Nat} (hs' : (s'.superBlock dev).isSome)
    : (s.superBlock dev).isSome := by
  rw [← Option.isSome_map, ← h dev, Option.isSome_map]
  exact hs'

theorem Number.Valid.bit_ne_zero {s : Fs Slot} {x : Number} (h : x.Valid s) : (x.bit s).n ≠ 0 := by
  cases x with
  | zone dev z =>
    obtain ⟨sb, hsb, hfirst, _⟩ := h
    simp only [Number.bit, hsb, Option.elim_some]
    omega
  | inode dev nr =>
    obtain ⟨_, _, hpos, _⟩ := h
    exact Nat.ne_of_gt hpos

theorem Effect.bitZero {e : MapEvent} (h : Effect e) (hzero : BitZero e.before.fs) : BitZero e.after.fs := by
  intro dev map hsome
  have hbit := hzero dev map (h.shape.isSome hsome)
  cases hfrees : e.frees with
  | none => exact h.keeps hfrees _ hbit
  | some x =>
    have hgives := h.frees x hfrees
    have hne : (⟨map, dev, 0⟩ : BitAt) ≠ x.bit e.before.fs := by
      intro heq
      exact hgives.valid.bit_ne_zero (by rw [← heq])
    rw [hgives.bits, Function.update_of_ne hne]
    exact hbit

structure Books (init : Fs Slot) (log : List MapEvent) (k : Kernel) : Prop where
  shape : SameShape init k.fs
  zero : BitZero k.fs
  out : ∀ x, Allotment.Out MapEvent.hands MapEvent.frees x log → x.Valid init ∧ k.fs.bitAt (x.bit init) = true
  once : Allotment.Once MapEvent.hands MapEvent.frees log
  proper : ∀ e ∈ log, Proper init e

theorem Books.call {init : Fs Slot} {log : List MapEvent} {e : MapEvent} (h : Books init log e.before)
    (heffect : Effect e)
    : Books init (e :: log) e.after := by
  have hproper := heffect.proper h.shape
  constructor
  . exact h.shape.trans heffect.shape
  . exact heffect.bitZero h.zero
  . rintro x (hhands | ⟨hfrees, hout⟩)
    . refine ⟨hproper.valid x hhands, ?_⟩
      rw [hproper.set x hhands, Function.update_self]
    . obtain ⟨hvalid, hbit⟩ := h.out x hout
      refine ⟨hvalid, ?_⟩
      cases hy : e.frees with
      | none => exact heffect.keeps hy _ hbit
      | some y =>
        have hyvalid := h.shape.valid (heffect.frees y hy).valid
        have hne : x.bit init ≠ y.bit init := by
          intro heq
          exact hfrees (by rw [hy, Number.bit_injective hvalid hyvalid heq])
        rw [hproper.cleared y hy, Function.update_of_ne hne]
        exact hbit
  . apply h.once.cons
    intro x hhands hout
    have hclear := hproper.clear x hhands
    rw [(h.out x hout).right] at hclear
    cases hclear
  . intro f hf
    obtain rfl | hf := List.mem_cons.mp hf
    . exact hproper
    . exact h.proper f hf

theorem History.books {init k : Kernel} {log : List MapEvent} (hzero : BitZero init.fs) (h : History init log k)
    : Books init.fs log k := by
  induction h with
  | nil => exact ⟨.of_eq rfl, hzero, fun _ hout => hout.elim, .nil, fun _ he => by cases he⟩
  | call _ hrun ih => exact ih.call (effect_of_run ih.zero hrun)
  | other _ hsuper ih =>
    have hbits := bitAt_congr hsuper
    refine ⟨ih.shape.trans (.of_eq hsuper), ?_, ?_, ih.once, ih.proper⟩
    . intro dev map hsome
      rw [hbits]
      exact ih.zero dev map (by rwa [← hsuper])
    . intro x hout
      rw [hbits]
      exact ih.out x hout

def freshMap : Bitmap where
  bData := fun k => if k = 0 then 1 else 0
  bDirt := false

def freshKernel : Kernel where
  fs := {
    superBlock := fun dev =>
      if dev = 1 then
        some {
          sNinodes := 1
          sNzones := 6
          sImapBlocks := 1
          sZmapBlocks := 1
          sFirstdatazone := 5
          sImap := fun i => if i = 0 then some freshMap else none
          sZmap := fun i => if i = 0 then some freshMap else none
          sImount := none
        }
      else
        none
    cache := fun _ _ => none
    disk := fun _ _ => some fun _ => 0
    inode := fun _ => MInode.zero
    CURRENT_TIME := 0
    cleared := []
  }
  lastInode := 0
  sDev := [1]

theorem freshKernel_zero : BitZero freshKernel.fs := by
  intro dev map hsome
  have hdev : dev = 1 := by
    by_contra hdev
    simp [freshKernel, hdev] at hsome
  subst hdev
  cases map with
  | imap | zmap => decide +kernel

def freshFive : Fs Slot :=
  (freshKernel.fs.setZmap 1 0 (freshMap.setBit 1)).put 1 5 zeroed

theorem freshKernel_newBlock
    : History freshKernel
        [⟨freshKernel, .newBlock 1, some (.zone 1 5), { freshKernel with fs := freshFive }⟩]
        { freshKernel with fs := freshFive } := by
  have hnew : newBlock 1 freshKernel.fs = .ok (5, freshFive) :=
    @newBlock_eq Slot freshKernel.fs 1 0 1 5 _ freshMap rfl (by decide +kernel) rfl rfl (by decide) rfl
  apply History.call .nil
  unfold MapCall.run
  dsimp only
  rw [bind_of_eq_ok (show liftCall (newBlock 1) freshKernel = .ok (5, { freshKernel with fs := freshFive }) by
    simp only [liftCall, hnew])]
  rfl

def freedFive : Fs Slot :=
  freed freshFive 1 5 1 (freshMap.setBit 1)

def againFive : Fs Slot :=
  (freedFive.setZmap 1 0 (((freshMap.setBit 1).clearBit 1).setBit 1)).put 1 5 zeroed

theorem freshKernel_again
    : History freshKernel
        [⟨{ freshKernel with fs := freedFive }, .newBlock 1, some (.zone 1 5), { freshKernel with fs := againFive }⟩,
          ⟨{ freshKernel with fs := freshFive }, .freeBlock 1 5, none, { freshKernel with fs := freedFive }⟩,
          ⟨freshKernel, .newBlock 1, some (.zone 1 5), { freshKernel with fs := freshFive }⟩]
        { freshKernel with fs := againFive } := by
  have hfree : freeBlock 1 5 freshFive = .ok ((), freedFive) :=
    @freeBlock_eq Slot freshFive 1 5 _ (freshMap.setBit 1) rfl (by decide) rfl rfl (by decide +kernel)
  have hnew : newBlock 1 freedFive = .ok (5, againFive) :=
    @newBlock_eq Slot freedFive 1 0 1 5 _ ((freshMap.setBit 1).clearBit 1) rfl (by decide +kernel) rfl rfl
      (by decide) rfl
  refine .call (.call freshKernel_newBlock ?_) ?_
  . unfold MapCall.run
    dsimp only
    rw [bind_of_eq_ok (show liftCall (freeBlock 1 5) { freshKernel with fs := freshFive }
        = .ok ((), { freshKernel with fs := freedFive }) by simp only [liftCall, hfree])]
    rfl
  . unfold MapCall.run
    dsimp only
    rw [bind_of_eq_ok (show liftCall (newBlock 1) { freshKernel with fs := freedFive }
        = .ok (5, { freshKernel with fs := againFive }) by simp only [liftCall, hnew])]
    rfl

end Runs

end Minix
end OS
