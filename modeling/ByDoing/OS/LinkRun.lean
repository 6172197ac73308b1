import Mathlib.Data.List.Range
import ByDoing.OS.LinkCount

namespace OS
namespace Namei

open Directory (put dot dotDot)

namespace FileSystem

variable {s s' : FileSystem} {c : Context} {dir k x y : Nat} {name : FileName} {created : Bool}

theorem newInode_eq_some (h : s.newInode = some x) : x < s.inodes.length ∧ s.node x = none ∧ x ≠ 0 := by
  unfold newInode at h
  have hmem := List.mem_of_find?_eq_some h
  have hfree := List.find?_some h
  rw [List.mem_range'_1] at hmem
  refine ⟨by omega, ?_, by omega⟩
  simpa using hfree

theorem findEntry_eq_some (h : s.findEntry c dir name = some k)
    : s.kindAt dir = some .directory ∧ s.inodeAt dir k ≠ 0 := by
  unfold findEntry at h
  split at h
  . simp at h
  . next n hn =>
    split at h
    . next hkind =>
      refine ⟨?_, ?_⟩
      . rw [kindAt_of_node hn, hkind]
      . obtain ⟨hlt, hnamed, _⟩ := List.findIdx?_eq_some_iff_getElem.mp h
        rw [inodeAt_eq, hn]
        unfold entriesOf inodeOf
        dsimp only
        rw [List.getElem?_eq_getElem hlt]
        exact (DirEntry.isNamed_iff.mp hnamed).left
    . simp at h

theorem nlinks_of_permission {mask : Nat} (h : ¬ s.permission c x mask = false) : s.nlinks x ≠ 0 := by
  unfold permission at h
  unfold nlinks
  split at h
  . exact absurd rfl h
  . intro hzero
    apply h
    rw [hzero]
    rfl

theorem kindAt_of_not_isDir (hx : s.kindAt x ≠ none) (h : ¬ s.isDir x = true) : s.kindAt x = some .file := by
  have ⟨n, hn⟩ := exists_node hx
  unfold isDir at h
  rw [hn] at h
  rw [kindAt_of_node hn]
  simpa using h

theorem isDir_getDir {names : List FileName} (h : s.getDir c x names = some dir) : s.isDir dir = true := by
  induction names generalizing x with
  | nil =>
    unfold getDir at h
    split at h
    . next hok =>
      cases h
      exact (Bool.and_eq_true_iff.mp hok).left
    . simp at h
  | cons name names ih =>
    unfold getDir at h
    split at h
    . split at h
      . simp at h
      . exact ih h
    . simp at h

theorem isDir_dirNamei {path : Path} (h : s.dirNamei c path = some dir) : s.isDir dir = true := by
  unfold dirNamei at h
  split at h
  . simp at h
  . exact isDir_getDir h

theorem namei_eq_some {path : Path} (h : s.namei c path = some x) (hfile : ¬ s.isDir x = true)
    : ∃ d k, s.inodeAt d k = x ∧ x ≠ 0 := by
  unfold namei at h
  split at h
  . simp at h
  . next dir hdir =>
    split at h
    . cases h
      exact absurd (isDir_dirNamei hdir) hfile
    . split at h
      . simp at h
      . next k hk =>
        cases h
        exact ⟨dir, k, rfl, (findEntry_eq_some hk).right⟩

theorem emptyDir_eq_true (h : s.emptyDir x = true)
    : s.kindAt x = some .directory ∧ ∀ i, 2 ≤ i → s.inodeAt x i = 0 := by
  unfold emptyDir at h
  split at h
  . next nlinks de₀ de₁ rest hn =>
    simp only [Bool.and_eq_true, beq_iff_eq, List.all_eq_true] at h
    refine ⟨kindAt_of_node hn, ?_⟩
    intro i hi
    rw [inodeAt_eq, hn]
    unfold entriesOf inodeOf
    match i with
    | i + 2 =>
      dsimp only
      rw [List.getElem?_cons_succ, List.getElem?_cons_succ]
      split
      . rfl
      . next de hget => exact h.right de (List.mem_of_getElem? hget)
  . simp at h

theorem iput_of_nlinks_eq_zero (hx : s.kindAt x ≠ none) (hlinks : s.nlinks x = 0) (hholds : s.holds x = 0)
    : s.iput x = s.setNode x none := by
  have ⟨n, hn⟩ := exists_node hx
  rw [nlinks_eq, hn] at hlinks
  unfold iput
  rw [hn]
  exact if_pos ⟨hholds, hlinks⟩

theorem nlinks_iput_of_ne (hne : y ≠ x) : (s.iput x).nlinks y = s.nlinks y := by
  obtain heq | ⟨hx, _, heq⟩ := iput_cases s x
  . rw [heq]
  . have ⟨n, hn⟩ := exists_node hx
    rw [heq, nlinks_setNode (lt_of_node hn), if_neg hne]

theorem not_exact_iput {d k : Nat} (hx : s.kindAt x ≠ none) (hx0 : x ≠ 0) (hlinks : s.nlinks x = 0) (hne : d ≠ x)
    (hk : s.inodeAt d k = x)
    : ¬ (s.iput x).Exact := by
  intro hexact
  obtain heq | ⟨_, _, heq⟩ := iput_cases s x
  . rw [heq] at hexact
    have hzero := hexact.links x hx
    have hpos := refs_pos hx0 hk
    rw [hlinks, UInt8.toNat_zero] at hzero
    omega
  . have ⟨n, hn⟩ := exists_node hx
    have hlt := lt_of_node hn
    rw [heq] at hexact
    have hk' : (s.setNode x none).inodeAt d k = x := by
      rw [inodeAt_setNode hlt, if_neg hne]
      exact hk
    apply hexact.named d k
    . rw [hk']
      exact hx0
    . rw [hk', kindAt_setNode hlt, if_pos rfl]
      rfl

theorem Consistent.not_named (hs : s.Consistent) (hnone : s.node x = none) (hx0 : x ≠ 0) (d k : Nat)
    : s.inodeAt d k ≠ x := by
  intro heq
  apply hs.named d k
  . rw [heq]
    exact hx0
  . rw [heq]
    unfold kindAt
    rw [hnone]
    rfl

section Alloc

variable {n : Node} (hlt : x < s.inodes.length) (hnone : s.node x = none)
include hlt hnone

theorem refs_alloc (y : Nat) : (s.setNode x (some n)).refs y = s.refs y + countInode n.entries y := by
  have hrefs := refs_setNode (o := some n) hlt y
  rw [hnone] at hrefs
  exact hrefs

theorem inodeAt_alloc_of_nil (hentries : n.entries = []) : (s.setNode x (some n)).inodeAt = s.inodeAt := by
  funext d k
  rw [inodeAt_setNode hlt]
  split
  . next heq =>
    rw [heq, inodeAt_eq, hnone]
    unfold entriesOf
    dsimp only
    rw [hentries]
  . rfl

end Alloc

theorem Consistent.create {kind : NodeKind} (hs : s.Consistent) (hnew : s.newInode = some x) (hkind : kind ≠ .directory)
    (h : (s.setNode x (some { nlinks := 1, kind, entries := [] })).addEntry dir name x created = some s')
    : s'.Consistent := by
  obtain ⟨hlt, hnone, hx0⟩ := newInode_eq_some hnew
  obtain ⟨hdir, j, hfree, hputs⟩ := puts_of_addEntry h
  have hkindAt := kindAt_setNode (o := some { nlinks := 1, kind, entries := [] }) hlt
  have hnlinks := nlinks_setNode (o := some { nlinks := 1, kind, entries := [] }) hlt
  have hinodeAt := inodeAt_alloc_of_nil (n := { nlinks := 1, kind, entries := [] }) hlt hnone rfl
  have hrefs := refs_alloc (n := { nlinks := 1, kind, entries := [] }) hlt hnone
  generalize s.setNode x (some { nlinks := 1, kind, entries := [] }) = s₁ at *
  have hnot := hs.not_named hnone hx0
  have hx : s₁.kindAt x = some kind := by
    rw [hkindAt, if_pos rfl]
    rfl
  have hxkind : s₁.kindAt x ≠ some .directory := by
    rw [hx]
    simpa using hkind
  have htree : s₁.Tree := by
    apply hs.tree.congr
    . intro d
      rw [hkindAt]
      split
      . next heq =>
        subst heq
        unfold kindAt
        rw [hnone]
        simp [hkind]
      . rfl
    . intro d k
      rw [hinodeAt]
  have hnamed : ∀ d k, s₁.inodeAt d k ≠ 0 → s₁.kindAt (s₁.inodeAt d k) ≠ none := by
    intro d k hne
    rw [hinodeAt] at hne ⊢
    rw [hkindAt, if_neg (hnot d k)]
    exact hs.named d k hne
  have hzero : s₁.kindAt 0 = none := by
    rw [hkindAt, if_neg hx0.symm]
    exact hs.zero
  constructor
  case toExact =>
    constructor
    case links =>
      intro y hy
      rw [hputs.kindAt] at hy
      have hy0 : y ≠ 0 := by
        intro heq
        subst heq
        exact hy hzero
      rw [hputs.nlinks, hnlinks, hputs.refs_of_free hfree hy0, hrefs]
      split
      . next heq =>
        subst heq
        rw [refs_eq_zero hnot, if_pos rfl]
        rfl
      . next hne =>
        rw [hkindAt, if_neg hne] at hy
        rw [if_neg (Ne.symm hne), hs.links y hy]
        rfl
    case named =>
      apply hputs.named hnamed
      intro _
      rw [hx]
      exact Option.some_ne_none _
  case zero =>
    rw [hputs.kindAt]
    exact hzero
  case tree =>
    apply hputs.tree htree hdir _ hxkind
    rw [hfree, hzero]
    simp

theorem Consistent.unlink (hs : s.Consistent) (hk : s.inodeAt dir k ≠ 0) (hx : s.kindAt (s.inodeAt dir k) = some .file)
    : ((s.clearEntry dir k).setLinks (s.inodeAt dir k) (s.nlinks (s.inodeAt dir k) - 1)).Consistent := by
  have hputs := puts_clearEntry hk
  generalize s.clearEntry dir k = s₁ at *
  have hdir : s.kindAt dir = some .directory := hs.tree.isDir_of_ne_zero hk
  have halloc : s₁.kindAt (s.inodeAt dir k) ≠ none := by
    rw [hputs.kindAt, hx]
    simp
  constructor
  case toExact =>
    constructor
    case links =>
      intro y hy
      rw [kindAt_setLinks, hputs.kindAt] at hy
      have hrefs := hputs.refs_of_clear (hs.ne_zero hy)
      rw [nlinks_setLinks halloc, refs_setLinks, hputs.nlinks]
      have hlinks := hs.links y hy
      split
      . next heq =>
        subst heq
        rw [if_pos rfl] at hrefs
        have hle : 1 ≤ s.nlinks (s.inodeAt dir k) := by
          rw [UInt8.le_iff_toNat_le, hlinks]
          exact refs_pos hk rfl
        rw [UInt8.toNat_sub_of_le _ _ hle, hlinks]
        simp only [UInt8.toNat_one]
        omega
      . next hne =>
        rw [if_neg (Ne.symm hne)] at hrefs
        omega
    case named =>
      rw [kindAt_setLinks, inodeAt_setLinks]
      apply hputs.named hs.named
      intro hzero
      exact absurd rfl hzero
  case zero =>
    rw [kindAt_setLinks, hputs.kindAt]
    exact hs.zero
  case tree =>
    unfold Tree
    rw [kindAt_setLinks, inodeAt_setLinks]
    apply hputs.tree hs.tree hdir
    . rw [hx]
      simp
    . rw [hs.zero]
      simp

theorem toNat_succ {v : UInt8} (h : v ≠ 255) : (v + 1).toNat = v.toNat + 1 := by
  have hlt := UInt8.toNat_lt v
  have hne : v.toNat ≠ 255 := by
    intro heq
    apply h
    exact UInt8.toNat_inj.mp heq
  rw [UInt8.toNat_add, UInt8.toNat_one, Nat.mod_eq_of_lt (by omega)]

section Link

variable (hs : s.Consistent) (hx : s.kindAt x = some .file) (h : s.addEntry dir name x created = some s')
include hs hx h

theorem Consistent.link (hlinks : s.nlinks x ≠ 255) : (s'.setLinks x (s'.nlinks x + 1)).Consistent := by
  obtain ⟨hdir, j, hfree, hputs⟩ := puts_of_addEntry h
  have hx0 : s.kindAt x ≠ none := by
    rw [hx]
    simp
  have halloc : s'.kindAt x ≠ none := by
    rw [hputs.kindAt]
    exact hx0
  constructor
  case toExact =>
    constructor
    case links =>
      intro y hy
      rw [kindAt_setLinks, hputs.kindAt] at hy
      rw [nlinks_setLinks halloc, refs_setLinks, hputs.nlinks, hputs.refs_of_free hfree (hs.ne_zero hy)]
      split
      . next heq => rw [heq, toNat_succ hlinks, if_pos rfl, hs.links x hx0]
      . next hne =>
        rw [if_neg (Ne.symm hne)]
        exact hs.links y hy
    case named =>
      rw [kindAt_setLinks, inodeAt_setLinks]
      apply hputs.named hs.named
      intro _
      exact hx0
  case zero =>
    rw [kindAt_setLinks, hputs.kindAt]
    exact hs.zero
  case tree =>
    unfold Tree
    rw [kindAt_setLinks, inodeAt_setLinks]
    apply hputs.tree hs.tree hdir
    . rw [hfree, hs.zero]
      simp
    . rw [hx]
      simp

theorem not_exact_link (hlinks : s.nlinks x = 255) : ¬ ((s'.setLinks x (s'.nlinks x + 1)).iput x).Exact := by
  obtain ⟨hdir, j, hfree, hputs⟩ := puts_of_addEntry h
  have halloc : s'.kindAt x ≠ none := by
    rw [hputs.kindAt, hx]
    simp
  have hx0 : x ≠ 0 := by
    intro heq
    rw [heq, hs.zero] at hx
    simp at hx
  apply not_exact_iput (d := dir) (k := j)
  . rw [kindAt_setLinks]
    exact halloc
  . exact hx0
  . rw [nlinks_setLinks halloc, if_pos rfl, hputs.nlinks, hlinks]
    rfl
  . intro heq
    rw [heq, hx] at hdir
    simp at hdir
  . rw [inodeAt_setLinks, hputs.inodeAt]
    exact if_pos ⟨rfl, rfl⟩

end Link

section Mkdir

variable (hs : s.Consistent) (hnew : s.newInode = some x)
  (h : (s.setNode x (some { nlinks := 2, kind := .directory, entries := [.make x dot, .make dir dotDot] })).addEntry
    dir name x created = some s')
  (hdir : s.kindAt dir = some .directory)
include hs hnew h hdir

omit hs in
theorem mkdir_spec
    : x ≠ 0 ∧ x ≠ dir ∧ (∀ y, s'.kindAt y = if y = x then some .directory else s.kindAt y)
      ∧ (∀ y, s'.nlinks y = if y = x then 2 else s.nlinks y)
      ∧ (∃ j, s.inodeAt dir j = 0 ∧ s'.inodeAt = DirectoryTree.addDirectory s.inodeAt dir j x)
      ∧ ∀ y, y ≠ 0 → s'.refs y = s.refs y + 2 * (if x = y then 1 else 0) + (if dir = y then 1 else 0) := by
  obtain ⟨hlt, hnone, hx0⟩ := newInode_eq_some hnew
  have hne : x ≠ dir := by
    intro heq
    have ⟨n, hn⟩ := exists_node (s := s) (x := dir) (by simp [hdir])
    rw [← heq, hnone] at hn
    simp at hn
  obtain ⟨_, j, hfree, hputs⟩ := puts_of_addEntry h
  rw [inodeAt_setNode hlt, if_neg hne.symm] at hfree
  refine ⟨hx0, hne, ?_, ?_, ⟨j, hfree, ?_⟩, ?_⟩
  . intro y
    rw [hputs.kindAt, kindAt_setNode hlt]
    rfl
  . intro y
    rw [hputs.nlinks, nlinks_setNode hlt]
    rfl
  . rw [hputs.inodeAt]
    funext d k
    unfold DirectoryTree.addDirectory DirectoryTree.setEntry
    rw [inodeAt_setNode hlt]
    by_cases hd : d = x
    . rw [if_neg (fun hpos => hne (hd.symm.trans hpos.left)), if_pos hd, if_pos hd]
      unfold entriesOf inodeOf
      match k with
      | 0 => rfl
      | 1 => rfl
      | k + 2 => rfl
    . rw [if_neg hd, if_neg hd]
  . intro y hy
    have hrefs := refs_alloc (n := { nlinks := 2, kind := .directory, entries := [.make x dot, .make dir dotDot] })
      hlt hnone y
    rw [hputs.refs_of_free _ hy, hrefs]
    . unfold countInode
      rw [List.countP_cons, List.countP_cons, List.countP_nil]
      simp only [beq_iff_eq, DirEntry.make]
      omega
    . rw [inodeAt_setNode hlt, if_neg hne.symm]
      exact hfree

theorem Consistent.mkdir (hlinks : s.nlinks dir ≠ 255) : (s'.setLinks dir (s'.nlinks dir + 1)).Consistent := by
  obtain ⟨hx0, hne, hkindAt, hnlinks, ⟨j, hfree, hinodeAt⟩, hrefs⟩ := mkdir_spec hnew h hdir
  have hnone : s.kindAt x = none := by
    unfold kindAt
    rw [(newInode_eq_some hnew).right.left]
    rfl
  have hnot := hs.not_named (newInode_eq_some hnew).right.left hx0
  have hdir0 : dir ≠ 0 := by
    apply hs.ne_zero
    rw [hdir]
    simp
  have halloc : s'.kindAt dir ≠ none := by
    rw [hkindAt, if_neg hne.symm, hdir]
    simp
  constructor
  case toExact =>
    constructor
    case links =>
      intro y hy
      rw [kindAt_setLinks, hkindAt] at hy
      rw [nlinks_setLinks halloc, refs_setLinks]
      by_cases hyx : y = x
      . rw [if_neg (hyx.trans_ne hne), hnlinks, if_pos hyx, hyx, hrefs x hx0, refs_eq_zero hnot, if_pos rfl,
          if_neg hne.symm]
        rfl
      . rw [if_neg hyx] at hy
        rw [hrefs y (hs.ne_zero hy), if_neg (Ne.symm hyx), hnlinks dir, if_neg hne.symm, hnlinks y, if_neg hyx]
        have hold := hs.links y hy
        split
        . next heq =>
          subst heq
          rw [toNat_succ hlinks, if_pos rfl]
          omega
        . next hyd =>
          rw [if_neg (Ne.symm hyd)]
          omega
    case named =>
      intro d k hk
      rw [kindAt_setLinks, inodeAt_setLinks, hkindAt]
      rw [inodeAt_setLinks, hinodeAt] at hk
      rw [hinodeAt]
      split
      . simp
      . next hnx =>
        unfold DirectoryTree.addDirectory DirectoryTree.setEntry at hk hnx ⊢
        by_cases hdx : d = x
        . rw [if_pos hdx] at hk hnx ⊢
          match k with
          | 0 => exact absurd rfl hnx
          | 1 =>
            intro hdirnone
            rw [List.getD_cons_succ, List.getD_cons_zero, hdir] at hdirnone
            simp at hdirnone
          | k + 2 => exact absurd rfl hk
        . rw [if_neg hdx] at hk hnx ⊢
          split
          . next hpos =>
            rw [if_pos hpos] at hnx
            exact absurd rfl hnx
          . next hpos =>
            rw [if_neg hpos] at hk
            exact hs.named d k hk
  case zero =>
    rw [kindAt_setLinks, hkindAt, if_neg hx0.symm]
    exact hs.zero
  case tree =>
    unfold Tree
    rw [kindAt_setLinks, inodeAt_setLinks, hinodeAt]
    have hadd := hs.tree.mkdir (j := j) (x := x) hdir (by simp [hfree, hs.zero]) (by simp [hnone]) hx0 hnot
    apply hadd.congr
    . intro d
      rw [hkindAt]
      split
      . next heq => simp [heq]
      . next hd => simp [hd]
    . intro _ _
      rfl

theorem not_exact_mkdir (hlinks : s.nlinks dir = 255)
    : ¬ (((s'.setLinks dir (s'.nlinks dir + 1)).iput dir).iput x).Exact := by
  obtain ⟨hx0, hne, hkindAt, hnlinks, ⟨j, hfree, hinodeAt⟩, hrefs⟩ := mkdir_spec hnew h hdir
  have hdir0 : dir ≠ 0 := by
    apply hs.ne_zero
    rw [hdir]
    simp
  have halloc : s'.kindAt dir ≠ none := by
    rw [hkindAt, if_neg hne.symm, hdir]
    simp
  rw [iput_of_nlinks_ne_zero (x := x)]
  . apply not_exact_iput (d := x) (k := 1)
    . rw [kindAt_setLinks]
      exact halloc
    . exact hdir0
    . rw [nlinks_setLinks halloc, if_pos rfl, hnlinks, if_neg hne.symm, hlinks]
      rfl
    . exact hne
    . rw [inodeAt_setLinks, hinodeAt]
      unfold DirectoryTree.addDirectory
      rw [if_pos rfl]
      rfl
  . rw [nlinks_iput_of_ne hne, nlinks_setLinks halloc, if_neg hne, hnlinks, if_pos rfl]
    decide

end Mkdir

section Rmdir

variable (hs : s.Consistent) (hk : s.inodeAt dir k = x) (hx0 : x ≠ 0) (hne : x ≠ dir) (hempty : s.emptyDir x = true)
include hs hk hx0 hne hempty

theorem rmdir_spec {s₃ : FileSystem}
    (heq : s₃ = ((s.clearEntry dir k).setLinks x 0).setLinks dir (((s.clearEntry dir k).setLinks x 0).nlinks dir - 1))
    : s₃.holds = s.holds ∧ s₃.kindAt = s.kindAt
      ∧ (∀ y, s₃.nlinks y = if y = dir then s.nlinks dir - 1 else if y = x then 0 else s.nlinks y)
      ∧ (∀ d i, (s₃.setNode x none).inodeAt d i = DirectoryTree.removeDirectory s.inodeAt dir k x d i)
      ∧ ∀ y, y ≠ 0 → (s₃.setNode x none).refs y + 2 * (if x = y then 1 else 0) + (if dir = y then 1 else 0) = s.refs y := by
  have hputs := puts_clearEntry (hk.trans_ne hx0)
  generalize s.clearEntry dir k = s₁ at *
  obtain ⟨hkind, hrest⟩ := emptyDir_eq_true hempty
  have hproper := hs.tree.proper_of_empty hk hkind hne hrest
  have hdotDot := hs.tree.dotDot_of_proper hk hkind hproper
  have hdir : s.kindAt dir = some .directory := hs.tree.isDir_of_ne_zero (hk.trans_ne hx0)
  have hxalloc : s₁.kindAt x ≠ none := by
    rw [hputs.kindAt, hkind]
    simp
  have hdiralloc : (s₁.setLinks x 0).kindAt dir ≠ none := by
    rw [kindAt_setLinks, hputs.kindAt, hdir]
    simp
  have hkindAt : s₃.kindAt = s.kindAt := by
    rw [heq, kindAt_setLinks, kindAt_setLinks]
    exact hputs.kindAt
  have hinodeAt : s₃.inodeAt = DirectoryTree.setEntry s.inodeAt dir k 0 := by
    rw [heq, inodeAt_setLinks, inodeAt_setLinks]
    exact hputs.inodeAt
  have hxentries : ∀ i, s₃.inodeAt x i = s.inodeAt x i := by
    intro i
    rw [hinodeAt]
    exact if_neg fun hpos => hne hpos.left
  have hlt : x < s₃.inodes.length := by
    have ⟨n, hn⟩ := exists_node (s := s₃) (x := x) (by simp [hkindAt, hkind])
    exact lt_of_node hn
  refine ⟨?_, hkindAt, ?_, ?_, ?_⟩
  . rw [heq, holds_setLinks, holds_setLinks]
    exact hputs.holds
  . intro y
    rw [heq, nlinks_setLinks hdiralloc, nlinks_setLinks hxalloc, nlinks_setLinks hxalloc, hputs.nlinks,
      if_neg hne.symm]
  . intro d i
    rw [inodeAt_setNode hlt, hinodeAt]
    rfl
  . intro y hy
    have hset := refs_setNode (o := none) hlt y
    have hclear := hputs.refs_of_clear hy
    have hrefs : s₃.refs = s₁.refs := by
      rw [heq, refs_setLinks, refs_setLinks]
    have hnone : countInode (entriesOf none) y = 0 := rfl
    have hcount : countInode (entriesOf (s₃.node x)) y = (if x = y then 1 else 0) + (if dir = y then 1 else 0) := by
      rw [countInode_of_empty hy, ← inodeAt_eq, ← inodeAt_eq, hxentries, hxentries, hdotDot, hs.tree.dot x hkind]
      intro i hi
      rw [← inodeAt_eq, hxentries]
      exact hrest i hi
    rw [hk] at hclear
    rw [hrefs] at hset
    omega

theorem Consistent.rmdir (hholds : s.holds x = 0)
    : ((((s.clearEntry dir k).setLinks x 0).setLinks dir (((s.clearEntry dir k).setLinks x 0).nlinks dir - 1)).iput
        dir).iput x |>.Consistent := by
  generalize heq : ((s.clearEntry dir k).setLinks x 0).setLinks dir
    (((s.clearEntry dir k).setLinks x 0).nlinks dir - 1) = s₃
  obtain ⟨hholds₃, hkindAt, hnlinks, hinodeAt, hrefs⟩ := rmdir_spec hs hk hx0 hne hempty heq.symm
  obtain ⟨hkind, hrest⟩ := emptyDir_eq_true hempty
  have hproper := hs.tree.proper_of_empty hk hkind hne hrest
  have hdir : s.kindAt dir = some .directory := hs.tree.isDir_of_ne_zero (hk.trans_ne hx0)
  have hdir0 : dir ≠ 0 := hs.tree.ne_zero hdir
  have htwo : 2 ≤ (s.nlinks dir).toNat := by
    have hdot : (s₃.setNode x none).inodeAt dir 0 = dir := by
      rw [hinodeAt]
      unfold DirectoryTree.removeDirectory
      rw [if_neg hne.symm, DirectoryTree.setEntry_of_lt _ _ _ _ hproper (by omega)]
      exact hs.tree.dot dir hdir
    have hpos := refs_pos hdir0 hdot
    have hsum := hrefs dir hdir0
    rw [if_pos rfl] at hsum
    rw [hs.links dir (by simp [hdir])]
    omega
  have hsub : (s.nlinks dir - 1).toNat = (s.nlinks dir).toNat - 1 := by
    rw [UInt8.toNat_sub_of_le _ _ (UInt8.le_iff_toNat_le.mpr (by simp only [UInt8.toNat_one]; omega))]
    rfl
  have hdirput : s₃.iput dir = s₃ := by
    apply iput_of_nlinks_ne_zero
    rw [hnlinks, if_pos rfl]
    intro hzero
    rw [hzero, UInt8.toNat_zero] at hsub
    omega
  have hxput : s₃.iput x = s₃.setNode x none := by
    apply iput_of_nlinks_eq_zero
    . rw [hkindAt, hkind]
      simp
    . rw [hnlinks, if_neg hne, if_pos rfl]
    . rw [hholds₃]
      exact hholds
  have hlt : x < s₃.inodes.length := by
    have ⟨n, hn⟩ := exists_node (s := s₃) (x := x) (by simp [hkindAt, hkind])
    exact lt_of_node hn
  rw [hdirput, hxput]
  constructor
  case toExact =>
    constructor
    case links =>
      intro y hy
      rw [kindAt_setNode hlt, hkindAt] at hy
      split at hy
      . exact absurd rfl hy
      . next hyx =>
        have hsum := hrefs y (hs.ne_zero hy)
        have hold := hs.links y hy
        rw [nlinks_setNode hlt, if_neg hyx, hnlinks, if_neg hyx]
        rw [if_neg (Ne.symm hyx)] at hsum
        split
        . next hyd =>
          subst hyd
          rw [if_pos rfl] at hsum
          omega
        . next hyd =>
          rw [if_neg (Ne.symm hyd)] at hsum
          omega
    case named =>
      intro d i hi
      have hnx := hs.tree.removeDirectory_ne hk hkind hproper hrest d i
      rw [hinodeAt] at hi ⊢
      rw [kindAt_setNode hlt, if_neg hnx, hkindAt]
      unfold DirectoryTree.removeDirectory DirectoryTree.setEntry at hi ⊢
      split at hi
      . exact absurd rfl hi
      . next hdx =>
        split at hi
        . exact absurd rfl hi
        . next hpos =>
          rw [if_neg hdx, if_neg hpos]
          exact hs.named d i hi
  case zero =>
    rw [kindAt_setNode hlt, if_neg hx0.symm, hkindAt]
    exact hs.zero
  case tree =>
    apply (hs.tree.rmdir hk hproper hrest).congr _ hinodeAt
    intro d
    rw [kindAt_setNode hlt, hkindAt]
    split
    . next hdx => simp [hdx]
    . next hdx => simp [hdx]

end Rmdir

/--
A call that raises a count finds it below 255: the call of `sys_link` that enters a new name for `x`, and the call of
`sys_mkdir` that makes a directory in `dir`.
-/
def Fits (s : FileSystem) : Act → Prop
  | .sysLink c c' oldname newname created =>
    ∀ x dir name, s.namei c oldname = some x → s.isDir x = false → s.dirNamei c' newname = some dir →
      newname.base = some name → s.permission c' dir MAY_WRITE = true → s.findEntry c' dir name = none →
      (s.addEntry dir name x created).isSome → s.nlinks x ≠ 255
  | .sysMkdir c path newBlock bread _ =>
    ∀ dir name, c.suser = true → s.dirNamei c path = some dir → path.base = some name →
      s.permission c dir MAY_WRITE = true → s.findEntry c dir name = none → s.newInode.isSome → newBlock = true →
      bread = true → s.nlinks dir ≠ 255
  | _ => True

section Calls

variable {path : Path}

theorem Consistent.hold (hs : s.Consistent) (x : Nat) : (s.hold x).Consistent := by
  apply hs.setHolds

theorem Consistent.release (hs : s.Consistent) (x : Nat) : (s.release x).Consistent := by
  apply Consistent.iput
  apply hs.setHolds

theorem Consistent.keep (hs : s.Consistent) (c : Context) (path : Path) : (s.keep c path).2.Consistent := by
  unfold FileSystem.keep
  split
  . exact hs
  . exact hs.hold _

theorem Consistent.openNamei (hs : s.Consistent) (c : Context) (path : Path) (flag : Nat) (created : Bool)
    : (s.openNamei c path flag created).2.Consistent := by
  unfold FileSystem.openNamei
  dsimp only
  generalize (if flag &&& O_TRUNC ≠ 0 ∧ flag &&& O_ACCMODE = 0 then flag ||| O_WRONLY else flag) = flag
  split
  . exact hs
  . next dir _ =>
    split
    . split
      . exact hs.hold _
      . exact hs.iput _
    . split
      -- The name is new.
      . split
        . exact hs.iput _
        . split
          . exact hs.iput _
          . split
            . exact hs.iput _
            . next x hnew =>
              split
              . exact hs.iput _
              . next s' hadd =>
                have hs' := hs.create hnew (by simp) hadd
                exact (hs'.iput dir).hold x
      . have hs' := hs.iput dir
        split
        . exact hs'
        . split
          . exact hs'.iput _
          . exact hs'.hold _

theorem Consistent.sysMknod (hs : s.Consistent) (c : Context) (path : Path) (kind : NodeKind) (created : Bool)
    : (s.sysMknod c path kind created).2.Consistent := by
  unfold FileSystem.sysMknod
  split
  . exact hs
  . split
    . exact hs
    . next dir _ =>
      split
      . exact hs.iput _
      . split
        . exact hs.iput _
        . split
          . exact hs.iput _
          . split
            . exact hs.iput _
            . next x hnew =>
              dsimp only
              split
              . exact hs.iput _
              . next s' hadd =>
                have hkind : (if kind = .file then NodeKind.file else .bareDirectory) ≠ .directory := by
                  split <;> simp
                have hs' := hs.create hnew hkind hadd
                exact (hs'.iput dir).iput x

theorem Consistent.sysRmdir (hs : s.Consistent) (c : Context) (path : Path) : (s.sysRmdir c path).2.Consistent := by
  unfold FileSystem.sysRmdir
  split
  . exact hs
  . split
    . exact hs
    . next dir _ =>
      split
      . exact hs.iput _
      . split
        . exact hs.iput _
        . split
          . exact hs.iput _
          . next k hfind =>
            dsimp only
            split
            . exact (hs.iput _).iput _
            . split
              . exact (hs.iput _).iput _
              . next hcount =>
                split
                . exact (hs.iput _).iput _
                . split
                  . exact (hs.iput _).iput _
                  . next hempty =>
                    apply hs.rmdir rfl (findEntry_eq_some hfind).right
                    . intro heq
                      exact hcount (.inr heq)
                    . simpa using hempty
                    . apply Classical.byContradiction
                      intro hholds
                      exact hcount (.inl hholds)

theorem Consistent.sysUnlink (hs : s.Consistent) (c : Context) (path : Path) : (s.sysUnlink c path).2.Consistent := by
  unfold FileSystem.sysUnlink
  split
  . exact hs
  . next dir _ =>
    split
    . exact hs.iput _
    . split
      . exact hs.iput _
      . split
        . exact hs.iput _
        . next k hfind =>
          dsimp only
          split
          . exact (hs.iput _).iput _
          . split
            . exact (hs.iput _).iput _
            . next hfile =>
              have hne := (findEntry_eq_some hfind).right
              have halloc := hs.named dir k hne
              have hlinks : s.nlinks (s.inodeAt dir k) ≠ 0 := by
                intro hzero
                have hrefs := hs.links _ halloc
                have hpos := refs_pos hne rfl
                rw [hzero, UInt8.toNat_zero] at hrefs
                omega
              rw [if_neg hlinks]
              have hs' := hs.unlink hne (kindAt_of_not_isDir halloc hfile)
              exact (hs'.iput _).iput dir

theorem sysLink_cases (hs : s.Consistent) (c c' : Context) (oldname newname : Path) (created : Bool)
    : ((s.sysLink c c' oldname newname created).2.Consistent ∧ s.Fits (.sysLink c c' oldname newname created))
      ∨ ∃ x dir name s', s.kindAt x = some .file ∧ s.addEntry dir name x created = some s'
        ∧ (s.sysLink c c' oldname newname created).2 = (s'.setLinks x (s'.nlinks x + 1)).iput x
        ∧ (s.Fits (.sysLink c c' oldname newname created) ↔ s.nlinks x ≠ 255) := by
  unfold Fits FileSystem.sysLink
  dsimp only
  split
  . exact .inl ⟨hs, by grind⟩
  . next x hx =>
    split
    . exact .inl ⟨hs.iput x, by grind⟩
    . next hisDir =>
      split
      . exact .inl ⟨hs.iput x, by grind⟩
      . next dir hdir =>
        split
        . exact .inl ⟨(hs.iput x).iput dir, by grind⟩
        . next name hbase =>
          split
          . exact .inl ⟨(hs.iput dir).iput x, by grind⟩
          . next hperm =>
            split
            . exact .inl ⟨(hs.iput dir).iput x, by grind⟩
            . next hfind =>
              split
              . exact .inl ⟨(hs.iput dir).iput x, by grind⟩
              . next s' hadd =>
                obtain ⟨d, k, hnamed, hx0⟩ := namei_eq_some hx hisDir
                have halloc : s.kindAt x ≠ none := by
                  rw [← hnamed] at hx0 ⊢
                  exact hs.named d k hx0
                have hput : s'.iput dir = s' := by
                  apply iput_of_nlinks_ne_zero
                  obtain ⟨_, _, _, hputs⟩ := puts_of_addEntry hadd
                  rw [hputs.nlinks]
                  exact nlinks_of_permission hperm
                refine .inr ⟨x, dir, name, s', kindAt_of_not_isDir halloc hisDir, hadd, ?_, ?_⟩
                . rw [hput]
                . grind

theorem Consistent.sysLink (hs : s.Consistent) (c c' : Context) (oldname newname : Path) (created : Bool)
    : (s.Fits (.sysLink c c' oldname newname created) → (s.sysLink c c' oldname newname created).2.Consistent)
      ∧ ((s.sysLink c c' oldname newname created).2.Exact → s.Fits (.sysLink c c' oldname newname created)) := by
  obtain ⟨hs', hfits⟩ | ⟨x, dir, name, s', hfile, hadd, heq, hiff⟩ := sysLink_cases hs c c' oldname newname created
  . exact ⟨fun _ => hs', fun _ => hfits⟩
  . rw [heq, hiff]
    refine ⟨?_, ?_⟩
    . intro hlinks
      exact (hs.link hfile hadd hlinks).iput x
    . intro hexact hlinks
      exact not_exact_link hs hfile hadd hlinks hexact

theorem sysMkdir_cases (hs : s.Consistent) {newBlock bread : Bool} {r : Int}
    (h : s.sysMkdir c path newBlock bread created = some (r, s'))
    : (s'.Consistent ∧ s.Fits (.sysMkdir c path newBlock bread created))
      ∨ ∃ x dir name s₁, s.newInode = some x
        ∧ (s.setNode x (some { nlinks := 2, kind := .directory, entries := [.make x dot, .make dir dotDot] })).addEntry
          dir name x created = some s₁
        ∧ s' = ((s₁.setLinks dir (s₁.nlinks dir + 1)).iput dir).iput x
        ∧ s.nlinks dir ≠ 0
        ∧ (s.Fits (.sysMkdir c path newBlock bread created) ↔ s.nlinks dir ≠ 255) := by
  unfold FileSystem.sysMkdir at h
  unfold Fits
  dsimp only
  split at h
  . cases h
    exact .inl ⟨hs, by grind⟩
  . next hsuser =>
    split at h
    . cases h
      exact .inl ⟨hs, by grind⟩
    . next dir hdir =>
      split at h
      . cases h
        exact .inl ⟨hs.iput dir, by grind⟩
      . next name hbase =>
        split at h
        . cases h
          exact .inl ⟨hs.iput dir, by grind⟩
        . next hperm =>
          split at h
          . cases h
            exact .inl ⟨hs.iput dir, by grind⟩
          . next hfind =>
            split at h
            . cases h
              exact .inl ⟨hs.iput dir, by grind⟩
            . next x hnew =>
              split at h
              . cases h
                exact .inl ⟨hs.iput dir, by grind⟩
              . split at h
                . cases h
                  exact .inl ⟨hs.iput dir, by grind⟩
                . dsimp only at h
                  split at h
                  . simp at h
                  . next s₁ hadd =>
                    cases h
                    refine .inr ⟨x, dir, name, s₁, hnew, hadd, rfl, nlinks_of_permission hperm, ?_⟩
                    grind

theorem Consistent.sysMkdir (hs : s.Consistent) {newBlock bread : Bool} {r : Int}
    (h : s.sysMkdir c path newBlock bread created = some (r, s'))
    : (s.Fits (.sysMkdir c path newBlock bread created) → s'.Consistent)
      ∧ (s'.Exact → s.Fits (.sysMkdir c path newBlock bread created)) := by
  obtain ⟨hs', hfits⟩ | ⟨x, dir, name, s₁, hnew, hadd, heq, hperm, hiff⟩ := sysMkdir_cases hs h
  . exact ⟨fun _ => hs', fun _ => hfits⟩
  . have hdir : s.kindAt dir = some .directory := by
      obtain ⟨hlt, hnone, _⟩ := newInode_eq_some hnew
      have hkind := (puts_of_addEntry hadd).left
      rw [kindAt_setNode hlt] at hkind
      split at hkind
      -- The new inode is not the parent: the parent has links.
      . next hsame =>
        rw [hsame, nlinks_eq, hnone] at hperm
        exact absurd rfl hperm
      . exact hkind
    rw [heq, hiff]
    refine ⟨?_, ?_⟩
    . intro hlinks
      exact ((hs.mkdir hnew hadd hdir hlinks).iput dir).iput x
    . intro hexact hlinks
      exact not_exact_mkdir hs hnew hadd hdir hlinks hexact

theorem Consistent.step (hs : s.Consistent) {a : Act} (h : s.step a = some s')
    : (s.Fits a → s'.Consistent) ∧ (s'.Exact → s.Fits a) := by
  unfold FileSystem.step at h
  obtain ⟨⟨r, s₁⟩, hcall, heq⟩ := Option.map_eq_some_iff.mp h
  dsimp only at heq
  subst heq
  cases a with
  | keep c path =>
    have hs' := hs.keep c path
    rw [Option.some.inj hcall] at hs'
    exact ⟨fun _ => hs', fun _ => trivial⟩
  | release x =>
    unfold call at hcall
    dsimp only at hcall
    split at hcall
    . simp at hcall
    . cases hcall
      exact ⟨fun _ => hs.release x, fun _ => trivial⟩
  | openNamei c path flag created =>
    have hs' := hs.openNamei c path flag created
    rw [Option.some.inj hcall] at hs'
    exact ⟨fun _ => hs', fun _ => trivial⟩
  | sysMknod c path kind created =>
    have hs' := hs.sysMknod c path kind created
    rw [Option.some.inj hcall] at hs'
    exact ⟨fun _ => hs', fun _ => trivial⟩
  | sysMkdir c path newBlock bread created => exact hs.sysMkdir hcall
  | sysRmdir c path =>
    have hs' := hs.sysRmdir c path
    rw [Option.some.inj hcall] at hs'
    exact ⟨fun _ => hs', fun _ => trivial⟩
  | sysUnlink c path =>
    have hs' := hs.sysUnlink c path
    rw [Option.some.inj hcall] at hs'
    exact ⟨fun _ => hs', fun _ => trivial⟩
  | sysLink c c' oldname newname created =>
    have hs' := hs.sysLink c c' oldname newname created
    rw [Option.some.inj hcall] at hs'
    exact hs'

end Calls

/--
In a run of fitting calls every count is exact and no inode is free that an entry names, and one more call keeps that
exactly if it fits.
-/
theorem exact_iff_fits {s₀ : FileSystem} (h₀ : s₀.Consistent) (h : Run.Reaches FileSystem.step Fits s₀ s)
    : s.Exact ∧ ∀ a s', s.step a = some s' → (s'.Exact ↔ s.Fits a) := by
  have hs : s.Consistent := by
    apply h.invariant Consistent h₀
    intro s s' a hs hfits hstep
    exact (hs.step hstep).left hfits
  refine ⟨hs.toExact, ?_⟩
  intro a s' hstep
  have ⟨hkeep, hback⟩ := hs.step hstep
  refine ⟨hback, ?_⟩
  intro hfits
  exact (hkeep hfits).toExact

theorem letter_ne_zero (i : Nat) : (97 : UInt8) + UInt8.ofNat (i % 16) ≠ 0 := by
  intro h
  have htoNat : ((97 : UInt8) + UInt8.ofNat (i % 16)).toNat = 0 := congrArg UInt8.toNat h
  rw [UInt8.toNat_add, UInt8.toNat_ofNat'] at htoNat
  have h97 : (97 : UInt8).toNat = 97 := rfl
  omega

def letters (i : Nat) : FileName :=
  {
    bytes := [97 + UInt8.ofNat (i / 16 % 16), 97 + UInt8.ofNat (i % 16)]
    not_empty := List.cons_ne_nil _ _
    no_zero := by
      intro hmem
      rw [List.mem_cons, List.mem_singleton] at hmem
      obtain hzero | hzero := hmem
      . exact letter_ne_zero _ hzero.symm
      . exact letter_ne_zero _ hzero.symm
  }

def linkedEntries (n : Nat) : List DirEntry :=
  .make 1 dot :: .make 1 dotDot :: (List.range n).map fun i => .make 2 (letters i)

-- A file with `n` names in the root directory.
def linkedFile (n : Nat) : FileSystem :=
  {
    inodes := [
      none,
      some { nlinks := 2, kind := .directory, entries := linkedEntries n },
      some { nlinks := UInt8.ofNat n, kind := .file, entries := [] },
      none
    ]
    holds := fun _ => 0
  }

theorem inodeAt_linkedFile (n d k : Nat)
    : (linkedFile n).inodeAt d k = if d = 1 then (if k < 2 then 1 else if k < n + 2 then 2 else 0) else 0 := by
  rw [inodeAt_eq]
  match d with
  | 0 => rfl
  | 1 =>
    match k with
    | 0 => rfl
    | 1 => rfl
    | k + 2 =>
      have hget : (linkedEntries n)[k + 2]? = if k < n then some (.make 2 (letters k)) else none := by
        unfold linkedEntries
        rw [List.getElem?_cons_succ, List.getElem?_cons_succ, List.getElem?_map]
        split
        . next hlt => rw [List.getElem?_range hlt, Option.map_some]
        . next hge =>
          rw [List.getElem?_eq_none, Option.map_none]
          rw [List.length_range]
          omega
      rw [if_pos rfl, if_neg (by omega)]
      unfold inodeOf
      rw [show (entriesOf ((linkedFile n).node 1)) = linkedEntries n from rfl, hget]
      by_cases hlt : k < n
      . rw [if_pos hlt, if_pos (by omega)]
        rfl
      . rw [if_neg hlt, if_neg (by omega)]
  | 2 => rfl
  | 3 => rfl
  | d + 4 => rfl

theorem kindAt_linkedFile (n d : Nat)
    : (linkedFile n).kindAt d = if d = 1 then some .directory else if d = 2 then some .file else none := by
  match d with
  | 0 => rfl
  | 1 => rfl
  | 2 => rfl
  | 3 => rfl
  | d + 4 => rfl

theorem refs_linkedFile (n x : Nat) : (linkedFile n).refs x = countInode (linkedEntries n) x := by
  unfold refs linkedFile entriesOf
  simp

theorem countInode_linkedEntries {n x : Nat}
    : countInode (linkedEntries n) x = (if x = 1 then 2 else 0) + (if x = 2 then n else 0) := by
  have hrest : ((List.range n).map fun i => DirEntry.make 2 (letters i)).countP (fun de => de.inode == x)
      = if x = 2 then n else 0 := by
    rw [List.countP_map]
    by_cases heq : x = 2
    . subst heq
      rw [if_pos rfl]
      apply List.countP_eq_length.mpr _ |>.trans (List.length_range)
      intro i _
      rfl
    . rw [if_neg heq]
      apply List.countP_eq_zero.mpr
      intro i _ htwo
      apply heq
      exact (beq_iff_eq.mp htwo).symm
  unfold countInode linkedEntries
  rw [List.countP_cons, List.countP_cons, hrest]
  simp only [DirEntry.make, beq_iff_eq]
  grind

theorem consistent_linkedFile {n : Nat} (hn : n < 256) : (linkedFile n).Consistent := by
  constructor
  case toExact =>
    constructor
    case links =>
      intro x hx
      rw [refs_linkedFile, countInode_linkedEntries]
      rw [kindAt_linkedFile] at hx
      split at hx
      . next heq =>
        subst heq
        rfl
      . split at hx
        . next heq =>
          subst heq
          rw [if_neg (by omega), if_pos rfl, Nat.zero_add]
          exact UInt8.toNat_ofNat_of_lt hn
        . exact absurd rfl hx
    case named =>
      intro d k hne
      rw [inodeAt_linkedFile] at hne ⊢
      rw [kindAt_linkedFile]
      grind
  case zero => rfl
  case tree =>
    have hdir : ∀ d, (linkedFile n).kindAt d = some .directory ↔ d = 1 := by
      intro d
      rw [kindAt_linkedFile]
      grind
    constructor <;> simp only [hdir, inodeAt_linkedFile, ROOT_INO] <;> grind

def superUser : Context :=
  { root := 1, start := some 1, access := fun _ _ => true, suser := true, sticky := false }

def inRoot (name : FileName) : Path :=
  { dirs := [], base := some name }

-- A second name for a file.
theorem exact_secondName
    : ∃ s, Run.Reaches FileSystem.step Fits (linkedFile 1) s ∧ s.refs 2 = 2 ∧ s.Exact := by
  have hexec : ∃ s, Run.exec FileSystem.step (linkedFile 1)
      [.sysLink superUser superUser (inRoot (letters 0)) (inRoot (letters 1)) true] = some s ∧ s.refs 2 = 2 := by
    refine ⟨_, rfl, ?_⟩
    decide
  obtain ⟨s, hexec, hrefs⟩ := hexec
  have hreach : Run.Reaches FileSystem.step Fits (linkedFile 1) s := by
    apply Run.Reaches.of_exec _ hexec
    refine ⟨?_, fun _ _ => trivial⟩
    intro x dir name hx _ _ _ _ _ _
    cases hx
    decide
  exact ⟨s, hreach, hrefs, (exact_iff_fits (consistent_linkedFile (by omega)) hreach).left⟩

-- The 256th name of a file.
theorem not_exact_lastName
    : (linkedFile 255).Consistent
      ∧ ∃ s, Run.Reaches FileSystem.step (fun _ _ => True) (linkedFile 255) s ∧ ¬ s.Exact := by
  have hs : (linkedFile 255).Consistent := consistent_linkedFile (by omega)
  have hstep : ∃ s, (linkedFile 255).step
      (.sysLink superUser superUser (inRoot (letters 0)) (inRoot (letters 255)) true) = some s := ⟨_, rfl⟩
  obtain ⟨s, hstep⟩ := hstep
  refine ⟨hs, s, .tail .refl trivial hstep, ?_⟩
  intro hexact
  have hfits := (hs.step hstep).right hexact
  apply hfits 2 1 (letters 255)
  . decide +kernel
  . rfl
  . rfl
  . rfl
  . rfl
  . decide +kernel
  . decide +kernel
  . rfl

end FileSystem
end Namei
end OS
