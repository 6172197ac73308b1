import ByDoing.OS.DirectoryTree
import ByDoing.OS.Namei

namespace OS
namespace Namei

open Directory (put dot dotDot)

def inodeOf (entries : List DirEntry) (k : Nat) : Nat :=
  match entries[k]? with
  | none => 0
  | some de => de.inode

def countInode (entries : List DirEntry) (x : Nat) : Nat :=
  entries.countP fun de => de.inode == x

namespace FileSystem

def entriesOf (o : Option Node) : List DirEntry :=
  match o with
  | none => []
  | some n => n.entries

-- The number of the live entries that name `x`.
def refs (s : FileSystem) (x : Nat) : Nat :=
  countInode (s.inodes.flatMap entriesOf) x

def kindAt (s : FileSystem) (x : Nat) : Option NodeKind :=
  (s.node x).map Node.kind

/--
`links` is about every allocated inode, and `named` says that no inode is free that an entry names.
-/
structure Exact (s : FileSystem) : Prop where
  links : ∀ x, s.kindAt x ≠ none → (s.nlinks x).toNat = s.refs x
  named : ∀ d k, s.inodeAt d k ≠ 0 → s.kindAt (s.inodeAt d k) ≠ none

def Tree (s : FileSystem) : Prop :=
  DirectoryTree ROOT_INO (fun d => s.kindAt d = some .directory) s.inodeAt

structure Consistent (s : FileSystem) : Prop extends Exact s where
  zero : s.kindAt 0 = none
  tree : s.Tree

end FileSystem

theorem countInode_put {entries : List DirEntry} {j x : Nat} (hj : j ≤ entries.length) (hx : x ≠ 0) (de : DirEntry)
    : countInode (put entries j de) x + (if inodeOf entries j = x then 1 else 0)
        =
      countInode entries x + (if de.inode = x then 1 else 0) := by
  unfold countInode put inodeOf
  split
  . next hlt =>
    have hpos : (if entries[j].inode = x then 1 else 0) ≤ entries.countP fun de => de.inode == x := by
      split
      . next heq =>
        apply List.countP_pos_iff.mpr
        exact ⟨entries[j], List.getElem_mem hlt, by simpa using heq⟩
      . exact Nat.zero_le _
    rw [List.countP_set hlt, List.getElem?_eq_getElem hlt]
    simp only [beq_iff_eq]
    omega
  . next hge =>
    rw [List.getElem?_eq_none (by omega), List.countP_append, List.countP_singleton]
    simp only [beq_iff_eq]
    rw [if_neg hx.symm, Nat.add_zero]

theorem inodeOf_put {entries : List DirEntry} {j : Nat} (hj : j ≤ entries.length) (de : DirEntry) (k : Nat)
    : inodeOf (put entries j de) k = if k = j then de.inode else inodeOf entries k := by
  unfold inodeOf
  rw [Directory.getElem?_put hj]
  by_cases heq : k = j
  . rw [if_pos heq, if_pos heq]
  . rw [if_neg heq, if_neg heq]

theorem countInode_eq_zero {entries : List DirEntry} {x : Nat} (h : ∀ k, inodeOf entries k ≠ x)
    : countInode entries x = 0 := by
  apply List.countP_eq_zero.mpr
  intro de hde heq
  obtain ⟨k, hget⟩ := List.mem_iff_getElem?.mp hde
  apply h k
  unfold inodeOf
  rw [hget]
  simpa using heq

theorem countInode_of_empty {entries : List DirEntry} {x : Nat} (hx : x ≠ 0) (hempty : ∀ i, 2 ≤ i → inodeOf entries i = 0)
    : countInode entries x
        =
      (if inodeOf entries 0 = x then 1 else 0) + (if inodeOf entries 1 = x then 1 else 0) := by
  have hrest : ∀ de de' rest, entries = de :: de' :: rest → countInode rest x = 0 := by
    intro de de' rest heq
    subst heq
    apply countInode_eq_zero
    intro k
    rw [show inodeOf rest k = 0 from hempty (k + 2) (by omega)]
    exact hx.symm
  match entries with
  | [] => simp [inodeOf, countInode, hx.symm]
  | [de] => simp [inodeOf, countInode, hx.symm, List.countP_cons]
  | de :: de' :: rest =>
    have hzero := hrest de de' rest rfl
    have hfst : inodeOf (de :: de' :: rest) 0 = de.inode := rfl
    have hsnd : inodeOf (de :: de' :: rest) 1 = de'.inode := rfl
    rw [hfst, hsnd]
    unfold countInode at hzero ⊢
    rw [List.countP_cons, List.countP_cons, hzero]
    simp only [beq_iff_eq]
    omega

theorem countInode_flatMap_set {α : Type} (f : α → List DirEntry) {l : List α} {i : Nat} {a b : α} (h : l[i]? = some a)
    (x : Nat)
    : countInode ((l.set i b).flatMap f) x + countInode (f a) x = countInode (l.flatMap f) x + countInode (f b) x := by
  induction l generalizing i with
  | nil => simp at h
  | cons c l ih =>
    unfold countInode at ih ⊢
    cases i with
    | zero =>
      rw [List.getElem?_cons_zero, Option.some.injEq] at h
      subst h
      rw [List.set_cons_zero, List.flatMap_cons, List.flatMap_cons, List.countP_append, List.countP_append]
      omega
    | succ i =>
      have hl := ih h
      rw [List.set_cons_succ, List.flatMap_cons, List.flatMap_cons, List.countP_append, List.countP_append]
      omega

namespace FileSystem

variable {s : FileSystem} {x y : Nat}

theorem inodeAt_eq (s : FileSystem) (d k : Nat) : s.inodeAt d k = inodeOf (entriesOf (s.node d)) k := by
  unfold inodeAt inodeOf entriesOf
  cases s.node d with
  | none => rfl
  | some n => rfl

theorem nlinks_eq (s : FileSystem) (x : Nat) : s.nlinks x = ((s.node x).map Node.nlinks).getD 0 := by
  unfold nlinks
  cases s.node x with
  | none => rfl
  | some n => rfl

theorem lt_of_node {n : Node} (h : s.node x = some n) : x < s.inodes.length := by
  unfold node at h
  apply Nat.lt_of_not_le
  intro hle
  rw [List.getElem?_eq_none hle] at h
  simp at h

section SetNode

variable {o : Option Node} (hx : x < s.inodes.length)
include hx

theorem getElem?_eq_node : s.inodes[x]? = some (s.node x) := by
  unfold node
  rw [List.getElem?_eq_getElem hx]
  rfl

theorem node_setNode (y : Nat) : (s.setNode x o).node y = if y = x then o else s.node y := by
  unfold node setNode
  rw [List.getElem?_set]
  by_cases heq : y = x
  . subst heq
    rw [if_pos rfl, if_pos rfl, if_pos hx]
    rfl
  . rw [if_neg (Ne.symm heq), if_neg heq]

theorem kindAt_setNode (y : Nat)
    : (s.setNode x o).kindAt y = if y = x then o.map Node.kind else s.kindAt y := by
  unfold kindAt
  rw [node_setNode hx]
  split <;> rfl

theorem nlinks_setNode (y : Nat)
    : (s.setNode x o).nlinks y = if y = x then (o.map Node.nlinks).getD 0 else s.nlinks y := by
  rw [nlinks_eq, nlinks_eq, node_setNode hx]
  split <;> rfl

theorem inodeAt_setNode (y k : Nat)
    : (s.setNode x o).inodeAt y k = if y = x then inodeOf (entriesOf o) k else s.inodeAt y k := by
  rw [inodeAt_eq, inodeAt_eq, node_setNode hx]
  split <;> rfl

theorem refs_setNode (y : Nat)
    : (s.setNode x o).refs y + countInode (entriesOf (s.node x)) y = s.refs y + countInode (entriesOf o) y := by
  unfold refs setNode
  exact countInode_flatMap_set entriesOf (getElem?_eq_node hx) y

end SetNode

theorem kindAt_of_node {n : Node} (h : s.node x = some n) : s.kindAt x = some n.kind := by
  unfold kindAt
  rw [h]
  rfl

theorem exists_node (h : s.kindAt x ≠ none) : ∃ n, s.node x = some n := by
  apply Option.ne_none_iff_exists'.mp
  intro hnone
  apply h
  unfold kindAt
  rw [hnone]
  rfl

theorem refs_pos {d k : Nat} (hx : x ≠ 0) (h : s.inodeAt d k = x) : 0 < s.refs x := by
  rw [inodeAt_eq] at h
  have hlt : d < s.inodes.length := by
    apply Nat.lt_of_not_le
    intro hle
    unfold node at h
    rw [List.getElem?_eq_none hle] at h
    exact hx h.symm
  unfold inodeOf at h
  split at h
  . exact absurd h.symm hx
  . next de hget =>
    apply List.countP_pos_iff.mpr
    refine ⟨de, ?_, by simpa using h⟩
    apply List.mem_flatMap.mpr
    exact ⟨s.node d, List.mem_of_getElem? (getElem?_eq_node hlt), List.mem_of_getElem? hget⟩

theorem refs_eq_zero (h : ∀ d k, s.inodeAt d k ≠ x) : s.refs x = 0 := by
  apply List.countP_eq_zero.mpr
  intro de hde heq
  obtain ⟨o, ho, hmem⟩ := List.mem_flatMap.mp hde
  obtain ⟨d, hd⟩ := List.mem_iff_getElem?.mp ho
  obtain ⟨k, hk⟩ := List.mem_iff_getElem?.mp hmem
  apply h d k
  rw [inodeAt_eq]
  unfold node inodeOf
  rw [hd, Option.join_some, hk]
  simpa using heq

/--
`s'` is `s` but for entry `j` of `dir`, which now names `x`.
-/
structure Puts (s s' : FileSystem) (dir j x : Nat) : Prop where
  holds : s'.holds = s.holds
  kindAt : s'.kindAt = s.kindAt
  nlinks : s'.nlinks = s.nlinks
  inodeAt : s'.inodeAt = DirectoryTree.setEntry s.inodeAt dir j x
  refs : ∀ y, y ≠ 0 → s'.refs y + (if s.inodeAt dir j = y then 1 else 0) = s.refs y + (if x = y then 1 else 0)

theorem puts_put {dir j : Nat} {n : Node} (hdir : s.node dir = some n) (hj : j ≤ n.entries.length) (de : DirEntry)
    : Puts s (s.setNode dir (some { n with entries := put n.entries j de })) dir j de.inode := by
  have hlt := lt_of_node hdir
  constructor
  case holds => rfl
  case kindAt =>
    funext y
    rw [kindAt_setNode hlt]
    split
    . next heq =>
      subst heq
      rw [kindAt_of_node hdir]
      rfl
    . rfl
  case nlinks =>
    funext y
    rw [nlinks_setNode hlt]
    split
    . next heq =>
      subst heq
      rw [nlinks_eq, hdir]
      rfl
    . rfl
  case inodeAt =>
    funext y k
    rw [inodeAt_setNode hlt]
    unfold DirectoryTree.setEntry
    by_cases heq : y = dir
    . subst heq
      rw [if_pos rfl]
      unfold entriesOf
      dsimp only
      rw [inodeOf_put hj, inodeAt_eq, hdir]
      simp only [true_and, entriesOf]
    . rw [if_neg heq, if_neg (fun h => heq h.left)]
  case refs =>
    intro y hy
    have hrefs := refs_setNode (o := some { n with entries := put n.entries j de }) hlt y
    have hcount := countInode_put hj hy de
    have hold : s.inodeAt dir j = inodeOf n.entries j := by
      rw [inodeAt_eq, hdir]
      rfl
    rw [hdir] at hrefs
    rw [hold]
    simp only [entriesOf] at hrefs
    omega

theorem puts_of_addEntry {dir : Nat} {name : FileName} {created : Bool} {s' : FileSystem}
    (h : s.addEntry dir name x created = some s')
    : s.kindAt dir = some .directory ∧ ∃ j, s.inodeAt dir j = 0 ∧ Puts s s' dir j x := by
  unfold addEntry at h
  split at h
  . simp at h
  . next n hdir =>
    split at h
    . next hkind =>
      refine ⟨?_, ?_⟩
      . rw [kindAt_of_node hdir, hkind]
      . split at h
        . next k hfind =>
          cases h
          obtain ⟨hlt, hfree, _⟩ := List.findIdx?_eq_some_iff_getElem.mp hfind
          have hput : put n.entries k (.make x name) = n.entries.set k (.make x name) := if_pos hlt
          refine ⟨k, ?_, ?_⟩
          . rw [inodeAt_eq, hdir]
            unfold entriesOf inodeOf
            dsimp only
            rw [List.getElem?_eq_getElem hlt]
            simpa using hfree
          . rw [← hput]
            apply puts_put hdir (Nat.le_of_lt hlt)
        . split at h
          . simp at h
          . cases h
            have hput : put n.entries n.entries.length (.make x name) = n.entries ++ [.make x name] :=
              if_neg (Nat.lt_irrefl _)
            refine ⟨n.entries.length, ?_, ?_⟩
            . rw [inodeAt_eq, hdir]
              unfold entriesOf inodeOf
              dsimp only
              rw [List.getElem?_eq_none (Nat.le_refl _)]
            . rw [← hput]
              apply puts_put hdir (Nat.le_refl _)
    . simp at h

theorem puts_clearEntry {dir k : Nat} (h : s.inodeAt dir k ≠ 0) : Puts s (s.clearEntry dir k) dir k 0 := by
  unfold clearEntry
  rw [inodeAt_eq] at h
  split
  . next hdir =>
    rw [hdir] at h
    exact absurd rfl h
  . next n hdir =>
    rw [hdir] at h
    have hlt : k < n.entries.length := by
      apply Nat.lt_of_not_le
      intro hle
      unfold entriesOf inodeOf at h
      dsimp only at h
      rw [List.getElem?_eq_none hle] at h
      exact h rfl
    have hput : put n.entries k { n.entries[k] with inode := 0 }
        = n.entries.modify k fun de => { de with inode := 0 } := by
      unfold put
      rw [if_pos hlt]
      apply List.ext_getElem?
      intro i
      rw [List.getElem?_set, List.getElem?_modify]
      by_cases heq : k = i
      . subst heq
        simp [hlt]
      . simp [heq]
    rw [← hput]
    apply puts_put hdir (Nat.le_of_lt hlt)

section SetLinks

variable {v : UInt8}

theorem setLinks_of_node {n : Node} (h : s.node x = some n)
    : s.setLinks x v = s.setNode x (some { n with nlinks := v }) := by
  unfold setLinks
  rw [h]

theorem setLinks_of_none (h : s.node x = none) : s.setLinks x v = s := by
  unfold setLinks
  rw [h]

@[simp]
theorem kindAt_setLinks (s : FileSystem) (x : Nat) : (s.setLinks x v).kindAt = s.kindAt := by
  funext y
  cases h : s.node x with
  | none => rw [setLinks_of_none h]
  | some n =>
    rw [setLinks_of_node h, kindAt_setNode (lt_of_node h)]
    split
    . next heq => rw [heq, kindAt_of_node h, Option.map_some]
    . rfl

@[simp]
theorem inodeAt_setLinks (s : FileSystem) (x : Nat) : (s.setLinks x v).inodeAt = s.inodeAt := by
  funext y k
  cases h : s.node x with
  | none => rw [setLinks_of_none h]
  | some n =>
    rw [setLinks_of_node h, inodeAt_setNode (lt_of_node h)]
    split
    . next heq =>
      rw [heq, inodeAt_eq, h]
      rfl
    . rfl

@[simp]
theorem refs_setLinks (s : FileSystem) (x : Nat) : (s.setLinks x v).refs = s.refs := by
  funext y
  cases h : s.node x with
  | none => rw [setLinks_of_none h]
  | some n =>
    have hrefs := refs_setNode (o := some { n with nlinks := v }) (lt_of_node h) y
    rw [h] at hrefs
    rw [setLinks_of_node h]
    dsimp only [entriesOf] at hrefs
    omega

@[simp]
theorem holds_setLinks (s : FileSystem) (x : Nat) : (s.setLinks x v).holds = s.holds := by
  unfold setLinks
  split <;> rfl

theorem nlinks_setLinks (h : s.kindAt x ≠ none) (y : Nat)
    : (s.setLinks x v).nlinks y = if y = x then v else s.nlinks y := by
  have ⟨n, hn⟩ := exists_node h
  rw [setLinks_of_node hn, nlinks_setNode (lt_of_node hn)]
  rfl

end SetLinks

theorem Consistent.ne_zero (hs : s.Consistent) (hx : s.kindAt x ≠ none) : x ≠ 0 := by
  intro hzero
  apply hx
  rw [hzero]
  exact hs.zero

theorem iput_of_nlinks_ne_zero (h : s.nlinks x ≠ 0) : s.iput x = s := by
  unfold iput
  unfold nlinks at h
  split
  . rfl
  . next n hn =>
    rw [hn] at h
    apply if_neg
    intro hfree
    exact h hfree.right

theorem iput_cases (s : FileSystem) (x : Nat)
    : s.iput x = s ∨ (s.kindAt x ≠ none ∧ s.nlinks x = 0 ∧ s.iput x = s.setNode x none) := by
  unfold iput
  split
  . exact .inl rfl
  . next n hn =>
    split
    . next hfree =>
      refine .inr ⟨?_, ?_, rfl⟩
      . rw [kindAt_of_node hn]
        exact Option.some_ne_none _
      . rw [nlinks_eq, hn]
        exact hfree.right
    . exact .inl rfl

theorem Consistent.setNode_none (hs : s.Consistent) (hx : s.kindAt x ≠ none) (hlinks : s.nlinks x = 0)
    : (s.setNode x none).Consistent := by
  have ⟨n, hn⟩ := exists_node hx
  have hlt := lt_of_node hn
  have hx0 := hs.ne_zero hx
  have hnot : ∀ d k, s.inodeAt d k ≠ x := by
    intro d k heq
    have hpos := refs_pos hx0 heq
    have hzero := hs.links x hx
    rw [hlinks, UInt8.toNat_zero] at hzero
    omega
  have hkind : s.kindAt x ≠ some .directory := by
    intro hdir
    exact hnot x 0 (hs.tree.dot x hdir)
  have hleaf : ∀ k, s.inodeAt x k = 0 := fun k => hs.tree.leaf x k hkind
  have hinodeAt : ∀ d k, (s.setNode x none).inodeAt d k = s.inodeAt d k := by
    intro d k
    rw [inodeAt_setNode hlt]
    split
    . next heq =>
      rw [heq, hleaf]
      rfl
    . rfl
  have hkindAt : ∀ y, y ≠ x → (s.setNode x none).kindAt y = s.kindAt y := by
    intro y hy
    rw [kindAt_setNode hlt, if_neg hy]
  have hrefs : ∀ y, y ≠ 0 → (s.setNode x none).refs y = s.refs y := by
    intro y hy
    have hset := refs_setNode (o := none) hlt y
    have hcount : countInode (entriesOf (s.node x)) y = 0 := by
      apply countInode_eq_zero
      intro k
      rw [← inodeAt_eq, hleaf]
      exact hy.symm
    have hnone : countInode (entriesOf none) y = 0 := rfl
    omega
  constructor
  case toExact =>
    constructor
    case links =>
      intro y hy
      rw [kindAt_setNode hlt] at hy
      split at hy
      . exact absurd rfl hy
      . next hne =>
        rw [nlinks_setNode hlt, if_neg hne, hrefs y (hs.ne_zero hy)]
        exact hs.links y hy
    case named =>
      intro d k hne
      rw [hinodeAt] at hne ⊢
      rw [hkindAt _ (hnot d k)]
      exact hs.named d k hne
  case zero =>
    rw [hkindAt 0 hx0.symm]
    exact hs.zero
  case tree =>
    apply hs.tree.congr _ hinodeAt
    intro d
    by_cases hd : d = x
    . subst hd
      rw [kindAt_setNode hlt, if_pos rfl]
      simp [hkind]
    . rw [hkindAt d hd]

theorem Consistent.iput (hs : s.Consistent) (x : Nat) : (s.iput x).Consistent := by
  obtain heq | ⟨hx, hlinks, heq⟩ := iput_cases s x
  . rw [heq]
    exact hs
  . rw [heq]
    exact hs.setNode_none hx hlinks

theorem Consistent.setHolds (hs : s.Consistent) (holds : Nat → Nat) : { s with holds }.Consistent :=
  ⟨⟨hs.links, hs.named⟩, hs.zero, hs.tree⟩

section Puts

variable {s' : FileSystem} {dir j : Nat}

theorem Puts.refs_of_free (h : Puts s s' dir j x) (hfree : s.inodeAt dir j = 0) (hy : y ≠ 0)
    : s'.refs y = s.refs y + (if x = y then 1 else 0) := by
  have hrefs := h.refs y hy
  rw [hfree, if_neg hy.symm] at hrefs
  exact hrefs

theorem Puts.refs_of_clear (h : Puts s s' dir j 0) (hy : y ≠ 0)
    : s'.refs y + (if s.inodeAt dir j = y then 1 else 0) = s.refs y := by
  have hrefs := h.refs y hy
  rw [if_neg hy.symm] at hrefs
  exact hrefs

theorem Puts.named (h : Puts s s' dir j x) (hnamed : ∀ d k, s.inodeAt d k ≠ 0 → s.kindAt (s.inodeAt d k) ≠ none)
    (hx : x ≠ 0 → s.kindAt x ≠ none) (d k : Nat) (hne : s'.inodeAt d k ≠ 0)
    : s'.kindAt (s'.inodeAt d k) ≠ none := by
  rw [h.kindAt]
  rw [h.inodeAt] at hne ⊢
  unfold DirectoryTree.setEntry at hne ⊢
  by_cases hpos : d = dir ∧ k = j
  . rw [if_pos hpos] at hne ⊢
    exact hx hne
  . rw [if_neg hpos] at hne ⊢
    exact hnamed d k hne

theorem Puts.tree (h : Puts s s' dir j x) (htree : s.Tree) (hdir : s.kindAt dir = some .directory)
    (hold : s.kindAt (s.inodeAt dir j) ≠ some .directory) (hx : s.kindAt x ≠ some .directory)
    : s'.Tree := by
  unfold Tree
  rw [h.kindAt, h.inodeAt]
  exact htree.setFile hdir hold hx

end Puts

end FileSystem
end Namei
end OS
