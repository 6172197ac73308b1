import ByDoing.OS.MemMapRun

namespace OS
namespace Memory

def IsFree (m : Memory) (f : Nat) : Prop :=
  lowFrame ≤ f ∧ m.memMap (f - lowFrame) = 0

def Clean (m : Memory) : Prop :=
  ∀ d, 16 ≤ d.val → Entry.present (m.dir d) = false → m.dir d = 0

theorem dirAt_val {d : Nat} {e : PageIndex} (h : dirAt d = .ok e) : e.val = d := by
  unfold dirAt at h
  split at h
  . rw [← Except.ok.inj h]
  . cases h

-- Only the pages in `free` and the entries of the page directory in `block` have changed, the page tables in `source`
-- up to the rights to write, and the counts of the managed pages.
structure Within (managed free source : Nat → Prop) (block : PageIndex → Prop) (m m' : Memory) : Prop where
  memMap : ∀ nr, ¬managed (lowFrame + nr) → m'.memMap nr = m.memMap nr
  dir : ∀ d, ¬block d → m'.dir d = m.dir d
  page : ∀ f, f ≠ 0 → ¬free f → ¬source f → m'.ram f = m.ram f
  entry : ∀ f, f ≠ 0 → ¬free f → ∀ i, m'.ram f i = m.ram f i ∨ m'.ram f i = m.ram f i &&& ~~~2

namespace Within

variable {managed free source free' source' : Nat → Prop} {block block' : PageIndex → Prop} {m m₁ m' : Memory}

theorem refl (m : Memory) : Within managed free source block m m :=
  ⟨fun _ _ => rfl, fun _ _ => rfl, fun _ _ _ _ => rfl, fun _ _ _ _ => .inl rfl⟩

theorem trans (h : Within managed free source block m m₁) (h' : Within managed free source block m₁ m')
    : Within managed free source block m m' := by
  constructor
  . intro nr hnr
    rw [h'.memMap nr hnr, h.memMap nr hnr]
  . intro d hd
    rw [h'.dir d hd, h.dir d hd]
  . intro f hzero hfree hsource
    rw [h'.page f hzero hfree hsource, h.page f hzero hfree hsource]
  . intro f hzero hfree i
    rcases h'.entry f hzero hfree i with heq' | heq' <;> rcases h.entry f hzero hfree i with heq | heq
    . exact .inl (heq'.trans heq)
    . exact .inr (heq'.trans heq)
    . exact .inr (by rw [heq', heq])
    . right
      rw [heq', heq, BitVec.and_assoc, BitVec.and_self]

theorem mono (h : Within managed free source block m m') (hfree : ∀ f, free f → free' f)
    (hsource : ∀ f, source f → source' f) (hblock : ∀ d, block d → block' d)
    : Within managed free' source' block' m m' := by
  constructor
  . exact h.memMap
  . intro d hd
    exact h.dir d fun hb => hd (hblock d hb)
  . intro f hzero hf hs
    exact h.page f hzero (fun hfr => hf (hfree f hfr)) fun hsr => hs (hsource f hsr)
  . intro f hzero hf
    exact h.entry f hzero fun hfr => hf (hfree f hfr)

theorem setMap (m : Memory) {f : Nat} (hlow : lowFrame ≤ f) (hf : managed f) (c : BitVec 8)
    : Within managed free source block m (m.setMap (f - lowFrame) c) := by
  constructor
  . intro nr hnr
    apply Function.update_of_ne
    intro heq
    rw [heq, Nat.add_sub_cancel' hlow] at hnr
    exact hnr hf
  . intro _ _
    rfl
  . intro _ _ _ _
    rfl
  . intro _ _ _ _
    exact .inl rfl

theorem setPage (m : Memory) {t : Nat} (hzero : t ≠ 0) (hfree : free t) (c : Contents)
    : Within managed free source block m (m.setPage t c) := by
  have hram : ∀ f, ¬free f → (m.setPage t c).ram f = m.ram f := by
    intro f hf
    apply ram_setPage_of_ne
    intro heq
    exact hf (heq ▸ hfree)
  constructor
  . intro _ _
    rfl
  . intro d _
    exact congrFun (ram_setPage_of_ne m (Ne.symm hzero) c) d
  . intro f _ hf _
    exact hram f hf
  . intro f _ hf i
    exact .inl (congrFun (hram f hf) i)

theorem setEntry (m : Memory) {t : Nat} (hzero : t ≠ 0) (hfree : free t) (i : PageIndex) (entry : Word)
    : Within managed free source block m (m.setEntry t i entry) :=
  setPage m hzero hfree _

theorem protect (m : Memory) {t : Nat} (hzero : t ≠ 0) (hsource : source t) (i : PageIndex)
    : Within managed free source block m (m.setEntry t i (m.ram t i &&& ~~~2)) := by
  constructor
  . intro _ _
    rfl
  . intro d _
    exact congrFun (ram_setEntry_of_ne m (Ne.symm hzero) _ _) d
  . intro f _ _ hf
    apply ram_setEntry_of_ne
    intro heq
    exact hf (heq ▸ hsource)
  . intro f _ _ j
    by_cases hf : f = t
    . subst hf
      rw [ram_setEntry]
      by_cases hj : j = i
      . subst hj
        rw [Function.update_self]
        exact .inr rfl
      . rw [Function.update_of_ne hj]
        exact .inl rfl
    . exact .inl (congrFun (ram_setEntry_of_ne m hf _ _) j)

theorem setDir (m : Memory) {d : PageIndex} (hd : block d) (entry : Word)
    : Within managed free source block m (m.setEntry 0 d entry) := by
  constructor
  . intro _ _
    rfl
  . intro e he
    unfold Memory.dir
    rw [ram_setEntry]
    apply Function.update_of_ne
    intro heq
    exact he (heq ▸ hd)
  . intro f hzero _ _
    exact ram_setEntry_of_ne m hzero _ _
  . intro f hzero _ i
    exact .inl (congrFun (ram_setEntry_of_ne m hzero _ _) i)

theorem userTable_eq (h : Within managed free source block m m') {d : PageIndex} (hd : ¬block d)
    : m'.userTable d = m.userTable d := by
  unfold userTable
  rw [h.dir d hd]

theorem target_eq (h : Within managed free source block m m') {f : Nat} (hzero : f ≠ 0) (hfree : ¬free f) (i : PageIndex)
    : Entry.target (m'.ram f i) = Entry.target (m.ram f i) := by
  rcases h.entry f hzero hfree i with heq | heq
  . rw [heq]
  . rw [heq, Entry.target_clear]

end Within

theorem dir_setPage (m : Memory) {f : Nat} (h : f ≠ 0) (c : Contents) : (m.setPage f c).dir = m.dir := by
  funext d
  exact congrFun (ram_setPage_of_ne m (Ne.symm h) c) d

theorem dir_setEntry (m : Memory) {t : Nat} (h : t ≠ 0) (i : PageIndex) (entry : Word)
    : (m.setEntry t i entry).dir = m.dir :=
  dir_setPage m h _

theorem dir_getFreePage {m m' : Memory} {f : Nat} (h : m.getFreePage = some (f, m')) : m'.dir = m.dir := by
  obtain ⟨nr, _, _, rfl, rfl⟩ := getFreePage_eq_some h
  exact dir_setPage (m.setMap nr 1) (ne_zero_of_low (Nat.le_add_right _ _)) _

theorem dir_freePage {m m' : Memory} {f : Nat} (h : m.freePage f = .ok m') : m'.dir = m.dir := by
  unfold freePage at h
  split at h
  . cases h
    rfl
  . split at h
    . cases h
    . split at h
      . cases h
        rfl
      . cases h

def Enters (m m' : Memory) (d : PageIndex) : Prop :=
  ∀ e, m'.dir e = m.dir e ∨ e = d ∧ Entry.present (m'.dir e) = true

theorem Enters.of_eq {m m' : Memory} (h : m'.dir = m.dir) (d : PageIndex) : Enters m m' d :=
  fun e => .inl (congrFun h e)

theorem enters_newTable {m m' m₁ : Memory} {d : PageIndex} {t : Nat} (hfree : m.getFreePage = some (t, m₁))
    (hdir : m'.dir = (m₁.setEntry 0 d (Entry.make t)).dir)
    : Enters m m' d := by
  intro e
  rw [hdir, ← dir_getFreePage hfree]
  unfold dir
  rw [ram_setEntry]
  by_cases he : e = d
  . subst he
    rw [Function.update_self]
    exact .inr ⟨rfl, Entry.present_make t⟩
  . rw [Function.update_of_ne he]
    exact .inl rfl

section counted

variable {m m' m₀ : Memory} {held : List Nat} {managed free source : Nat → Prop} {block : PageIndex → Prop}

namespace Counted

theorem table_not_free (h : m.Counted held managed) {d : PageIndex} {t : Nat} (ht : m.userTable d = some t)
    : ¬m.IsFree t := by
  intro hfree
  have hcount := h.exact.count_pos (h.table_frame ht)
  rw [counted_count, count_eq hfree.left, hfree.right] at hcount
  simp at hcount

theorem free_of_zero (h₀ : m₀.Counted held managed) (h : m.Counted held managed)
    (hwithin : Within managed m₀.IsFree source block m₀ m) (hblock : ∀ d, block d → m₀.userTable d = none) {f : Nat}
    (hf : managed f) (hzero : m.counted.count f = 0)
    : m₀.IsFree f := by
  have hlow := (h₀.range f hf).left
  refine ⟨hlow, ?_⟩
  by_contra hne
  have hpos : m₀.counted.count f ≠ 0 := by
    rw [counted_count, count_eq hlow]
    intro heq
    exact hne (BitVec.eq_of_toNat_eq heq)
  obtain ⟨hunused, hheld⟩ := h.exact.unreferenced hf hzero
  have hused : ∀ {d t}, m₀.userTable d = some t → m.userTable d = some t := by
    intro d t ht
    rw [hwithin.userTable_eq (fun hd => by rw [hblock d hd] at ht; cases ht)]
    exact ht
  rw [h₀.exact.count_eq f hf, List.count_eq_zero.mpr hheld, Nat.add_zero, ← Nat.pos_iff_ne_zero, Finset.card_pos] at hpos
  obtain ⟨k, hk⟩ := hpos
  rw [Sharing.Mapping.mem_sharers] at hk
  cases k with
  | table d => exact hunused (.table d) (h.table_frame (hused (counted_frame.mp hk).left))
  | page k =>
    obtain ⟨d, i⟩ := k
    cases ht : m₀.userTable d with
    | none =>
      have hnone := (counted_frame.mp hk).left
      rw [lookup_of_none ht] at hnone
      cases hnone
    | some t =>
      refine hunused (.page (d, i)) (counted_frame.mpr ⟨?_, hlow⟩)
      rw [m.frame_page (hused ht), hwithin.target_eq (h₀.table_ne_zero ht) (h₀.table_not_free ht), ← m₀.frame_page ht]
      exact (counted_frame.mp hk).left

theorem Handed.within {f : Nat} (hnew : Handed m held managed f m') (hlow : lowFrame ≤ f) (hfree : free f)
    : Within managed free source block m m' := by
  have hne : ∀ g, ¬free g → m'.ram g = m.ram g := by
    intro g hg
    rw [hnew.ram_eq]
    apply Function.update_of_ne
    intro heq
    exact hg (heq ▸ hfree)
  constructor
  . intro nr hnr
    rw [hnew.memMap_eq]
    apply Function.update_of_ne
    intro heq
    rw [heq, Nat.add_sub_cancel' hlow] at hnr
    exact hnr hnew.managed_page
  . intro d _
    unfold Memory.dir
    rw [hnew.ram_eq, Function.update_of_ne (Ne.symm (ne_zero_of_low hlow))]
  . intro g _ hg _
    exact hne g hg
  . intro g _ hg i
    exact .inl (congrFun (hne g hg) i)

theorem copyEntry_within (h : m.Counted held managed) {d' : PageIndex} {t t' : Nat} (ht' : m.userTable d' = some t')
    (hfree : free t') {l : List PageIndex} (hsource : Source m t d' l)
    (hparent : ∀ d, m.userTable d = some t → source t) {i : PageIndex} (hi : i ∈ l)
    : Within managed free source block m (Memory.copyEntry t t' m i) := by
  have hzero := h.table_ne_zero ht'
  unfold Memory.copyEntry
  split
  . next hp =>
    dsimp only
    have hfr := Entry.frame_clear (m.ram t i)
    by_cases hlow : lowFrame ≤ Entry.frame (m.ram t i)
    . rcases hsource with ⟨d, ht, hne, _⟩ | ⟨rfl, hsmall⟩
      . have htt : t ≠ t' := by
          intro heq
          subst heq
          exact hne (h.table_inj ht' ht)
        have hmanaged : managed (Entry.frame (m.ram t i)) := by
          apply h.exact.managed_of_frame (.page (d, i))
          exact counted_frame.mpr ⟨by rw [m.frame_page ht, Entry.target_of_present hp], hlow⟩
        rw [if_pos (Entry.low_lt (hfr ▸ hlow) ((Entry.present_clear _).trans hp)), Entry.mapNr_eq (hfr ▸ hlow), hfr]
        have hprotect : Within managed free source block (m.setEntry t' i (m.ram t i &&& ~~~2))
            ((m.setEntry t' i (m.ram t i &&& ~~~2)).setEntry t i (m.ram t i &&& ~~~2)) := by
          have hram := congrFun (ram_setEntry_of_ne m htt i (m.ram t i &&& ~~~2)) i
          generalize m.setEntry t' i (m.ram t i &&& ~~~2) = m₁ at hram ⊢
          rw [← hram]
          exact Within.protect _ (h.table_ne_zero ht) (hparent d ht) i
        exact ((Within.setEntry m hzero hfree i _).trans hprotect).trans (Within.setMap _ hlow hmanaged _)
      . have hlt := hsmall i hi
        rw [h.pg0 i hlt, Entry.frame_make (by omega)] at hlow
        unfold lowFrame at hlow
        omega
    . rw [if_neg (not_low_lt (by rw [hfr]; omega))]
      exact Within.setEntry m hzero hfree i _
  . exact Within.refl m

theorem copyEntries_within (h : m.Counted held managed) {d' : PageIndex} {t t' : Nat} (ht' : m.userTable d' = some t')
    (hfree : free t') {l : List PageIndex} (hsource : Source m t d' l) (hparent : ∀ d, m.userTable d = some t → source t)
    (hnodup : l.Nodup) (hblank : ∀ i ∈ l, m.ram t' i = 0)
    : Within managed free source block m (l.foldl (Memory.copyEntry t t') m) := by
  induction l generalizing m with
  | nil => exact Within.refl m
  | cons j l ih =>
    rw [List.nodup_cons] at hnodup
    obtain ⟨hcounted, htable, hram⟩ := h.copySource ht' hsource List.mem_cons_self (hblank j List.mem_cons_self)
    refine (h.copyEntry_within ht' hfree hsource hparent List.mem_cons_self).trans ?_
    apply ih hcounted (htable ▸ ht') (hsource.tail htable) (htable ▸ hparent) hnodup.right
    intro i hi
    have hij : i ≠ j := by
      intro heq
      exact hnodup.left (heq ▸ hi)
    rw [hram i hij]
    exact hblank i (List.mem_cons_of_mem j hi)

theorem copyTable_within {nr : Nat} (h : m.Counted held managed) {d d' : PageIndex} (hd' : 16 ≤ d'.val)
    (hsource : 16 ≤ d.val ∧ d.val % 16 = d'.val % 16 ∨ d = 0 ∧ nr = 0xA0)
    (hfree : ∀ f m₁, m.getFreePage = some (f, m₁) → free f) (hparent : ∀ t, m.userTable d = some t → source t)
    (hok : Memory.copyTable nr m d d' = .ok m')
    : Within managed free source (· = d') m m'
        ∧ (m'.dir d' = m.dir d' ∨ ∃ t, free t ∧ m'.dir d' = Entry.make t ∧ t < 2 ^ 20) := by
  unfold Memory.copyTable at hok
  split at hok
  . cases hok
  . next hto =>
    rw [Bool.not_eq_true] at hto
    have hnone := userTable_eq_none hto
    split at hok
    . next hfrom =>
      dsimp only at hok
      split at hok
      . cases hok
      . next t' m₁ hget =>
        have hnew := h.getFreePage hget
        have hfree' := hfree t' m₁ hget
        obtain ⟨hlow, hbound⟩ := hnew.counted.page_bound List.mem_cons_self
        obtain ⟨hcounted, htable, hblank, _⟩ := h.newTable hd' hnone hnew
        have ht' : (m₁.setEntry 0 d' (Entry.make t')).userTable d' = some t' := by
          rw [htable, Function.update_self]
        have hlist : Source (m₁.setEntry 0 d' (Entry.make t')) (m.table d) d' ((List.finRange 1024).take nr) := by
          rcases hsource with ⟨hd, hplace⟩ | ⟨rfl, rfl⟩
          . have hne : d ≠ d' := by
              intro heq
              rw [heq, hto] at hfrom
              cases hfrom
            refine .inl ⟨d, ?_, hne, hplace⟩
            rw [htable, Function.update_of_ne hne]
            exact userTable_eq_some hd hfrom
          . refine .inr ⟨?_, fun i hi => lt_of_mem_take hi⟩
            unfold Memory.table
            rw [h.pgDir, Entry.frame_make (by omega)]
        have hsrc : ∀ e, (m₁.setEntry 0 d' (Entry.make t')).userTable e = some (m.table d) → source (m.table d) := by
          intro e he
          rcases hsource with ⟨hd, _⟩ | ⟨rfl, _⟩
          . exact hparent _ (userTable_eq_some hd hfrom)
          . apply absurd _ (hcounted.table_ne_one he)
            unfold Memory.table
            rw [h.pgDir, Entry.frame_make (by omega)]
        have hentries : Within managed free source (fun _ => False) (m₁.setEntry 0 d' (Entry.make t')) m' := by
          rw [Except.ok.injEq] at hok
          rw [← hok]
          apply hcounted.copyEntries_within ht' hfree' hlist hsrc
          . exact (List.nodup_finRange 1024).sublist (List.take_sublist _ _)
          . intro i _
            exact hblank i
        refine ⟨?_, .inr ⟨t', hfree', ?_, hbound⟩⟩
        . have hdir : Within managed free source (fun e => e = d') m₁ (m₁.setEntry 0 d' (Entry.make t')) := by
            apply Within.setDir
            rfl
          exact ((hnew.within hlow hfree').trans hdir).trans
            (hentries.mono (fun _ => id) (fun _ => id) fun _ => False.elim)
        . rw [hentries.dir d' id]
          unfold Memory.dir
          rw [ram_setEntry, Function.update_self]
    . rw [Except.ok.injEq] at hok
      exact hok ▸ ⟨Within.refl m, .inl rfl⟩

theorem copyTable_error {nr : Nat} {d d' : PageIndex} {e : MemError} (hd' : m.dir d' = 0)
    (herror : Memory.copyTable nr m d d' = .error e)
    : e = .outOfMemory := by
  unfold Memory.copyTable at herror
  rw [hd', Entry.present_zero, if_neg Bool.false_ne_true] at herror
  split at herror
  . dsimp only at herror
    split at herror
    . exact (Except.error.inj herror).symm
    . cases herror
  . cases herror

theorem freePage_within {f : Nat} (hf : lowFrame ≤ f → managed f) (hok : m.freePage f = .ok m')
    : Within managed free source block m m' := by
  unfold Memory.freePage at hok
  split at hok
  . cases hok
    exact Within.refl m
  . next hlow =>
    split at hok
    . cases hok
    . split at hok
      . cases hok
        exact Within.setMap m (Nat.not_lt.mp hlow) (hf (Nat.not_lt.mp hlow)) _
      . cases hok

theorem freeEntry_within (h : m.Counted held managed) {d : PageIndex} {t : Nat} (ht : m.userTable d = some t)
    (hfree : free t) {i : PageIndex} (hok : Memory.freeEntry t m i = .ok m')
    : Within managed free source block m m' := by
  unfold Memory.freeEntry at hok
  split at hok
  . next hp =>
    cases hpage : m.freePage (Entry.frame (m.ram t i)) with
    | error e =>
      rw [hpage] at hok
      cases hok
    | ok m₁ =>
      rw [hpage] at hok
      cases hok
      have hmanaged : lowFrame ≤ Entry.frame (m.ram t i) → managed (Entry.frame (m.ram t i)) := by
        intro hlow
        apply h.exact.managed_of_frame (.page (d, i))
        exact counted_frame.mpr ⟨by rw [m.frame_page ht, Entry.target_of_present hp], hlow⟩
      exact (freePage_within hmanaged hpage).trans (Within.setEntry m₁ (h.table_ne_zero ht) hfree i 0)
  . cases hok
    exact Within.setEntry m (h.table_ne_zero ht) hfree i 0

theorem freeEntries_within (h : m.Counted held managed) {d : PageIndex} {t : Nat} (ht : m.userTable d = some t)
    (hfree : free t) {l : List PageIndex} (hok : l.foldlM (Memory.freeEntry t) m = .ok m')
    : Within managed free source block m m' := by
  induction l generalizing m with
  | nil =>
    cases hok
    exact Within.refl _
  | cons j l ih =>
    obtain ⟨m₁, hok₁, hcounted, htable, _⟩ := h.freeEntry ht j
    rw [List.foldlM_cons, hok₁] at hok
    exact (h.freeEntry_within ht hfree hok₁).trans (ih hcounted (htable ▸ ht) hok)

theorem freeTable_within (h : m.Counted held managed) (hclean : m.Clean) {d : PageIndex} (hd : 16 ≤ d.val)
    (hfree : ∀ t, m.userTable d = some t → free t) (hok : m.freeTable d = .ok m')
    : m'.Counted held managed ∧ Within managed free source (fun e => e = d) m m' ∧ m'.dir d = 0 := by
  refine ⟨?_, ?_⟩
  . obtain ⟨m₁, hok₁, hcounted⟩ := h.freeTable hd
    rw [hok₁, Except.ok.injEq] at hok
    exact hok ▸ hcounted
  . unfold Memory.freeTable at hok
    by_cases hp : Entry.present (m.dir d) = true
    . have ht : m.userTable d = some (m.table d) := userTable_eq_some hd hp
      obtain ⟨m₁, hok₁, hcounted, htable, _⟩ := h.freeEntries ht (List.finRange 1024)
      have hentries : Within managed free source (fun e => e = d) m m₁ := h.freeEntries_within ht (hfree _ ht) hok₁
      have ht₁ : m₁.userTable d = some (m₁.table d) := by
        apply userTable_eq_some hd
        have hsome := htable ▸ ht
        unfold userTable at hsome
        rw [if_pos hd] at hsome
        exact (Entry.target_eq_some hsome).left
      simp only [hp, Bool.not_true, Bool.false_eq_true, if_false] at hok
      rw [hok₁] at hok
      replace hok : (m₁.freePage (m₁.table d) >>= fun m => pure (m.setEntry 0 d 0)) = .ok m' := hok
      cases hpage : m₁.freePage (m₁.table d) with
      | error e =>
        rw [hpage] at hok
        cases hok
      | ok m₂ =>
        rw [hpage] at hok
        cases hok
        have hmanaged : lowFrame ≤ m₁.table d → managed (m₁.table d) := by
          intro _
          exact hcounted.exact.managed_of_frame _ _ (hcounted.table_frame ht₁)
        have hdir : Within managed free source (fun e => e = d) m₂ (m₂.setEntry 0 d 0) := by
          apply Within.setDir
          rfl
        refine ⟨(hentries.trans (freePage_within hmanaged hpage)).trans hdir, ?_⟩
        unfold Memory.dir
        rw [ram_setEntry, Function.update_self]
    . simp only [hp, Bool.not_false, if_true] at hok
      cases hok
      exact ⟨Within.refl m, hclean d hd ((Bool.not_eq_true _).mp hp)⟩

theorem freeTables_within {x : Nat} {js : List Nat} (h : m.Counted held managed) (hclean : m.Clean) (hx : 16 ≤ x)
    (hblock : ∀ j ∈ js, ∀ d, dirAt (x + j) = .ok d → block d)
    (hfree : ∀ d, block d → ∀ t, m.userTable d = some t → free t)
    (hok : js.foldlM (fun m j => do m.freeTable (← dirAt (x + j))) m = .ok m')
    : m'.Counted held managed ∧ m'.Clean ∧ Within managed free source block m m'
        ∧ (∀ d, m'.dir d = m.dir d ∨ m'.dir d = 0) ∧ ∀ j ∈ js, ∀ d, dirAt (x + j) = .ok d → m'.dir d = 0 := by
  induction js generalizing m with
  | nil =>
    cases hok
    exact ⟨h, hclean, Within.refl _, fun _ => .inl rfl, fun j hj => by cases hj⟩
  | cons j js ih =>
    rw [List.foldlM_cons] at hok
    cases hd : dirAt (x + j) with
    | error e =>
      rw [hd] at hok
      cases hok
    | ok d =>
      rw [hd] at hok
      replace hok : (m.freeTable d >>= fun m => js.foldlM (fun m j => do m.freeTable (← dirAt (x + j))) m) = .ok m' := hok
      cases htable : m.freeTable d with
      | error e =>
        rw [htable] at hok
        cases hok
      | ok m₁ =>
        rw [htable] at hok
        have hval := dirAt_val hd
        have hd' := hblock j List.mem_cons_self d hd
        obtain ⟨h₁, hwithin₁, hzero₁⟩ :
            m₁.Counted held managed ∧ Within managed free source (fun e => e = d) m m₁ ∧ m₁.dir d = 0 :=
          h.freeTable_within hclean (by omega) (hfree d hd') htable
        have hdir₁ : ∀ e, m₁.dir e = m.dir e ∨ m₁.dir e = 0 := by
          intro e
          by_cases he : e = d
          . exact .inr (he ▸ hzero₁)
          . exact .inl (hwithin₁.dir e he)
        have hclean₁ : m₁.Clean := by
          intro e he hp
          rcases hdir₁ e with hsame | hzero
          . rw [hsame] at hp ⊢
            exact hclean e he hp
          . exact hzero
        have hfree₁ : ∀ e, block e → ∀ t, m₁.userTable e = some t → free t := by
          intro e he t ht
          apply hfree e he t
          rcases hdir₁ e with hsame | hzero
          . unfold userTable at ht ⊢
            rwa [hsame] at ht
          . unfold userTable at ht
            rw [hzero, Entry.target_zero, ite_self] at ht
            cases ht
        obtain ⟨h', hclean', hwithin', hdir', hzero'⟩ :=
          ih h₁ hclean₁ (fun k hk => hblock k (List.mem_cons_of_mem j hk)) hfree₁ hok
        refine ⟨h', hclean', ?_, ?_, ?_⟩
        . exact (hwithin₁.mono (fun _ => id) (fun _ => id) fun e he => he ▸ hd').trans hwithin'
        . intro e
          rcases hdir' e with hsame | hzero
          . rw [hsame]
            exact hdir₁ e
          . exact .inr hzero
        . intro k hk e he
          rcases List.mem_cons.mp hk with rfl | hk
          . have heq : e = d := Except.ok.inj (he.symm.trans hd)
            rcases hdir' e with hsame | hzero
            . rw [hsame, heq, hzero₁]
            . exact hzero
          . exact hzero' k hk e he

theorem le_dirOf_base (nr : UserSlot) : 16 ≤ (dirOf nr.base).val := by
  have hval := dirAt_val (nr.dirAt_base (j := 0) (by omega))
  have hle := nr.le_block (j := 0) (by omega)
  omega

theorem freePageTables_within (h : m.Counted held managed) (hclean : m.Clean) (nr : UserSlot) {size : Word}
    (hblock : ∀ j, j < Memory.tables size → ∀ d, dirAt ((dirOf nr.base).val + j) = .ok d → block d)
    (hfree : ∀ d, block d → ∀ t, m.userTable d = some t → free t) (hok : m.freePageTables nr.base size = .ok m')
    : m'.Counted held managed ∧ m'.Clean ∧ Within managed free source block m m'
        ∧ (∀ d, m'.dir d = m.dir d ∨ m'.dir d = 0)
        ∧ ∀ j, j < Memory.tables size → ∀ d, dirAt ((dirOf nr.base).val + j) = .ok d → m'.dir d = 0 := by
  unfold Memory.freePageTables at hok
  simp only [nr.base_aligned, nr.base_ne_zero, ne_eq, not_true_eq_false, if_false] at hok
  obtain ⟨hcounted, hclean', hwithin, hdirs, hcleared⟩ :
      m'.Counted held managed ∧ m'.Clean ∧ Within managed free source block m m'
        ∧ (∀ d, m'.dir d = m.dir d ∨ m'.dir d = 0)
        ∧ ∀ j ∈ List.range (Memory.tables size), ∀ d, dirAt ((dirOf nr.base).val + j) = .ok d → m'.dir d = 0 := by
    apply h.freeTables_within hclean (le_dirOf_base nr) _ hfree hok
    intro j hj
    exact hblock j (List.mem_range.mp hj)
  refine ⟨hcounted, hclean', hwithin, hdirs, ?_⟩
  intro j hj
  exact hcleared j (List.mem_range.mpr hj)

theorem putPage_enters (h : m.Counted held managed) {address : UserAddress} {page : Nat}
    (hok : m.putPage page address.val = .ok m')
    : Enters m m' (dirOf address.val) := by
  unfold Memory.putPage at hok
  split at hok
  . next hdir =>
    cases hok
    exact Enters.of_eq (dir_setEntry m (h.table_ne_zero (userTable_eq_some address.le_dirOf hdir)) _ _) _
  . split at hok
    . cases hok
    . next t m₁ hfree =>
      cases hok
      have hlow := (h.range t (h.getFreePage hfree).managed_page).left
      exact enters_newTable hfree (dir_setEntry _ (ne_zero_of_low hlow) _ _)

theorem unWpPage_dir (h : m.Counted held managed) {d : PageIndex} {t : Nat} (ht : m.userTable d = some t)
    {i : PageIndex} (hok : m.unWpPage t i = .ok m')
    : m'.dir = m.dir := by
  have hzero := h.table_ne_zero ht
  unfold Memory.unWpPage at hok
  dsimp only at hok
  split at hok
  . cases hok
    exact dir_setEntry m hzero _ _
  . split at hok
    . cases hok
    . next new m₁ hfree =>
      cases hok
      have hlow := (h.range new (h.getFreePage hfree).managed_page).left
      rw [dir_setPage _ (ne_zero_of_low hlow), dir_setEntry _ hzero, ← dir_getFreePage hfree]
      split <;> rfl

theorem shareEntry_dir {fromTable toTable : Nat} {i : PageIndex} {b : Bool} (hfrom : fromTable ≠ 0) (hto : toTable ≠ 0)
    (hok : m.shareEntry fromTable toTable i = .ok (b, m'))
    : m'.dir = m.dir := by
  unfold Memory.shareEntry at hok
  split at hok
  . cases hok
  . cases hok
    exact (dir_setEntry _ hto _ _).trans (dir_setEntry m hfrom _ _)

theorem tryToShare_enters (h : m.Counted held managed) (address : DataAddress) {p current : UserSlot} {b : Bool}
    (hok : m.tryToShare address.val p.base current.base = .ok (b, m'))
    : Enters m m' (current.block (dirOf address.val).val) := by
  have hlt := dirOf_data address
  have hfrom := p.le_block hlt
  have hto := current.le_block hlt
  unfold Memory.tryToShare at hok
  rw [Nat.add_comm, p.dirAt_base hlt, Nat.add_comm, current.dirAt_base hlt] at hok
  generalize p.block (dirOf address.val).val = d at hok hfrom
  generalize current.block (dirOf address.val).val = d' at hok hto ⊢
  simp only [bind, Except.bind, pure, Except.pure] at hok
  split at hok
  . cases hok
    exact Enters.of_eq rfl _
  . next hdir =>
    have hdir : Entry.present (m.dir d) = true := by simpa using hdir
    have hzero := h.table_ne_zero (userTable_eq_some hfrom hdir)
    split at hok
    . cases hok
      exact Enters.of_eq rfl _
    . split at hok
      . cases hok
        exact Enters.of_eq rfl _
      . split at hok
        . next hdir' =>
          exact Enters.of_eq (shareEntry_dir hzero (h.table_ne_zero (userTable_eq_some hto hdir')) hok) _
        . split at hok
          . cases hok
          . next t' m₁ hfree =>
            have hlow := (h.range t' (h.getFreePage hfree).managed_page).left
            exact enters_newTable hfree (shareEntry_dir hzero (ne_zero_of_low hlow) hok)

end Counted
end counted
end Memory
end OS
