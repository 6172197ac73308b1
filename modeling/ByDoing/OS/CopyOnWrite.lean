import ByDoing.OS.PageOps

namespace OS

namespace Memory

theorem Sane.mapping_moved {m m₁ m' : Memory} (h : m.Sane) {d : PageIndex} {t : Nat} (ht : m.userTable d = some t)
    {i : PageIndex} {f new : Nat} (hframe : m.mapping.frame (.page (d, i)) = some f) (hfresh : m.Fresh new m₁)
    (hm' : m' = ((m₁.setMap (f - lowFrame) (m₁.memMap (f - lowFrame) - 1)).setEntry t i (Entry.make new)).setPage
      new (m.ram f))
    : m'.userTable = m.userTable ∧ m'.mapping = m.mapping.move (.page (d, i)) f new := by
  obtain ⟨hlow, hhigh⟩ := h.range _ f hframe
  have hzero := h.table_ne_zero ht
  have hnew : new ≠ 0 := ne_zero_of_low hfresh.low
  have hcount : (m.mapping.reserve new).count f = m.mapping.count f :=
    Function.update_of_ne (hfresh.ne hframe) _ _
  have hcount₁ : (m₁.memMap (f - lowFrame)).toNat = m.mapping.count f := by
    rw [← count_eq (m := m₁) hlow, hfresh.mapping, hcount]
  have hpos : 0 < (m₁.memMap (f - lowFrame)).toNat := by
    rw [hcount₁]
    exact h.sound.count_pos hframe
  have hentry : ((m₁.setMap (f - lowFrame) (m₁.memMap (f - lowFrame) - 1)).setEntry t i (Entry.make new)).mapping
      = m.mapping.move (.page (d, i)) f new := by
    rw [mapping_setEntry (m := m₁.setMap _ _) (hfresh.userTable ▸ ht) hzero, mapping_setMap m₁ hlow, hfresh.mapping,
      Entry.target_make (lt_of_high h hfresh.high), Entry.writable_make, toNat_sub_one hpos, hcount₁]
    . unfold Sharing.Mapping.move Sharing.Mapping.attach Sharing.Mapping.drop Sharing.Mapping.clear
      simp only [Sharing.Mapping.mk.injEq, Function.update_idem, true_and]
      rw [hcount]
    . intro e he
      exact h.table_inj ht (hfresh.userTable ▸ he)
  have htable : ((m₁.setMap (f - lowFrame) (m₁.memMap (f - lowFrame) - 1)).setEntry t i
      (Entry.make new)).userTable = m.userTable :=
    (userTable_setPage (m₁.setMap _ _) hzero _).trans hfresh.userTable
  constructor
  . rw [hm', userTable_setPage _ hnew, htable]
  . rw [hm', mapping_setPage hnew, hentry]
    intro e
    rw [htable]
    exact hfresh.unused (.table e)

theorem Sane.moveEntry {m m₁ m' : Memory} (h : m.Sane) {d : PageIndex} {t : Nat} (ht : m.userTable d = some t)
    {i : PageIndex} {f new : Nat} (hframe : m.mapping.frame (.page (d, i)) = some f) (hfresh : m.Fresh new m₁)
    (hm' : m' = ((m₁.setMap (f - lowFrame) (m₁.memMap (f - lowFrame) - 1)).setEntry t i (Entry.make new)).setPage
      new (m.ram f))
    : m'.Sane ∧ m'.userTable = m.userTable ∧ m'.view = m.view
        ∧ m'.mapping.writable (.page (d, i)) = true := by
  obtain ⟨htable, hmapping⟩ := h.mapping_moved ht hframe hfresh hm'
  obtain ⟨hlow, hhigh⟩ := h.range _ f hframe
  have hcases : ∀ j g, m'.mapping.frame j = some g → j = .page (d, i) ∧ g = new ∨ m.mapping.frame j = some g := by
    intro j g hj
    rw [hmapping] at hj
    exact Sharing.Mapping.frame_move hj
  have hsane : m'.Sane := by
    apply h.grow (hmapping ▸ h.sound.move hframe hfresh.unused) hcases hfresh.low hfresh.high
    . intro nr hnr hmem
      rw [← hfresh.highMemory]
      rw [hm'] at hmem
      exact hfresh.sane.free_setMap hlow (hfresh.highMemory ▸ hhigh) hnr hmem
    . rw [hm']
      exact hfresh.highMemory
    . intro e j _ e' j' he'
      exact absurd he' (hfresh.unused _)
  refine ⟨hsane, htable, ?_, ?_⟩
  . funext k
    unfold view
    rw [hmapping]
    apply Sharing.Mapping.view_move hframe
    . rw [hm', ram_setPage]
    . intro g hg
      rw [hm', ram_setPage_of_ne _ (hfresh.ne hg), ram_setEntry_of_ne _ (h.page_ne_table ht hg)]
      exact hfresh.ram_of_ne (hfresh.ne hg)
  . rw [hmapping]
    exact Function.update_self _ _ _

theorem Sane.unWpPage {m : Memory} (h : m.Sane) {d : PageIndex} {t : Nat} (ht : m.userTable d = some t)
    {i : PageIndex} {f : Nat} (hframe : m.mapping.frame (.page (d, i)) = some f)
    : (m.unWpPage t i = .error .outOfMemory ∧ m.freePages = 0)
        ∨ ∃ m', m.unWpPage t i = .ok m' ∧ m'.Sane ∧ m'.userTable = m.userTable ∧ m'.view = m.view
          ∧ m'.mapping.writable (.page (d, i)) = true ∧ m.freePages ≤ m'.freePages + 1 := by
  obtain ⟨hlow, hhigh⟩ := h.range _ f hframe
  have hentry : Entry.frame (m.ram t i) = f := by
    rw [m.frame_page ht] at hframe
    exact (Entry.target_eq_some hframe).right
  unfold Memory.unWpPage
  dsimp only
  rw [hentry]
  by_cases hone : m.memMap (f - lowFrame) = 1
  . rw [if_pos ⟨hlow, hone⟩]
    have hcount : m.mapping.count f = 1 := by
      rw [count_eq hlow, hone]
      rfl
    obtain ⟨hsane, htable, hview, hwritable⟩ := h.ownEntry ht hframe hcount
    refine .inr ⟨_, rfl, hsane, htable, hview, hwritable, ?_⟩
    rw [freePages_setEntry]
    exact Nat.le_succ _
  . rw [if_neg fun hboth => hone hboth.right]
    cases hfree : m.getFreePage with
    | none => exact .inl ⟨rfl, freePages_of_none hfree⟩
    | some new =>
      obtain ⟨new, m₁⟩ := new
      have hfresh := h.getFreePage hfree
      dsimp only
      rw [if_pos hlow]
      have hframe₁ : m₁.mapping.frame (.page (d, i)) = some f := by
        rw [hfresh.mapping]
        exact hframe
      -- The old page is read after the entry has been changed, but it is not the page table.
      have hram : ((m₁.setMap (f - lowFrame) (m₁.memMap (f - lowFrame) - 1)).setEntry t i (Entry.make new)).ram f
          = m.ram f := by
        rw [ram_setEntry_of_ne _ (h.page_ne_table ht hframe)]
        exact hfresh.ram_of_ne (hfresh.ne hframe)
      rw [hram]
      obtain ⟨hsane, htable, hview, hwritable⟩ := h.moveEntry ht hframe hfresh rfl
      refine .inr ⟨_, rfl, hsane, htable, hview, hwritable, ?_⟩
      rw [hfresh.freePages]
      apply Nat.add_le_add_right
      apply freePages_mono
      intro nr hnr
      exact hfresh.sane.zero_setMap hframe₁ _ hnr

theorem translate_cases (m : Memory) (address : UserAddress)
    : (m.translate address.val = none ∧ m.mapping.frame (.page address.key) = none)
        ∨ ∃ entry, m.translate address.val = some entry
          ∧ m.userTable (dirOf address.val) = some (m.table (dirOf address.val))
          ∧ m.ram (m.table (dirOf address.val)) (entryOf address.val) = entry
          ∧ m.mapping.frame (.page address.key) = some (Entry.frame entry)
          ∧ m.mapping.writable (.page address.key) = Entry.writable entry := by
  unfold translate UserAddress.key
  cases hdir : Entry.present (m.dir (dirOf address.val)) with
  | false =>
    left
    exact ⟨rfl, lookup_of_none (userTable_eq_none hdir) _⟩
  | true =>
    have ht := userTable_eq_some address.le_dirOf hdir
    rw [m.frame_page ht, m.writable_page ht]
    cases hp : Entry.present (m.ram (m.table (dirOf address.val)) (entryOf address.val)) with
    | false =>
      left
      refine ⟨by simp [hp], ?_⟩
      unfold Entry.target
      rw [hp]
      rfl
    | true =>
      right
      exact ⟨_, by simp [hp], ht, rfl, Entry.target_of_present hp, rfl⟩

theorem readByte_eq (m : Memory) (address : UserAddress) : m.readByte address.val = m.space.readByte address := by
  unfold readByte Space.readByte
  rcases m.translate_cases address with ⟨htranslate, hframe⟩ | ⟨entry, htranslate, _, _, hframe, _⟩
  . rw [htranslate, show m.space.page address.key = none from view_of_no_frame hframe]
    rfl
  . rw [htranslate, show m.space.page address.key = _ from view_of_frame hframe]
    rfl

theorem Sane.storeByte {m : Memory} (h : m.Sane) {address : UserAddress} {c : Contents}
    (hview : m.view address.key = some c) (hwritable : m.mapping.writable (.page address.key) = true) (byte : BitVec 8)
    : ∃ m', m.storeByte address.val byte = .ok m' ∧ m'.Sane ∧ m'.userTable = m.userTable
        ∧ m'.view = Function.update m.view address.key (some (setByteAt c (offsetOf address.val) byte))
        ∧ m'.memMap = m.memMap := by
  unfold Memory.storeByte
  rcases m.translate_cases address with ⟨_, hframe⟩ | ⟨entry, htranslate, ht, _, hframe, _⟩
  . rw [view_of_no_frame hframe] at hview
    cases hview
  . rw [view_of_frame hframe, Option.some.injEq] at hview
    rw [htranslate]
    dsimp only
    rw [hview]
    generalize Entry.frame entry = f at hframe hview
    have hzero : f ≠ 0 := h.page_ne_zero hframe
    have hnot : ∀ d, m.userTable d ≠ some f := by
      intro d hd
      exact h.page_ne_table hd hframe rfl
    have hmapping := mapping_setPage hzero hnot (setByteAt c (offsetOf address.val) byte)
    refine ⟨_, rfl, ?_, userTable_setPage m hzero _, ?_, rfl⟩
    . apply h.shrink
      . rw [hmapping]
        exact h.sound
      . rw [hmapping]
        exact fun _ _ hk => hk
      . exact h.free
      . rfl
    . funext k
      unfold view
      rw [hmapping]
      by_cases hk : k = address.key
      . rw [hk, Function.update_self]
        unfold Sharing.Mapping.view
        rw [hframe, Option.map_some, ram_setPage]
      . rw [Function.update_of_ne hk]
        apply Sharing.Mapping.view_congr
        intro g hg
        apply ram_setPage_of_ne
        -- The page may be written, so its frame is in no other place.
        intro heq
        have hsame := h.sound.exclusive _ _ f hwritable hframe (heq ▸ hg)
        exact hk (PageKey.page.inj hsame)

theorem Sane.storeByte_agrees {m m₁ : Memory} (h : m₁.Sane) {address : UserAddress} {c : Contents}
    (hview : m.view address.key = some c) (htable : m₁.userTable = m.userTable) (hview₁ : m₁.view = m.view)
    (hwritable : m₁.mapping.writable (.page address.key) = true) (hleft : m.freePages ≤ m₁.freePages + 1)
    (byte : BitVec 8)
    : paging.Agree 1 m (m₁.storeByte address.val byte) (m.space.writeByte address byte) := by
  obtain ⟨m', hok, hsane, htable', hview', hmem⟩ := h.storeByte (hview₁ ▸ hview) hwritable byte
  unfold Space.writeByte
  rw [hok, show m.space.page address.key = some c from hview]
  apply Abstraction.Agree.ok hsane
  . apply space_eq
    . intro d
      rw [htable', htable]
      rfl
    . intro d i
      rw [hview', hview₁]
      rfl
  . have hsame : m'.freePages = m₁.freePages := freePages_congr fun nr => by rw [hmem]
    rw [paging_left, paging_left, hsame]
    exact hleft

theorem userWrite_refines (address : UserAddress) (byte : BitVec 8)
    : paging.Refines 1 (userWrite · address.val byte) (Space.writeByte · address byte) := by
  intro m h
  have hsane : m.Sane := h
  unfold userWrite
  dsimp only
  rcases m.translate_cases address with ⟨htranslate, hframe⟩ | ⟨entry, htranslate, ht, hentry, hframe, hwritable⟩
  . rw [htranslate]
    unfold Space.writeByte
    rw [show (paging.abs m).page address.key = none from view_of_no_frame hframe]
    exact .error _
  . rw [htranslate]
    dsimp only
    have hview := view_of_frame hframe
    cases hw : Entry.writable entry with
    | true => exact hsane.storeByte_agrees hview rfl rfl (hwritable.trans hw) (Nat.le_succ _) byte
    | false =>
      unfold doWpPage
      rcases hsane.unWpPage ht hframe with ⟨herror, hzero⟩ | ⟨m₁, hok, hsane₁, htable, hview₁, hwritable₁, hleft⟩
      . rw [herror]
        exact short_of_none hzero Nat.one_pos _ _
      . rw [hok]
        exact hsane₁.storeByte_agrees hview htable hview₁ hwritable₁ hleft byte

theorem Sane.writeVerify {m : Memory} (h : m.Sane) (address : UserAddress)
    : (m.writeVerify address.val = .error .outOfMemory ∧ m.freePages = 0)
        ∨ ∃ m', m.writeVerify address.val = .ok m' ∧ m'.Sane ∧ m'.userTable = m.userTable ∧ m'.view = m.view
          ∧ (∀ c, m.view address.key = some c → m'.mapping.writable (.page address.key) = true)
          ∧ m.freePages ≤ m'.freePages + 1 := by
  unfold Memory.writeVerify
  rcases m.translate_cases address with ⟨htranslate, hframe⟩ | ⟨entry, htranslate, ht, hentry, hframe, hwritable⟩
  . refine .inr ⟨m, ?_, h, rfl, rfl, ?_, Nat.le_succ _⟩
    . split
      . next hdir =>
        rw [if_neg]
        intro hreadOnly
        unfold translate at htranslate
        simp [hdir, ((Entry.readOnly_iff _).mp hreadOnly).left] at htranslate
      . rfl
    . intro c hc
      rw [view_of_no_frame hframe] at hc
      cases hc
  . have hdir : Entry.present (m.dir (dirOf address.val)) = true := by
      unfold translate at htranslate
      split at htranslate
      . assumption
      . cases htranslate
    have hpresent : Entry.present entry = true := by
      rw [UserAddress.key, m.frame_page ht, hentry] at hframe
      exact (Entry.target_eq_some hframe).left
    rw [if_pos hdir, hentry]
    by_cases hreadOnly : 3 &&& entry = 1
    . rw [if_pos hreadOnly]
      rcases h.unWpPage ht hframe with hshort | ⟨m', hok, hsane, htable, hview, hwritable', hleft⟩
      . exact .inl hshort
      . exact .inr ⟨m', hok, hsane, htable, hview, fun _ _ => hwritable', hleft⟩
    . rw [if_neg hreadOnly]
      refine .inr ⟨m, rfl, h, rfl, rfl, ?_, Nat.le_succ _⟩
      intro c _
      rw [hwritable]
      by_contra hw
      exact hreadOnly ((Entry.readOnly_iff entry).mpr ⟨hpresent, (Bool.not_eq_true _).mp hw⟩)

theorem writeVerify_refines (address : UserAddress) : paging.Refines 1 (Memory.writeVerify · address.val) .ok := by
  intro m h
  dsimp only
  rcases Sane.writeVerify h address with ⟨herror, hzero⟩ | ⟨m', hok, hsane, htable, hview, _, hleft⟩
  . rw [herror]
    exact short_of_none hzero Nat.one_pos _ _
  . rw [hok]
    apply Abstraction.Agree.ok hsane
    . apply space_eq
      . intro d
        rw [htable]
        rfl
      . intro d i
        rw [hview]
        rfl
    . exact hleft

theorem kernelWrite_refines (address : UserAddress) (byte : BitVec 8)
    : paging.Refines 1 (kernelWrite · address.val byte) (Space.writeByte · address byte) := by
  intro m h
  unfold kernelWrite
  dsimp only
  rcases Sane.writeVerify h address with ⟨herror, hzero⟩ | ⟨m₁, hok, hsane, htable, hview, hwritable, hleft⟩
  . rw [herror]
    exact short_of_none hzero Nat.one_pos _ _
  . rw [hok]
    cases hpage : m.view address.key with
    | some c => exact hsane.storeByte_agrees hpage htable hview (hwritable c hpage) hleft byte
    | none =>
      have htranslate : m₁.translate address.val = none := by
        rcases m₁.translate_cases address with ⟨htranslate, _⟩ | ⟨entry, _, _, _, hframe, _⟩
        . exact htranslate
        . rw [← hview, view_of_frame hframe] at hpage
          cases hpage
      show paging.Agree 1 m (m₁.storeByte address.val byte) _
      unfold Memory.storeByte Space.writeByte
      rw [htranslate, show (paging.abs m).page address.key = none from hpage]
      exact .error _

end Memory
end OS
