import ByDoing.NetWork.TcpServer

namespace NetWork
namespace TcpServer

def Has (s : TcpServer) (c : ChannelPtr) (fd : Int) (l : Nat) : Prop :=
  ∃ connection, s.connections[c]? = some connection ∧ connection.fd = fd ∧ connection.eventLoop = l

def Accounted (s : TcpServer) : Prop :=
  ∀ (c : ChannelPtr) (fd l : Nat), s.Has c fd l → (∀ type, (type, c) ∉ (s.loops l).pending) →
    (s.descriptors fd = some (.connection c) ↔ (s.loops l).loop.entry fd = some c)

def Ends : ServerAct → Prop
  | .readable _ _ n _ => n ≤ 0
  | .hangUp _ _ => True
  | _ => False

def Allocates : ServerAct → Prop
  | .establish _ memory => ∀ n, memory.grow n ≠ none
  | .drain _ memory => ∀ n, memory.grow n ≠ none
  | _ => True

structure OpenInv (s : TcpServer) : Prop where
  owned : ∀ (c : ChannelPtr) (fd l : Nat), s.Has c fd l → s.descriptors fd = some (.connection c)
  entry_has : ∀ (l fd : Nat) (c : ChannelPtr), (s.loops l).loop.entry fd = some c → s.Has c fd l
  pending_add : ∀ l, ∀ p ∈ (s.loops l).pending, p.fst = .add ∧ ∃ fd, s.Has p.snd fd l
  pending_fresh : ∀ l, ∀ p ∈ (s.loops l).pending, ∀ fd, (s.loops l).loop.entry fd ≠ some p.snd
  registered : ∀ (c : ChannelPtr) (fd l : Nat), s.Has c fd l → (.add, c) ∉ (s.loops l).pending →
    (s.loops l).loop.entry fd = some c
  watched : ∀ l fd, s.Watches l fd → (s.loops l).loop.entry fd ≠ none

variable {s s' : TcpServer}

theorem Has.channels_fd {c : ChannelPtr} {fd : Int} {l : Nat} (h : s.Has c fd l) : (s.channels c).fd = fd := by
  obtain ⟨connection, hconnection, hfd, _⟩ := h
  unfold channels
  rw [hconnection]
  exact hfd

theorem Has.lt_length {c : ChannelPtr} {fd : Int} {l : Nat} (h : s.Has c fd l) : c < s.connections.length := by
  obtain ⟨connection, hconnection, _⟩ := h
  exact (List.getElem?_eq_some_iff.mp hconnection).fst

theorem init_openInv (threadNumber data : Nat) (isOpen : Nat → Bool) : (init threadNumber data isOpen).OpenInv where
  owned := by simp [Has, init]
  entry_has := by simp [init, ChannelLoop.entry]
  pending_add := by simp [init]
  pending_fresh := by simp [init]
  registered := by simp [Has, init]
  watched := by simp [Watches, init]

theorem OpenInv.accounted (hinv : s.OpenInv) : s.Accounted := by
  intro c fd l hhas hpending
  exact iff_of_true (hinv.owned c fd l hhas) (hinv.registered c fd l hhas (hpending .add))

theorem handle_add {memory : MapMemory} {loop loop' : ChannelLoop Interest} {c : ChannelPtr}
    (h : s.handle memory loop (.add, c) = some loop')
    : (¬ loop.Registers memory s.channels c ∧ loop'.entry = loop.entry
        ∧ loop'.eventDispatcherData = loop.eventDispatcherData)
      ∨ (loop.Registers memory s.channels c
        ∧ loop'.entry = Function.update loop.entry (s.channels c).fd.toNat (some c)
        ∧ ∀ fd, fd ≠ (s.channels c).fd.toNat → loop'.eventDispatcherData fd = loop.eventDispatcherData fd) := by
  have h := ChannelLoop.next_eq_some_iff.mp h
  have hfits := (ChannelLoop.handlePending_eq_some_iff.mp ⟨loop', h⟩).left
  unfold ChannelLoop.handlePending at h
  dsimp only at h
  by_cases hreg : loop.Registers memory s.channels c
  . obtain ⟨_, hnone⟩ | ⟨loop'', hadd, hdata, hentry, _⟩ :=
      @ChannelLoop.handlePendingAdd_of_registers _ (Epoll.epollDispatcher s.descriptors) _ _ _ _ hreg
    . rw [hnone] at h
      simp at h
    . rw [hadd, Except.ok.injEq, Option.some.injEq] at h
      subst h
      refine .inr ⟨hreg, hentry, ?_⟩
      intro fd hne
      unfold Epoll.epollDispatcher Epoll.epollAdd at hdata
      dsimp only at hdata
      split at hdata
      . rw [Option.some.injEq] at hdata
        rw [← hdata, Function.update_of_ne hne]
      . simp at hdata
  . obtain ⟨loop'', hadd, hdata, hentry, _⟩ :=
      @ChannelLoop.handlePendingAdd_of_not_registers _ (Epoll.epollDispatcher s.descriptors) _ _ _ _ hfits hreg
    rw [hadd, Except.ok.injEq, Option.some.injEq] at h
    subst h
    exact .inl ⟨hreg, hentry, hdata⟩

/--
What a drain of `ps`, which only adds channels, keeps and adds.
-/
structure Drained (s : TcpServer) (ps : List (ElementType × ChannelPtr)) (loop loop' : ChannelLoop Interest) : Prop where
  entry_cases : ∀ fd c, loop'.entry fd = some c →
    loop.entry fd = some c ∨ ((.add, c) ∈ ps ∧ (s.channels c).fd = (fd : Int))
  entry_kept : ∀ fd, loop.entry fd ≠ none → loop'.entry fd ≠ none
  entry_added : ∀ c fd, (.add, c) ∈ ps → (s.channels c).fd = ((fd : Nat) : Int) → loop'.entry fd ≠ none
  watched : (∀ fd, loop.eventDispatcherData fd ≠ none → loop.entry fd ≠ none) →
    ∀ fd, loop'.eventDispatcherData fd ≠ none → loop'.entry fd ≠ none

theorem drained_cons {memory : MapMemory} (hgrow : ∀ n, memory.grow n ≠ none) {loop loop₁ loop' : ChannelLoop Interest}
    {c : ChannelPtr} {ps : List (ElementType × ChannelPtr)} (h : s.handle memory loop (.add, c) = some loop₁)
    (hrest : Drained s ps loop₁ loop')
    : Drained s ((.add, c) :: ps) loop loop' := by
  obtain ⟨hreg, hentry, hdata⟩ | ⟨hreg, hentry, hdata⟩ := handle_add h
  . constructor
    . intro fd c' hc'
      cases hrest.entry_cases fd c' hc' with
      | inl hold => exact .inl (hentry ▸ hold)
      | inr hnew => exact .inr ⟨List.mem_cons_of_mem _ hnew.left, hnew.right⟩
    . intro fd hne
      apply hrest.entry_kept
      rw [hentry]
      exact hne
    . intro c' fd hmem hfd
      cases List.mem_cons.mp hmem with
      | inl heq =>
        cases heq
        apply hrest.entry_kept
        rw [hentry]
        intro hnone
        apply hreg
        have hnonneg : 0 ≤ (s.channels c).fd := by omega
        have hhandle := ChannelLoop.next_eq_some_iff.mp h
        have hfits := (ChannelLoop.handlePending_eq_some_iff.mp ⟨loop₁, hhandle⟩).left
        refine ⟨hnonneg, ?_, ?_⟩
        . exact ChannelLoop.hasRoom_iff.mpr (ChannelLoop.mapMakeSpace_of_roomy hgrow (hfits hnonneg))
        . rw [hfd, Int.toNat_natCast]
          exact hnone
      | inr htail => exact hrest.entry_added c' fd htail hfd
    . intro hwatched
      apply hrest.watched
      rw [hentry, hdata]
      exact hwatched
  . have hself : loop₁.entry (s.channels c).fd.toNat = some c := by
      rw [hentry, Function.update_self]
    constructor
    . intro fd c' hc'
      cases hrest.entry_cases fd c' hc' with
      | inl hold =>
        by_cases heq : fd = (s.channels c).fd.toNat
        . subst heq
          rw [hself, Option.some.injEq] at hold
          subst hold
          exact .inr ⟨List.mem_cons_self, (Int.toNat_of_nonneg hreg.left).symm⟩
        . rw [hentry, Function.update_of_ne heq] at hold
          exact .inl hold
      | inr hnew => exact .inr ⟨List.mem_cons_of_mem _ hnew.left, hnew.right⟩
    . intro fd hne
      apply hrest.entry_kept
      by_cases heq : fd = (s.channels c).fd.toNat
      . rw [heq, hself]
        simp
      . rw [hentry, Function.update_of_ne heq]
        exact hne
    . intro c' fd hmem hfd
      cases List.mem_cons.mp hmem with
      | inl heq =>
        cases heq
        apply hrest.entry_kept
        rw [hfd, Int.toNat_natCast] at hself
        rw [hself]
        simp
      | inr htail => exact hrest.entry_added c' fd htail hfd
    . intro hwatched
      apply hrest.watched
      intro fd hne
      by_cases heq : fd = (s.channels c).fd.toNat
      . rw [heq, hself]
        simp
      . rw [hentry, Function.update_of_ne heq]
        rw [hdata fd heq] at hne
        exact hwatched fd hne

theorem drained_of_exec {memory : MapMemory} (hgrow : ∀ n, memory.grow n ≠ none) {loop loop' : ChannelLoop Interest}
    {ps : List (ElementType × ChannelPtr)} (hadd : ∀ p ∈ ps, p.fst = .add)
    (h : Run.exec (s.handle memory) loop ps = some loop')
    : Drained s ps loop loop' := by
  induction ps generalizing loop with
  | nil =>
    cases h
    constructor
    . exact fun _ _ hc => .inl hc
    . exact fun _ hne => hne
    . intro c fd hmem
      exact absurd hmem List.not_mem_nil
    . exact fun hwatched => hwatched
  | cons p ps ih =>
    obtain ⟨type, c⟩ := p
    have htype : type = .add := hadd (type, c) List.mem_cons_self
    subst htype
    unfold Run.exec at h
    split at h
    . next loop₁ hhandle =>
      exact drained_cons hgrow hhandle (ih (fun p hp => hadd p (List.mem_cons_of_mem _ hp)) h)
    . simp at h

theorem OpenInv.drain (hinv : s.OpenInv) {l : Nat} {memory : MapMemory} (hgrow : ∀ n, memory.grow n ≠ none)
    (h : s.eventLoopHandlePendingChannel l memory = some s')
    : s'.OpenInv := by
  obtain ⟨loop, hexec, rfl⟩ := eventLoopHandlePendingChannel_eq_some h
  have hdrained := drained_of_exec hgrow (fun p hp => (hinv.pending_add l p hp).left) hexec
  have hself : (s.setLoop l { loop, pending := [] }).loops l = { loop, pending := [] } := Function.update_self _ _ _
  have hother : ∀ l', l' ≠ l → (s.setLoop l { loop, pending := [] }).loops l' = s.loops l' :=
    fun l' hne => Function.update_of_ne hne _ _
  have hentry : ∀ fd c, loop.entry fd = some c → s.Has c fd l := by
    intro fd c hc
    cases hdrained.entry_cases fd c hc with
    | inl hold => exact hinv.entry_has l fd c hold
    | inr hnew =>
      obtain ⟨_, fd', hhas⟩ := hinv.pending_add l _ hnew.left
      rw [hhas.channels_fd] at hnew
      exact hnew.right ▸ hhas
  constructor
  . exact hinv.owned
  . intro l' fd c hc
    by_cases hl : l' = l
    . subst hl
      rw [hself] at hc
      exact hentry fd c hc
    . rw [hother l' hl] at hc
      exact hinv.entry_has l' fd c hc
  . intro l' p hp
    by_cases hl : l' = l
    . rw [hl, hself] at hp
      exact absurd hp List.not_mem_nil
    . rw [hother l' hl] at hp
      exact hinv.pending_add l' p hp
  . intro l' p hp
    by_cases hl : l' = l
    . rw [hl, hself] at hp
      exact absurd hp List.not_mem_nil
    . rw [hother l' hl] at hp ⊢
      exact hinv.pending_fresh l' p hp
  . intro c fd l' hhas hpending
    by_cases hl : l' = l
    . subst hl
      rw [hself]
      have hne : loop.entry fd ≠ none := by
        by_cases hmem : (.add, c) ∈ (s.loops l').pending
        . exact hdrained.entry_added c fd hmem (Has.channels_fd (s := s) hhas)
        . apply hdrained.entry_kept
          rw [hinv.registered c fd l' hhas hmem]
          simp
      -- The descriptor belongs to one connection only.
      obtain ⟨c', hc'⟩ := Option.ne_none_iff_exists'.mp hne
      have hsame := (hinv.owned c fd l' hhas).symm.trans (hinv.owned c' fd l' (hentry fd c' hc'))
      rw [Option.some.injEq, Descriptor.connection.injEq] at hsame
      rw [hc', hsame]
    . rw [hother l' hl] at hpending ⊢
      exact hinv.registered c fd l' hhas hpending
  . intro l' fd hwatches
    unfold Watches at hwatches
    by_cases hl : l' = l
    . subst hl
      rw [hself] at hwatches ⊢
      exact hdrained.watched (hinv.watched l') fd hwatches
    . rw [hother l' hl] at hwatches ⊢
      exact hinv.watched l' fd hwatches

def published (s : TcpServer) (fd : Int) : TcpServer :=
  let (l, position) := s.threadPoolGetLoop
  let c := s.connections.length
  { s with
    position
    connections := s.connections ++ [{ fd, eventLoop := l, data := none : ServerConnection }]
    loops := Function.update s.loops l { s.loops l with pending := (s.loops l).pending ++ [(.add, c)] }
    descriptors :=
      if 0 ≤ fd then Function.update s.descriptors fd.toNat (some (.connection c)) else s.descriptors
    acceptor := some c
  }

theorem establish_eq_some {fd : Int} {memory : MapMemory} (h : s.step (.establish fd memory) = some s')
    : (fd = -1 ∨ (0 ≤ fd ∧ s.descriptors fd.toNat = none))
      ∧ (s' = s.published fd
        ∨ (s.published fd).eventLoopHandlePendingChannel s.threadPoolGetLoop.fst memory = some s') := by
  unfold TcpServer.step at h
  dsimp only at h
  split at h
  . next hguard =>
    refine ⟨hguard.right, ?_⟩
    unfold handleConnectionEstablished eventLoopDoChannelEvent at h
    dsimp only at h
    split at h
    . exact .inr h
    . rw [Option.some.injEq] at h
      exact .inl h.symm
  . simp at h

theorem has_published_iff {fd fd' : Int} {c : ChannelPtr} {l : Nat}
    : (s.published fd).Has c fd' l ↔ s.Has c fd' l
      ∨ (c = s.connections.length ∧ fd' = fd ∧ l = s.threadPoolGetLoop.fst) := by
  unfold Has published
  dsimp only
  by_cases hlt : c < s.connections.length
  . rw [List.getElem?_append_left hlt]
    simp [Nat.ne_of_lt hlt]
  . rw [List.getElem?_eq_none (Nat.le_of_not_lt hlt)]
    by_cases heq : c = s.connections.length
    . subst heq
      simp [eq_comm]
    . have hle : (s.connections ++ [ServerConnection.mk fd s.threadPoolGetLoop.fst none]).length ≤ c := by
        rw [List.length_append, List.length_singleton]
        exact Nat.lt_of_le_of_ne (Nat.le_of_not_lt hlt) (Ne.symm heq)
      rw [List.getElem?_eq_none hle]
      simp [heq]

theorem OpenInv.published (hinv : s.OpenInv) {fd : Int} (hfd : fd = -1 ∨ (0 ≤ fd ∧ s.descriptors fd.toNat = none))
    : (s.published fd).OpenInv := by
  have hloop : ∀ l, ((s.published fd).loops l).loop = (s.loops l).loop := by
    intro l
    unfold TcpServer.published
    dsimp only
    by_cases hl : l = s.threadPoolGetLoop.fst
    . rw [hl, Function.update_self]
    . rw [Function.update_of_ne hl]
  have hpending : ∀ l, ((s.published fd).loops l).pending
      = (s.loops l).pending ++ if l = s.threadPoolGetLoop.fst then [(.add, s.connections.length)] else [] := by
    intro l
    unfold TcpServer.published
    dsimp only
    by_cases hl : l = s.threadPoolGetLoop.fst
    . rw [hl, Function.update_self, if_pos rfl]
    . rw [Function.update_of_ne hl, if_neg hl, List.append_nil]
  have hnew : ∀ fd l, ¬ s.Has s.connections.length fd l := fun fd l hhas => Nat.lt_irrefl _ hhas.lt_length
  constructor
  . intro c fd' l hhas
    unfold TcpServer.published
    dsimp only
    cases has_published_iff.mp hhas with
    | inl hold =>
      have howned := hinv.owned c fd' l hold
      split
      . next hnonneg =>
        rw [Function.update_of_ne]
        . exact howned
        . intro heq
          rw [heq] at howned
          cases hfd with
          | inl hneg => omega
          | inr hfree =>
            rw [hfree.right] at howned
            simp at howned
      . exact howned
    | inr hfresh =>
      obtain ⟨rfl, hfd', _⟩ := hfresh
      rw [if_pos (by omega), ← hfd', Int.toNat_natCast, Function.update_self]
  . intro l fd' c hc
    rw [hloop] at hc
    exact has_published_iff.mpr (.inl (hinv.entry_has l fd' c hc))
  . intro l p hp
    rw [hpending] at hp
    cases List.mem_append.mp hp with
    | inl hold =>
      obtain ⟨hadd, fd', hhas⟩ := hinv.pending_add l p hold
      exact ⟨hadd, fd', has_published_iff.mpr (.inl hhas)⟩
    | inr hfresh =>
      split at hfresh
      . next hl =>
        rw [List.mem_singleton.mp hfresh]
        exact ⟨rfl, fd, has_published_iff.mpr (.inr ⟨rfl, rfl, hl⟩)⟩
      . exact absurd hfresh List.not_mem_nil
  . intro l p hp fd' hc
    rw [hpending] at hp
    rw [hloop] at hc
    cases List.mem_append.mp hp with
    | inl hold => exact hinv.pending_fresh l p hold fd' hc
    | inr hfresh =>
      split at hfresh
      . rw [List.mem_singleton.mp hfresh] at hc
        exact hnew _ _ (hinv.entry_has l fd' _ hc)
      . exact absurd hfresh List.not_mem_nil
  . intro c fd' l hhas hmem
    rw [hpending] at hmem
    rw [hloop]
    cases has_published_iff.mp hhas with
    | inl hold => exact hinv.registered c fd' l hold fun hp => hmem (List.mem_append_left _ hp)
    | inr hfresh =>
      obtain ⟨rfl, _, hl⟩ := hfresh
      exact absurd (List.mem_append_right _ (by rw [if_pos hl]; exact List.mem_cons_self)) hmem
  . intro l fd' hwatches
    unfold Watches at hwatches
    rw [hloop] at hwatches ⊢
    exact hinv.watched l fd' hwatches

theorem OpenInv.setData (hinv : s.OpenInv) (h : s.step .setData = some s') : s'.OpenInv := by
  unfold TcpServer.step at h
  dsimp only at h
  split at h
  . simp at h
  . next c hc =>
    rw [Option.some.injEq] at h
    have hhas : ∀ c' fd l, s'.Has c' fd l ↔ s.Has c' fd l := by
      intro c' fd l
      subst h
      unfold Has
      dsimp only
      by_cases heq : c = c'
      . subst heq
        rw [List.getElem?_modify_eq]
        simp
      . rw [List.getElem?_modify_ne _ _ heq]
    subst h
    constructor
    . intro c' fd l hc'
      exact hinv.owned c' fd l ((hhas c' fd l).mp hc')
    . intro l fd c' hc'
      exact (hhas c' fd l).mpr (hinv.entry_has l fd c' hc')
    . intro l p hp
      obtain ⟨hadd, fd, hp'⟩ := hinv.pending_add l p hp
      exact ⟨hadd, fd, (hhas p.snd fd l).mpr hp'⟩
    . exact hinv.pending_fresh
    . intro c' fd l hc'
      exact hinv.registered c' fd l ((hhas c' fd l).mp hc')
    . exact hinv.watched

theorem OpenInv.step (hinv : s.OpenInv) {a : ServerAct} (hends : ¬ Ends a) (halloc : Allocates a)
    (h : s.step a = some s')
    : s'.OpenInv := by
  cases a with
  | establish fd memory =>
    obtain ⟨hfd, rfl | hdrain⟩ := establish_eq_some h
    . exact hinv.published hfd
    . exact (hinv.published hfd).drain halloc hdrain
  | setData => exact hinv.setData h
  | drain l memory =>
    unfold TcpServer.step at h
    dsimp only at h
    split at h
    . exact hinv.drain halloc h
    . simp at h
  | readable l fd n memory =>
    obtain ⟨rfl, _⟩ | ⟨c, connection, _, _, _, ⟨_, rfl⟩ | ⟨hle, _⟩⟩ := readable_eq_some h
    . exact hinv
    . exact ⟨hinv.owned, hinv.entry_has, hinv.pending_add, hinv.pending_fresh, hinv.registered, hinv.watched⟩
    . exact absurd hle hends
  | hangUp l fd => exact absurd trivial hends

theorem handle_remove {memory : MapMemory} {loop loop' : ChannelLoop Interest} {c : ChannelPtr} {fd : Nat}
    (hfd : (s.channels c).fd = (fd : Int)) (h : s.handle memory loop (.remove, c) = some loop')
    : loop'.entry fd = none := by
  have h := ChannelLoop.next_eq_some_iff.mp h
  unfold ChannelLoop.handlePending at h
  dsimp only at h
  have hnat : (s.channels c).fd.toNat = fd := by omega
  cases hentry : loop.entry (s.channels c).fd.toNat with
  | none =>
    by_cases hlt : (s.channels c).fd.toNat < loop.channelMap.length
    . rw [ChannelLoop.handlePendingRemove_of_null (by omega) hlt hentry] at h
      simp at h
    . rw [ChannelLoop.handlePendingRemove_of_outside (.inr (Nat.le_of_not_lt hlt)), Except.ok.injEq, Option.some.injEq] at h
      rw [← h, ← hnat, hentry]
  | some c₂ =>
    obtain ⟨_, hnone⟩ | ⟨loop'', hremove, _, hentry', _⟩ :=
      @ChannelLoop.handlePendingRemove_of_entry _ (Epoll.epollDispatcher s.descriptors) s.channels loop c c₂ (by omega)
        hentry
    . rw [hnone] at h
      simp at h
    . rw [hremove, Except.ok.injEq, Option.some.injEq] at h
      rw [← h, hentry', hnat, Function.update_self]

theorem OpenInv.not_accounted (hinv : s.OpenInv) {a : ServerAct} (hends : Ends a) (h : s.step a = some s')
    : ¬ s'.Accounted := by
  intro hacc
  cases a with
  | readable l fd n memory =>
    have hwatches : s.Watches l fd := by
      unfold TcpServer.step at h
      dsimp only at h
      split at h
      . next hguard => exact hguard.right
      . simp at h
    obtain ⟨_, hnone⟩ | ⟨c, connection, hentry, hconnection, hfd, ⟨hn, _⟩ | ⟨_, hremove⟩⟩ := readable_eq_some h
    . exact hinv.watched l fd hwatches hnone
    . exact absurd hn (Int.not_lt.mpr hends)
    . -- The channel is taken out of the map, and the descriptor stays open.
      have hhas := hinv.entry_has l fd c hentry
      have hl : connection.eventLoop = l := by
        obtain ⟨connection', hconnection', _, hl⟩ := hhas
        rw [hconnection, Option.some.injEq] at hconnection'
        rw [hconnection', hl]
      rw [hl] at hremove
      unfold eventLoopDoChannelEvent at hremove
      dsimp only at hremove
      rw [if_pos (beq_self_eq_true l)] at hremove
      obtain ⟨loop, hexec, rfl⟩ := eventLoopHandlePendingChannel_eq_some hremove
      rw [show ∀ (s : TcpServer) loop, (s.setLoop l loop).loops l = loop from
        fun s loop => Function.update_self _ _ _] at hexec
      obtain ⟨loop₁, _, hlast⟩ := Run.exec_append_singleton hexec
      have hgone : loop.entry fd = none := handle_remove hhas.channels_fd hlast
      have hcontra := (hacc c fd l hhas (by simp [setLoop])).mp (hinv.owned c fd l hhas)
      simp [setLoop, hgone] at hcontra
  | hangUp l fd =>
    unfold TcpServer.step at h
    dsimp only at h
    split at h
    . next hguard =>
      rw [Option.some.injEq] at h
      subst h
      -- The descriptor is closed, and the channel stays in the map.
      obtain ⟨c, hentry⟩ := Option.ne_none_iff_exists'.mp (hinv.watched l fd hguard.right)
      have hhas := hinv.entry_has l fd c hentry
      have hfresh : ∀ type, (type, c) ∉ (s.loops l).pending := by
        intro type hmem
        exact hinv.pending_fresh l (type, c) hmem fd hentry
      have hcontra := (hacc c fd l hhas hfresh).mpr hentry
      simp [close] at hcontra
    . simp at h
  | _ => exact hends

/--
The descriptors are accounted for in every state of a run in which no connection ends, and each step that ends a
connection breaks this.
-/
theorem accounted_of_noneEnds {threadNumber data : Nat} {isOpen : Nat → Bool} {s : TcpServer}
    (h : Run.Reaches TcpServer.step (fun _ a => ¬ Ends a ∧ Allocates a) (init threadNumber data isOpen) s)
    : s.Accounted ∧ ∀ a s', Ends a → s.step a = some s' → ¬ s'.Accounted := by
  have hinv : s.OpenInv := by
    apply h.invariant OpenInv (init_openInv threadNumber data isOpen)
    intro s s' a hinv hok hstep
    exact hinv.step hok.left hok.right hstep
  refine ⟨hinv.accounted, ?_⟩
  intro a s' hends hstep
  exact hinv.not_accounted hends hstep

theorem accounted_oneConnection
    : ∃ s, Run.Reaches TcpServer.step (fun _ a => ¬ Ends a ∧ Allocates a) (init 1 7 fun _ => false) s
      ∧ (s.loops 1).loop.entry 5 = some 0 ∧ s.Accounted := by
  have hexec : (Run.exec TcpServer.step (init 1 7 fun _ => false)
      [.establish 5 .roomy, .setData, .drain 1 .roomy, .readable 1 5 3 .roomy]).map
      (fun s => (s.loops 1).loop.entry 5) = some (some 0) := by
    decide +kernel
  obtain ⟨s, hs, hentry⟩ := Option.map_eq_some_iff.mp hexec
  have hok : Run.AllOk TcpServer.step (fun _ a => ¬ Ends a ∧ Allocates a) (init 1 7 fun _ => false)
      [.establish 5 .roomy, .setData, .drain 1 .roomy, .readable 1 5 3 .roomy] := by
    simp [Run.AllOk, Ends, Allocates, MapMemory.roomy]
  have hreach := Run.Reaches.of_exec hok hs
  exact ⟨s, hreach, hentry, (accounted_of_noneEnds hreach).left⟩

-- The client of the connection closes its end, and `read` returns 0.
theorem not_accounted_of_endOfFile
    : ∃ s, Run.Reaches TcpServer.step (fun _ _ => True) (init 1 7 fun _ => false) s ∧ ¬ s.Accounted := by
  have hexec : (Run.exec TcpServer.step (init 1 7 fun _ => false)
      [.establish 5 .roomy, .setData, .drain 1 .roomy, .readable 1 5 0 .roomy]).map
      (fun s => (s.connections, (s.loops 1).pending, s.descriptors 5, (s.loops 1).loop.entry 5))
      = some ([⟨5, 1, some 7⟩], [], some (.connection 0), none) := by
    decide +kernel
  obtain ⟨s, hs, hview⟩ := Option.map_eq_some_iff.mp hexec
  simp only [Prod.mk.injEq] at hview
  obtain ⟨hconnections, hpending, hdescriptor, hentry⟩ := hview
  refine ⟨s, .of_exec (Run.allOk_of_forall fun _ _ => trivial) hs, ?_⟩
  intro hacc
  have hhas : s.Has 0 5 1 := ⟨⟨5, 1, some 7⟩, by rw [hconnections]; rfl, rfl, rfl⟩
  have hregistered := (hacc 0 5 1 hhas (by simp [hpending])).mp hdescriptor
  rw [hentry] at hregistered
  simp at hregistered

end TcpServer
end NetWork
