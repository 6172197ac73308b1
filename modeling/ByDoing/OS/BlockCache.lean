import ByDoing.OS.BlockDev

namespace OS
namespace BlockDev
namespace Cache

variable {n : Nat} {s s' s'' : Cache n} {view : Key → Block} {b c : Fin n} {i j : ReqNr} {rw rw' : Rw}

def Writing (s : Cache n) (b : Fin n) : Prop :=
  ∃ i, s.request i = some (.WRITE, b)

instance : Decidable (s.Writing b) :=
  inferInstanceAs (Decidable (∃ _, _))

def Reading (s : Cache n) (b : Fin n) : Prop :=
  ∃ i, s.request i = some (.READ, b)

def Quiet (s : Cache n) (b : Fin n) : Prop :=
  ∀ i rw, s.request i ≠ some (rw, b)

def line (s : Cache n) (b : Fin n) : WriteBack.Line Key Block :=
  {
    key := if (s.buf b).dev = 0 then none else some (s.key b)
    value := (s.buf b).data
    valid := (s.buf b).uptodate
    dirty := (s.buf b).dirt || decide (s.Writing b)
  }

structure Sound (s : Cache n) (view : Key → Block) : Prop where
  coherent : WriteBack.Coherent s.line s.disk view
  request : ∀ i rw b, s.request i = some (rw, b) → (s.buf b).dirt = false ∧ (s.buf b).lock = true ∧ (s.buf b).dev ≠ 0
  single : ∀ i j rw rw' b, s.request i = some (rw, b) → s.request j = some (rw', b) → i = j
  named : ∀ b, (s.buf b).dirt = true → (s.buf b).dev ≠ 0
  listed : ∀ b, b ∈ s.free

structure Keeps (s s' : Cache n) (b : Fin n) : Prop where
  dev : (s'.buf b).dev = (s.buf b).dev
  blocknr : (s'.buf b).blocknr = (s.buf b).blocknr
  count : (s'.buf b).count = (s.buf b).count
  uptodate : (s.buf b).uptodate = true → (s'.buf b).uptodate = true
  dirt : (s'.buf b).dirt = true → (s.buf b).dirt = true
  reading : s.Reading b → s'.Reading b ∨ (s'.buf b).uptodate = true

def Io (s s' : Cache n) : Prop :=
  ∀ b, s.Keeps s' b

namespace Keeps

theorem refl (s : Cache n) (b : Fin n) : s.Keeps s b :=
  ⟨rfl, rfl, rfl, id, id, .inl⟩

theorem trans (h : s.Keeps s' b) (h' : s'.Keeps s'' b) : s.Keeps s'' b := by
  constructor
  . rw [h'.dev, h.dev]
  . rw [h'.blocknr, h.blocknr]
  . rw [h'.count, h.count]
  . exact fun hu => h'.uptodate (h.uptodate hu)
  . exact fun hd => h.dirt (h'.dirt hd)
  . intro hr
    rcases h.reading hr with hr | hu
    . exact h'.reading hr
    . exact .inr (h'.uptodate hu)

theorem of_eq (hbuf : s'.buf b = s.buf b) (hrequest : s.Reading b → s'.Reading b) : s.Keeps s' b := by
  constructor
  . rw [hbuf]
  . rw [hbuf]
  . rw [hbuf]
  . rw [hbuf]
    exact id
  . rw [hbuf]
    exact id
  . exact fun hr => .inl (hrequest hr)

theorem key (h : s.Keeps s' b) : s'.key b = s.key b := by
  unfold Cache.key
  rw [h.dev, h.blocknr]

end Keeps

theorem Io.refl (s : Cache n) : s.Io s :=
  Keeps.refl s

theorem Io.trans (h : s.Io s') (h' : s'.Io s'') : s.Io s'' :=
  fun b => (h b).trans (h' b)

theorem setBuf_self {h : Buffer} : (s.setBuf b h).buf b = h :=
  Function.update_self _ _ _

theorem setBuf_of_ne {h : Buffer} (hc : c ≠ b) : (s.setBuf b h).buf c = s.buf c :=
  Function.update_of_ne hc _ _

theorem line_key (hdev : (s.buf b).dev ≠ 0) : (s.line b).key = some (s.key b) :=
  if_neg hdev

section endRequest

-- The request `i` for the buffer `b` has ended.
variable {h : Buffer} (hi : s.request i = some (rw, b)) (hbuf : s'.buf = Function.update s.buf b h)
    (hrequest : s'.request = Function.update s.request i none)

include hi hrequest

theorem request_other (hc : c ≠ b) : s'.request j = some (rw', c) ↔ s.request j = some (rw', c) := by
  rw [hrequest, Function.update_apply]
  split
  . next heq =>
    subst heq
    rw [hi]
    simp [Ne.symm hc]
  . rfl

theorem not_request_self (hs : s.Sound view) : s'.request j ≠ some (rw', b) := by
  intro hj
  rw [hrequest, Function.update_apply] at hj
  split at hj
  . simp at hj
  . next hne => exact hne (hs.single j i rw' rw b hj hi)

include hbuf

theorem keeps_other (hc : c ≠ b) : s.Keeps s' c := by
  apply Keeps.of_eq
  . rw [hbuf, Function.update_of_ne hc]
  . rintro ⟨j, hj⟩
    exact ⟨j, (request_other hi hrequest hc).mpr hj⟩

theorem line_other (hc : c ≠ b) : s'.line c = s.line c := by
  have hwriting : s'.Writing c ↔ s.Writing c := by
    unfold Writing
    simp only [request_other hi hrequest hc]
  have hbuf' : s'.buf c = s.buf c := by
    rw [hbuf, Function.update_of_ne hc]
  unfold line key
  simp only [hbuf', hwriting]

omit hbuf in
theorem line_self (hs : s.Sound view) (hdirt : (s'.buf b).dirt = false)
    : s'.line b = { s'.line b with dirty := false } := by
  have hwriting : ¬s'.Writing b := by
    rintro ⟨j, hj⟩
    exact not_request_self hi hrequest hs hj
  unfold line
  simp only [hdirt, hwriting, decide_false, Bool.or_false]

theorem request_end (hs : s.Sound view)
    : (∀ j rw c, s'.request j = some (rw, c) → (s'.buf c).dirt = false ∧ (s'.buf c).lock = true ∧ (s'.buf c).dev ≠ 0)
        ∧
      ∀ j k rw rw' c, s'.request j = some (rw, c) → s'.request k = some (rw', c) → j = k := by
  constructor
  . intro j rw₁ c hj
    have hc : c ≠ b := by
      intro heq
      exact not_request_self hi hrequest hs (heq ▸ hj)
    rw [hbuf, Function.update_of_ne hc]
    exact hs.request j rw₁ c ((request_other hi hrequest hc).mp hj)
  . intro j k rw₁ rw₂ c hj hk
    have hc : c ≠ b := by
      intro heq
      exact not_request_self hi hrequest hs (heq ▸ hj)
    exact hs.single j k rw₁ rw₂ c ((request_other hi hrequest hc).mp hj) ((request_other hi hrequest hc).mp hk)

end endRequest

theorem endRequest_keeps : s.Io (s.endRequest i) := by
  intro c
  unfold endRequest
  split
  . exact Keeps.refl s c
  . next b hi =>
    by_cases hc : c = b
    . subst hc
      constructor <;> simp
    . exact keeps_other hi rfl rfl hc
  . next b hi =>
    by_cases hc : c = b
    . subst hc
      constructor <;> simp
    . exact keeps_other hi rfl rfl hc

theorem Sound.not_writing (hs : s.Sound view) (hi : s.request i = some (.READ, b)) : ¬s.Writing b := by
  rintro ⟨j, hj⟩
  have heq := hs.single j i .WRITE .READ b hj hi
  rw [heq, hi] at hj
  simp at hj

theorem Sound.named_of_io (hs : s.Sound view) (hio : s.Io s') : ∀ c, (s'.buf c).dirt = true → (s'.buf c).dev ≠ 0 := by
  intro c hc
  rw [(hio c).dev]
  exact hs.named c ((hio c).dirt hc)

theorem Sound.endRequest (hs : s.Sound view) : (s.endRequest i).Sound view := by
  have hnamed := hs.named_of_io (endRequest_keeps (i := i))
  revert hnamed
  unfold Cache.endRequest
  split
  . exact fun _ => hs
  . next b hi =>
    obtain ⟨hdirt, hlock, hdev⟩ := hs.request i .READ b hi
    have hnot := hs.not_writing hi
    intro hnamed
    refine ⟨?_, (request_end hi rfl rfl hs).left, (request_end hi rfl rfl hs).right, hnamed, hs.listed⟩
    apply hs.coherent.fill (line_key hdev)
    . unfold line
      simp [hdirt, hnot]
    . funext c
      by_cases hc : c = b
      . subst hc
        rw [Function.update_self]
        refine (line_self hi rfl hs ?_).trans ?_
        . simp [hdirt]
        . simp [line, key, hdev]
      . rw [Function.update_of_ne hc]
        exact line_other hi rfl rfl hc
  . next b hi =>
    obtain ⟨hdirt, hlock, hdev⟩ := hs.request i .WRITE b hi
    intro hnamed
    refine ⟨?_, (request_end hi rfl rfl hs).left, (request_end hi rfl rfl hs).right, hnamed, hs.listed⟩
    apply hs.coherent.flush (line_key hdev)
    . right
      unfold line
      simp only [Bool.or_eq_true, decide_eq_true_eq]
      exact .inr ⟨i, hi⟩
    . funext c
      by_cases hc : c = b
      . subst hc
        rw [Function.update_self]
        refine (line_self hi rfl hs ?_).trans ?_
        . simp [hdirt]
        . simp [line, key]
      . rw [Function.update_of_ne hc]
        exact line_other hi rfl rfl hc
    . rfl

theorem Sound.interrupts (hs : s.Sound view) : s.interrupts.Sound view ∧ s.Io s.interrupts := by
  have hfold : ∀ (is : List ReqNr) (s : Cache n), s.Sound view →
      (is.foldl Cache.endRequest s).Sound view ∧ s.Io (is.foldl Cache.endRequest s) := by
    intro is
    induction is with
    | nil => exact fun s hs => ⟨hs, Io.refl s⟩
    | cons i is ih =>
      intro s hs
      obtain ⟨hsound, hio⟩ := ih (s.endRequest i) hs.endRequest
      exact ⟨hsound, endRequest_keeps.trans hio⟩
  unfold Cache.interrupts
  split
  . exact ⟨hs, Io.refl s⟩
  . next is irq _ =>
    obtain ⟨hsound, hio⟩ := hfold is { s with irq := irq } ⟨hs.coherent, hs.request, hs.single, hs.named, hs.listed⟩
    refine ⟨hsound, fun b => ?_⟩
    have hirq : s.Keeps { s with irq := irq } b := Keeps.of_eq rfl id
    exact hirq.trans (hio b)

theorem Sound.quiet_endRequest (hs : s.Sound view) (hi : s.request i = some (rw, b)) : (s.endRequest i).Quiet b := by
  intro j rw'
  unfold Cache.endRequest
  rw [hi]
  cases rw with
  | READ => exact not_request_self hi rfl hs
  | WRITE => exact not_request_self hi rfl hs

theorem requestOf_eq_some (h : s.requestOf b = some i) : ∃ rw, s.request i = some (rw, b) := by
  unfold requestOf at h
  have hfound := List.find?_some h
  rw [Option.any_eq_true] at hfound
  obtain ⟨⟨rw, c⟩, hi, hc⟩ := hfound
  rw [beq_iff_eq] at hc
  exact ⟨rw, hc ▸ hi⟩

theorem quiet_of_requestOf (h : s.requestOf b = none) : s.Quiet b := by
  intro i rw hi
  unfold requestOf at h
  have hnot := List.find?_eq_none.mp h i (List.mem_finRange i)
  simp [hi] at hnot

theorem Sound.waitOnBuffer (hs : s.Sound view)
    : (s.waitOnBuffer b).Sound view ∧ s.Io (s.waitOnBuffer b) ∧ (s.waitOnBuffer b).Quiet b := by
  obtain ⟨hsound, hio⟩ := hs.interrupts
  unfold Cache.waitOnBuffer
  simp only
  split
  . split
    . next i hfind =>
      obtain ⟨rw, hi⟩ := requestOf_eq_some hfind
      exact ⟨hsound.endRequest, hio.trans endRequest_keeps, hsound.quiet_endRequest hi⟩
    . next hfind =>
      exact ⟨hsound, hio, quiet_of_requestOf hfind⟩
  . next hlock =>
    refine ⟨hsound, hio, ?_⟩
    intro i rw hi
    exact hlock (hsound.request i rw b hi).right.left

theorem Quiet.endRequest (h : s.Quiet b) : (s.endRequest i).Quiet b ∧ (s.endRequest i).buf b = s.buf b := by
  unfold Cache.endRequest
  split
  . exact ⟨h, rfl⟩
  . next c hi =>
    have hc : b ≠ c := by
      intro heq
      exact h i .READ (heq ▸ hi)
    refine ⟨?_, Function.update_of_ne hc _ _⟩
    intro j rw hj
    exact h j rw ((request_other hi rfl hc).mp hj)
  . next c hi =>
    have hc : b ≠ c := by
      intro heq
      exact h i .WRITE (heq ▸ hi)
    refine ⟨?_, Function.update_of_ne hc _ _⟩
    intro j rw hj
    exact h j rw ((request_other hi rfl hc).mp hj)

theorem Quiet.interrupts (h : s.Quiet b) : s.interrupts.Quiet b ∧ s.interrupts.buf b = s.buf b := by
  have hfold : ∀ (is : List ReqNr) (s : Cache n), s.Quiet b →
      (is.foldl Cache.endRequest s).Quiet b ∧ (is.foldl Cache.endRequest s).buf b = s.buf b := by
    intro is
    induction is with
    | nil => exact fun s hs => ⟨hs, rfl⟩
    | cons i is ih =>
      intro s hs
      obtain ⟨hquiet, hbuf⟩ := ih (s.endRequest i) hs.endRequest.left
      exact ⟨hquiet, hbuf.trans hs.endRequest.right⟩
  unfold Cache.interrupts
  split
  . exact ⟨h, rfl⟩
  . next is irq _ => exact hfold is { s with irq := irq } h

section makeRequest

theorem Sound.setBuf {h : Buffer} (hs : s.Sound view)
    (hsame : h = { s.buf b with lock := h.lock, count := h.count })
    (hlock : h.lock = true ∨ h.lock = (s.buf b).lock ∨ s.Quiet b)
    : (s.setBuf b h).Sound view := by
  have hbuf : ∀ c, c ≠ b → (s.setBuf b h).buf c = s.buf c := fun c hc => setBuf_of_ne hc
  have hself : (s.setBuf b h).buf b = h := setBuf_self
  have hdev : h.dev = (s.buf b).dev := by rw [hsame]
  have hblocknr : h.blocknr = (s.buf b).blocknr := by rw [hsame]
  have huptodate : h.uptodate = (s.buf b).uptodate := by rw [hsame]
  have hdirt : h.dirt = (s.buf b).dirt := by rw [hsame]
  have hdata : h.data = (s.buf b).data := by rw [hsame]
  have hline : (s.setBuf b h).line = s.line := by
    funext c
    by_cases hc : c = b
    . subst hc
      unfold line key
      rw [hself, hdev, hblocknr, huptodate, hdirt, hdata]
      rfl
    . unfold line key
      rw [hbuf c hc]
      rfl
  refine ⟨?_, ?_, hs.single, ?_, hs.listed⟩
  . rw [hline]
    exact hs.coherent
  . intro i rw c hi
    by_cases hc : c = b
    . subst hc
      rw [hself, hdirt, hdev]
      obtain ⟨hdirt', hlock', hdev'⟩ := hs.request i rw c hi
      refine ⟨hdirt', ?_, hdev'⟩
      rcases hlock with hlock | hlock | hquiet
      . exact hlock
      . exact hlock.trans hlock'
      . exact absurd hi (hquiet i rw)
    . rw [hbuf c hc]
      exact hs.request i rw c hi
  . intro c hc
    by_cases heq : c = b
    . subst heq
      rw [hself, hdirt] at hc
      rw [hself, hdev]
      exact hs.named c hc
    . rw [hbuf c heq] at hc ⊢
      exact hs.named c hc

theorem Sound.setLock {l : Bool} (hs : s.Sound view) (hl : l = true ∨ s.Quiet b)
    : (s.setLock b l).Sound view ∧ s.Io (s.setLock b l) := by
  constructor
  . apply hs.setBuf rfl
    rcases hl with hl | hquiet
    . exact .inl hl
    . exact .inr (.inr hquiet)
  . intro c
    by_cases hc : c = b
    . subst hc
      have hself : (s.setLock c l).buf c = { s.buf c with lock := l } := Function.update_self _ _ _
      constructor <;> rw [hself]
      . exact id
      . exact id
      . exact .inl
    . exact Keeps.of_eq (Function.update_of_ne hc _ _) id

theorem Sound.addRequest (hs : s.Sound view) (hquiet : s.Quiet b) (hi : s.request i = none) (hlock : (s.buf b).lock = true)
    (hdev : (s.buf b).dev ≠ 0) (hdirt : (s.buf b).dirt = true ↔ rw = .WRITE)
    : (s.addRequest i rw b).Sound view ∧ s.Io (s.addRequest i rw b) := by
  have hbuf : ∀ c, c ≠ b → (s.addRequest i rw b).buf c = s.buf c := fun c hc => Function.update_of_ne hc _ _
  have hself : (s.addRequest i rw b).buf b = { s.buf b with dirt := false } := Function.update_self _ _ _
  have hnew : (s.addRequest i rw b).request i = some (rw, b) := Function.update_self _ _ _
  have hold : ∀ j, j ≠ i → (s.addRequest i rw b).request j = s.request j := fun j hj => Function.update_of_ne hj _ _
  have hkept : ∀ j r, s.request j = some r → (s.addRequest i rw b).request j = some r := by
    intro j r hj
    have hne : j ≠ i := by
      intro heq
      rw [heq, hi] at hj
      simp at hj
    rw [hold j hne, hj]
  have hother : ∀ j rw' c, (s.addRequest i rw b).request j = some (rw', c) → c ≠ b → s.request j = some (rw', c) := by
    intro j rw' c hj hc
    by_cases hji : j = i
    . rw [hji, hnew, Option.some.injEq, Prod.mk.injEq] at hj
      exact absurd hj.right.symm hc
    . rw [← hold j hji]
      exact hj
  have honly : ∀ j rw', (s.addRequest i rw b).request j = some (rw', b) → j = i := by
    intro j rw' hj
    by_contra hji
    rw [hold j hji] at hj
    exact hquiet j rw' hj
  have hio : s.Io (s.addRequest i rw b) := by
    intro c
    have hreading : s.Reading c → (s.addRequest i rw b).Reading c := by
      rintro ⟨j, hj⟩
      exact ⟨j, hkept j _ hj⟩
    by_cases hc : c = b
    . subst hc
      constructor <;> rw [hself]
      . exact id
      . simp
      . exact fun hr => .inl (hreading hr)
    . exact Keeps.of_eq (hbuf c hc) hreading
  have hline : (s.addRequest i rw b).line = s.line := by
    funext c
    by_cases hc : c = b
    . subst hc
      have hbefore : ¬s.Writing c := fun hw => hquiet hw.choose .WRITE hw.choose_spec
      have hafter : (s.addRequest i rw c).Writing c ↔ rw = .WRITE := by
        constructor
        . rintro ⟨j, hj⟩
          rw [honly j .WRITE hj, hnew, Option.some.injEq, Prod.mk.injEq] at hj
          exact hj.left
        . rintro rfl
          exact ⟨i, hnew⟩
      unfold line key
      rw [hself]
      simp only [hbefore, hafter, decide_false, Bool.or_false, Bool.false_or, WriteBack.Line.mk.injEq, true_and]
      rw [Bool.eq_iff_iff, decide_eq_true_eq]
      exact hdirt.symm
    . have hwriting : (s.addRequest i rw b).Writing c ↔ s.Writing c := by
        constructor
        . rintro ⟨j, hj⟩
          exact ⟨j, hother j .WRITE c hj hc⟩
        . rintro ⟨j, hj⟩
          exact ⟨j, hkept j _ hj⟩
      unfold line key
      simp only [hbuf c hc, hwriting]
  refine ⟨⟨?_, ?_, ?_, hs.named_of_io hio, hs.listed⟩, hio⟩
  . rw [hline]
    exact hs.coherent
  . intro j rw' c hj
    by_cases hc : c = b
    . subst hc
      rw [hself]
      exact ⟨rfl, hlock, hdev⟩
    . rw [hbuf c hc]
      exact hs.request j rw' c (hother j rw' c hj hc)
  . intro j k rw₁ rw₂ c hj hk
    by_cases hc : c = b
    . subst hc
      rw [honly j rw₁ hj, honly k rw₂ hk]
    . exact hs.single j k rw₁ rw₂ c (hother j rw₁ c hj hc) (hother k rw₂ c hk hc)

theorem request_of_freeRequest (h : s.freeRequest rw = some i) : s.request i = none := by
  unfold freeRequest at h
  have hfree := List.find?_some h
  rw [Bool.and_eq_true, Option.isNone_iff_eq_none] at hfree
  exact hfree.right

theorem freeRequest_isSome (rw : Rw) (h : s.request ⟨0, by decide⟩ = none) : (s.freeRequest rw).isSome := by
  unfold freeRequest
  rw [List.find?_isSome]
  refine ⟨⟨0, by decide⟩, by simp, ?_⟩
  cases rw <;> simp [h] <;> decide

theorem endRequest_self : (s.endRequest i).request i = none := by
  unfold endRequest
  split
  . next hi => exact hi
  . exact Function.update_self _ _ _
  . exact Function.update_self _ _ _

theorem waitForRequest_isSome (rw : Rw) : ((makeRequest.waitForRequest s rw).freeRequest rw).isSome := by
  unfold makeRequest.waitForRequest
  dsimp only
  split
  . next hsome => exact hsome
  . exact freeRequest_isSome rw endRequest_self

theorem Sound.waitForRequest (rw : Rw) (hs : s.Sound view) (hquiet : s.Quiet b)
    : (makeRequest.waitForRequest s rw).Sound view ∧ s.Io (makeRequest.waitForRequest s rw)
        ∧ (makeRequest.waitForRequest s rw).Quiet b ∧ (makeRequest.waitForRequest s rw).buf b = s.buf b := by
  obtain ⟨hsound, hio⟩ := hs.interrupts
  obtain ⟨hquiet₁, hbuf₁⟩ := hquiet.interrupts
  unfold makeRequest.waitForRequest
  dsimp only
  split
  . exact ⟨hsound, hio, hquiet₁, hbuf₁⟩
  . obtain ⟨hquiet₂, hbuf₂⟩ := hquiet₁.endRequest (i := ⟨0, by decide⟩)
    exact ⟨hsound.endRequest, hio.trans endRequest_keeps, hquiet₂, hbuf₂.trans hbuf₁⟩

theorem Sound.enqueue (ahead : Bool) (hs : s.Sound view) (hquiet : s.Quiet b) (hlock : (s.buf b).lock = true)
    (hdev : (s.buf b).dev ≠ 0) (hdirt : (s.buf b).dirt = true ↔ rw = .WRITE)
    : (makeRequest.enqueue s rw ahead b).Sound view ∧ s.Io (makeRequest.enqueue s rw ahead b)
        ∧
      (ahead = false →
        ((makeRequest.enqueue s rw ahead b).buf b).dirt = false
          ∧
        ∃ j, (makeRequest.enqueue s rw ahead b).request j = some (rw, b)) := by
  have hadded : ∀ (s : Cache n) (i : ReqNr), ((s.addRequest i rw b).buf b).dirt = false
      ∧ ∃ j, (s.addRequest i rw b).request j = some (rw, b) := by
    intro s i
    refine ⟨?_, i, Function.update_self _ _ _⟩
    simp [Cache.addRequest, Cache.setBuf]
  unfold makeRequest.enqueue
  simp only
  split
  . next i hfree =>
    obtain ⟨hsound, hio⟩ := hs.addRequest hquiet (request_of_freeRequest hfree) hlock hdev hdirt
    exact ⟨hsound, hio, fun _ => hadded s i⟩
  . split
    . next hahead =>
      obtain ⟨hsound, hio⟩ := hs.setLock (l := false) (.inr hquiet)
      exact ⟨hsound, hio, fun hnot => absurd hahead (by simp [hnot])⟩
    . obtain ⟨hsound, hio, hquiet₁, hbuf⟩ := hs.waitForRequest rw hquiet
      split
      . next i hfree =>
        obtain ⟨hsound', hio'⟩ := hsound.addRequest hquiet₁ (request_of_freeRequest hfree) (hbuf ▸ hlock)
          (hbuf ▸ hdev) (hbuf ▸ hdirt)
        exact ⟨hsound', hio.trans hio', fun _ => hadded _ i⟩
      . next hfree =>
        have hsome := @waitForRequest_isSome _ s rw
        rw [hfree] at hsome
        simp at hsome

theorem Sound.makeRequest (rw : Rw) (ahead : Bool) (hs : s.Sound view)
    (hread : rw = .READ → (s.buf b).dev ≠ 0 ∧ ((s.buf b).dirt = true → (s.buf b).uptodate = true))
    : (s.makeRequest rw ahead b).Sound view ∧ s.Io (s.makeRequest rw ahead b)
        ∧
      (ahead = false →
        (rw = .WRITE → ((s.makeRequest rw ahead b).buf b).dirt = false)
          ∧
        (rw = .READ → ((s.makeRequest rw ahead b).buf b).uptodate = true ∨ (s.makeRequest rw ahead b).Reading b)) := by
  unfold Cache.makeRequest
  split
  . next hahead => exact ⟨hs, Io.refl s, fun hnot => absurd hahead.left (by simp [hnot])⟩
  . obtain ⟨hs₁, hio₁, hquiet₁⟩ := hs.waitOnBuffer (b := b)
    obtain ⟨hs₂, hio₂⟩ := hs₁.setLock (b := b) (l := true) (.inl rfl)
    have hio := hio₁.trans hio₂
    have hquiet₂ : ((s.waitOnBuffer b).setLock b true).Quiet b := hquiet₁
    have hlock₂ : (((s.waitOnBuffer b).setLock b true).buf b).lock = true := by
      simp [Cache.setLock, Cache.setBuf]
    generalize (s.waitOnBuffer b).setLock b true = s₂ at *
    simp only
    split
    . next hdone =>
      obtain ⟨hs₃, hio₃⟩ := hs₂.setLock (b := b) (l := false) (.inr hquiet₂)
      refine ⟨hs₃, hio.trans hio₃, fun _ => ⟨?_, ?_⟩⟩
      . intro hrw
        rcases hdone with ⟨_, hdirt⟩ | ⟨hrd, _⟩
        . simpa [Cache.setLock, Cache.setBuf] using hdirt
        . simp [hrw] at hrd
      . intro hrw
        rcases hdone with ⟨hwr, _⟩ | ⟨_, huptodate⟩
        . simp [hrw] at hwr
        . left
          simpa [Cache.setLock, Cache.setBuf] using huptodate
    . next hnot =>
      have hdirt : (s₂.buf b).dirt = true ↔ rw = .WRITE := by
        cases rw with
        | WRITE => simpa using hnot
        | READ =>
          simp only [reduceCtorEq, false_and, true_and, false_or] at hnot
          simp only [reduceCtorEq, iff_false]
          intro hd
          exact hnot ((hio b).uptodate ((hread rfl).right ((hio b).dirt hd)))
      have hdev : (s₂.buf b).dev ≠ 0 := by
        cases rw with
        | WRITE => exact hs₂.named b (hdirt.mpr rfl)
        | READ =>
          rw [(hio b).dev]
          exact (hread rfl).left
      obtain ⟨hs₃, hio₃, hadded⟩ := hs₂.enqueue ahead hquiet₂ hlock₂ hdev hdirt
      refine ⟨hs₃, hio.trans hio₃, fun hahead => ⟨fun _ => (hadded hahead).left, ?_⟩⟩
      intro hrw
      subst hrw
      exact .inr (hadded hahead).right

end makeRequest

theorem Sound.syncBuffer (dev : Nat) (hs : s.Sound view)
    : (s.syncBuffer dev b).Sound view ∧ s.Io (s.syncBuffer dev b)
        ∧
      ((s.buf b).dev = dev → ((s.syncBuffer dev b).buf b).dirt = false) := by
  unfold Cache.syncBuffer
  split
  . next hne => exact ⟨hs, Io.refl s, fun heq => absurd heq hne⟩
  . obtain ⟨hs₁, hio₁, _⟩ := hs.waitOnBuffer (b := b)
    simp only
    split
    . obtain ⟨hs₂, hio₂, hdone⟩ := hs₁.makeRequest (b := b) .WRITE false (by simp)
      exact ⟨hs₂, hio₁.trans hio₂, fun _ => (hdone rfl).left rfl⟩
    . next hnot =>
      refine ⟨hs₁, hio₁, fun heq => ?_⟩
      rw [not_and, Bool.not_eq_true, (hio₁ b).dev] at hnot
      exact hnot heq

theorem Sound.syncBuffers (dev : Nat) (hs : s.Sound view)
    : (s.syncBuffers dev).Sound view ∧ s.Io (s.syncBuffers dev)
        ∧
      ∀ b, (s.buf b).dev = dev → ((s.syncBuffers dev).buf b).dirt = false := by
  have hfold : ∀ (bs : List (Fin n)) (s : Cache n), s.Sound view →
      (bs.foldl (fun s b => s.syncBuffer dev b) s).Sound view
        ∧
      s.Io (bs.foldl (fun s b => s.syncBuffer dev b) s)
        ∧
      ∀ b ∈ bs, (s.buf b).dev = dev → ((bs.foldl (fun s b => s.syncBuffer dev b) s).buf b).dirt = false := by
    intro bs
    induction bs with
    | nil => exact fun s hs => ⟨hs, Io.refl s, fun b hb => absurd hb List.not_mem_nil⟩
    | cons b bs ih =>
      intro s hs
      obtain ⟨hs₁, hio₁, hdone₁⟩ := hs.syncBuffer dev (b := b)
      obtain ⟨hs₂, hio₂, hdone₂⟩ := ih _ hs₁
      refine ⟨hs₂, hio₁.trans hio₂, fun c hc hdev => ?_⟩
      rcases List.mem_cons.mp hc with rfl | hc
      . rw [← Bool.not_eq_true]
        intro hd
        have hclean := hdone₁ hdev
        rw [(hio₂ c).dirt hd] at hclean
        simp at hclean
      . exact hdone₂ c hc (((hio₁ c).dev).trans hdev)
  obtain ⟨hs', hio, hdone⟩ := hfold (List.finRange n) s hs
  exact ⟨hs', hio, fun b => hdone b (List.mem_finRange b)⟩

theorem Sound.syncDev (dev : Nat) (hs : s.Sound view)
    : (s.syncDev dev).Sound view ∧ s.Io (s.syncDev dev)
        ∧
      ∀ b, (s.buf b).dev = dev → ((s.syncDev dev).buf b).dirt = false := by
  obtain ⟨hs₁, hio₁, _⟩ := hs.syncBuffers dev
  obtain ⟨hs₂, hio₂, hdone⟩ := hs₁.syncBuffers dev
  refine ⟨hs₂, hio₁.trans hio₂, fun b hb => hdone b ?_⟩
  rw [(hio₁ b).dev]
  exact hb

theorem Sound.clean (hs : s.Sound view)
    : ∃ s', s.clean b = some s' ∧ s'.Sound view ∧ s.Io s' ∧ s'.Quiet b ∧ (s'.buf b).dirt = false := by
  obtain ⟨hs₁, hio₁, hquiet₁⟩ := hs.waitOnBuffer (b := b)
  unfold Cache.clean
  simp only
  split
  . obtain ⟨hs₂, hio₂, hdone⟩ := hs₁.syncDev ((s.waitOnBuffer b).buf b).dev
    obtain ⟨hs₃, hio₃, hquiet₃⟩ := hs₂.waitOnBuffer (b := b)
    have hdirt : ((((s.waitOnBuffer b).syncDev ((s.waitOnBuffer b).buf b).dev).waitOnBuffer b).buf b).dirt = false := by
      rw [← Bool.not_eq_true]
      intro hd
      have hclean := hdone b rfl
      rw [(hio₃ b).dirt hd] at hclean
      simp at hclean
    rw [hdirt]
    exact ⟨_, rfl, hs₃, hio₁.trans (hio₂.trans hio₃), hquiet₃, hdirt⟩
  . next hdirt =>
    rw [Bool.not_eq_true] at hdirt
    exact ⟨_, rfl, hs₁, hio₁, hquiet₁, hdirt⟩

theorem Sound.take {dev block : Nat} (hs : s.Sound view) (hquiet : s.Quiet b) (hdirt : (s.buf b).dirt = false)
    (hdev : dev ≠ 0) (hkey : ∀ c, s.key c ≠ (dev, block))
    : (s.take b dev block).Sound view := by
  have hbuf : ∀ c, c ≠ b → (s.take b dev block).buf c = s.buf c := fun c hc => Function.update_of_ne hc _ _
  have hself : (s.take b dev block).buf b
      = { s.buf b with count := 1, dirt := false, uptodate := false, dev := dev, blocknr := block } :=
    Function.update_self _ _ _
  have hnot : ¬s.Writing b := fun hw => hquiet hw.choose .WRITE hw.choose_spec
  have hnot' : ¬(s.take b dev block).Writing b := hnot
  refine ⟨?_, ?_, hs.single, ?_, ?_⟩
  . apply hs.coherent.replace (i := b) (k := (dev, block))
    . unfold line
      simp [hdirt, hnot]
    . intro c hc
      unfold line at hc
      simp only at hc
      split at hc
      . simp at hc
      . exact hkey c (Option.some.inj hc)
    . funext c
      by_cases hc : c = b
      . subst hc
        rw [Function.update_self]
        unfold line key
        rw [hself]
        simp [hdev, hnot']
      . rw [Function.update_of_ne hc]
        unfold line key
        rw [hbuf c hc]
        rfl
  . intro i rw c hi
    have hc : c ≠ b := by
      intro heq
      exact hquiet i rw (heq ▸ hi)
    rw [hbuf c hc]
    exact hs.request i rw c hi
  . intro c hc
    by_cases heq : c = b
    . subst heq
      rw [hself] at hc
      simp at hc
    . rw [hbuf c heq] at hc ⊢
      exact hs.named c hc
  . intro c
    show c ∈ s.free.erase b ++ [b]
    by_cases hc : c = b
    . simp [hc]
    . exact List.mem_append_left _ ((List.mem_erase_of_ne hc).mpr (hs.listed c))

theorem key_of_findBuffer {dev block : Nat} (h : s.findBuffer dev block = some b)
    : (s.buf b).dev = dev ∧ (s.buf b).blocknr = block := by
  unfold findBuffer at h
  have hfound := List.find?_some h
  simpa using hfound

theorem not_key_of_findBuffer {dev block : Nat} (h : s.findBuffer dev block = none) : s.key c ≠ (dev, block) := by
  unfold findBuffer at h
  have hnot := List.find?_eq_none.mp h c (List.mem_finRange c)
  intro heq
  unfold key at heq
  rw [Prod.mk.injEq] at heq
  simp [heq.left, heq.right] at hnot

end Cache
end BlockDev
end OS
