import ByDoing.OS.BlockCache

namespace OS
namespace BlockDev
namespace Cache

variable {n : Nat} {s s' : Cache n} {view : Key → Block} {b c : Fin n} {dev block : Nat}

def Fresh (s : Cache n) (dev block : Nat) : Prop :=
  ∀ b, (s.buf b).dev = dev → (s.buf b).blocknr = block → (s.buf b).dirt = true → (s.buf b).uptodate = true

instance : Decidable (s.Fresh dev block) :=
  inferInstanceAs (Decidable (∀ _, _))

structure Got (s s' : Cache n) (view : Key → Block) (dev block : Nat) (b : Fin n) : Prop where
  sound : s'.Sound view
  quiet : s'.Quiet b
  dev_eq : (s'.buf b).dev = dev
  blocknr_eq : (s'.buf b).blocknr = block
  count : (s'.buf b).count = (s.buf b).count + 1
  fresh : s.Fresh dev block → (s'.buf b).dirt = true → (s'.buf b).uptodate = true
  keeps : ∀ c, c ≠ b → s.Keeps s' c
  -- Nobody held the buffer, if it was not for this block already.
  taken : (s.buf b).blocknr ≠ block → (s.buf b).count = 0

theorem pick_count {bs : List (Fin n)} {bh : Option (Fin n)} (hbh : ∀ b, bh = some b → (s.buf b).count = 0)
    (h : s.pick bs bh = some b)
    : (s.buf b).count = 0 := by
  induction bs generalizing bh with
  | nil => exact hbh b h
  | cons tmp bs ih =>
    unfold pick at h
    split at h
    . exact ih hbh h
    . next hcount =>
      have htmp : ∀ c, some tmp = some c → (s.buf c).count = 0 := by
        intro c hc
        rw [Option.some.injEq] at hc
        exact hc ▸ not_not.mp hcount
      split at h
      . split at h
        . exact htmp b h
        . exact ih htmp h
      . exact ih hbh h

theorem pick_isSome {bs : List (Fin n)} {bh : Option (Fin n)} (h : bh.isSome ∨ ∃ b ∈ bs, (s.buf b).count = 0)
    : (s.pick bs bh).isSome := by
  induction bs generalizing bh with
  | nil => simpa [pick] using h
  | cons tmp bs ih =>
    unfold pick
    split
    . next hcount =>
      apply ih
      rcases h with h | ⟨b, hb, hzero⟩
      . exact .inl h
      . rcases List.mem_cons.mp hb with rfl | hb
        . exact absurd hzero hcount
        . exact .inr ⟨b, hb, hzero⟩
    . split
      . split
        . rfl
        . exact ih (.inl rfl)
      . next hbad =>
        apply ih
        left
        cases bh with
        | none => simp at hbad
        | some b => rfl

theorem Sound.getblk_isSome (dev block : Nat) (hs : s.Sound view) (hfree : ∃ b, (s.buf b).count = 0) : (s.getblk dev block).isSome := by
  obtain ⟨hs₁, hio₁⟩ := hs.interrupts
  unfold Cache.getblk
  simp only
  split
  . rfl
  . split
    . next hpick =>
      obtain ⟨b, hb⟩ := hfree
      have hsome : (s.interrupts.pick s.interrupts.free none).isSome :=
        pick_isSome (.inr ⟨b, hs₁.listed b, (hio₁ b).count.trans hb⟩)
      rw [hpick] at hsome
      simp at hsome
    . next b hpick =>
      obtain ⟨s₂, hclean, _⟩ := hs₁.clean (b := b)
      rw [hclean]
      rfl

theorem Sound.getblk (hs : s.Sound view) (hdev : dev ≠ 0) (hok : s.getblk dev block = some (b, s'))
    : s.Got s' view dev block b := by
  obtain ⟨hs₁, hio₁⟩ := hs.interrupts
  unfold Cache.getblk at hok
  simp only at hok
  split at hok
  . next b' hfind =>
    rw [Option.some.injEq, Prod.mk.injEq] at hok
    obtain ⟨rfl, rfl⟩ := hok
    obtain ⟨hdev', hblock'⟩ := key_of_findBuffer hfind
    have hs₂ : (s.interrupts.setBuf b' { s.interrupts.buf b' with count := (s.interrupts.buf b').count + 1 }).Sound view :=
      hs₁.setBuf rfl (.inr (.inl rfl))
    have hself : (s.interrupts.setBuf b' { s.interrupts.buf b' with count := (s.interrupts.buf b').count + 1 }).buf b'
        = { s.interrupts.buf b' with count := (s.interrupts.buf b').count + 1 } := Function.update_self _ _ _
    obtain ⟨hs₃, hio₃, hquiet⟩ := hs₂.waitOnBuffer (b := b')
    have hkeep := hio₃ b'
    constructor
    . exact hs₃
    . exact hquiet
    . rw [hkeep.dev, hself]
      exact hdev'
    . rw [hkeep.blocknr, hself]
      exact hblock'
    . rw [hkeep.count, hself]
      show (s.interrupts.buf b').count + 1 = _
      rw [(hio₁ b').count]
    . intro hfresh hdirt
      have hdirt₂ := hkeep.dirt hdirt
      rw [hself] at hdirt₂
      apply hkeep.uptodate
      rw [hself]
      apply (hio₁ b').uptodate
      apply hfresh b'
      . rw [← (hio₁ b').dev]
        exact hdev'
      . rw [← (hio₁ b').blocknr]
        exact hblock'
      . exact (hio₁ b').dirt hdirt₂
    . intro c hc
      have hset : s.interrupts.Keeps
          (s.interrupts.setBuf b' { s.interrupts.buf b' with count := (s.interrupts.buf b').count + 1 }) c :=
        Keeps.of_eq (Function.update_of_ne hc _ _) id
      exact (hio₁ c).trans (hset.trans (hio₃ c))
    . intro hne
      rw [← (hio₁ b').blocknr] at hne
      exact absurd hblock' hne
  . next hfind =>
    split at hok
    . simp at hok
    . next b' hpick =>
      obtain ⟨s₂, hclean, hs₂, hio₂, hquiet, hdirt⟩ := hs₁.clean (b := b')
      rw [hclean, Option.map_some, Option.some.injEq, Prod.mk.injEq] at hok
      obtain ⟨rfl, rfl⟩ := hok
      have hkey : ∀ c, s₂.key c ≠ (dev, block) := by
        intro c
        rw [(hio₂ c).key]
        exact not_key_of_findBuffer hfind
      have hself : (s₂.take b' dev block).buf b'
          = { s₂.buf b' with count := 1, dirt := false, uptodate := false, dev := dev, blocknr := block } :=
        Function.update_self _ _ _
      have hcount := pick_count (by simp) hpick
      constructor
      . exact hs₂.take hquiet hdirt hdev hkey
      . exact hquiet
      . rw [hself]
      . rw [hself]
      . rw [hself, ← (hio₁ b').count, hcount]
      . intro _ hd
        rw [hself] at hd
        simp at hd
      . intro c hc
        have htake : s₂.Keeps (s₂.take b' dev block) c := Keeps.of_eq (Function.update_of_ne hc _ _) id
        exact (hio₁ c).trans ((hio₂ c).trans htake)
      . intro _
        rw [← (hio₁ b').count]
        exact hcount

-- The buffer `b` is held once, for its block, and nobody holds another one.
structure Held (s : Cache n) (view : Key → Block) (dev block : Nat) (b : Fin n) : Prop where
  sound : s.Sound view
  dev_eq : (s.buf b).dev = dev
  blocknr_eq : (s.buf b).blocknr = block
  count : (s.buf b).count = 1
  others : ∀ c, c ≠ b → (s.buf c).count = 0

theorem Held.of_keeps (h : s.Held view dev block b) (hs : s'.Sound view) (hkeep : s.Keeps s' b)
    (hothers : ∀ c, c ≠ b → (s'.buf c).count = 0)
    : s'.Held view dev block b := by
  constructor
  . exact hs
  . rw [hkeep.dev, h.dev_eq]
  . rw [hkeep.blocknr, h.blocknr_eq]
  . rw [hkeep.count, h.count]
  . exact hothers

theorem Held.of_io (h : s.Held view dev block b) (hs : s'.Sound view) (hio : s.Io s') : s'.Held view dev block b := by
  apply h.of_keeps hs (hio b)
  intro c hc
  rw [(hio c).count, h.others c hc]

theorem Sound.getblk_held (block : Nat) (hs : s.Sound view) (hdev : dev ≠ 0) (hzero : ∀ c, (s.buf c).count = 0) (hn : 0 < n)
    : ∃ b s', s.getblk dev block = some (b, s') ∧ s'.Held view dev block b ∧ s.Got s' view dev block b := by
  obtain ⟨⟨b, s'⟩, hok⟩ := Option.isSome_iff_exists.mp
    (hs.getblk_isSome dev block ⟨⟨0, hn⟩, hzero _⟩)
  have hgot := hs.getblk hdev hok
  refine ⟨b, s', hok, ⟨hgot.sound, hgot.dev_eq, hgot.blocknr_eq, ?_, ?_⟩, hgot⟩
  . rw [hgot.count, hzero]
  . intro c hc
    rw [(hgot.keeps c hc).count, hzero]

theorem Held.ahead (h : s.Held view dev block b) (hdev : dev ≠ 0) (hn : 2 ≤ n)
    (hread : (s.buf b).uptodate = true ∨ s.Reading b) (hfresh : (s.buf b).dirt = true → (s.buf b).uptodate = true)
    {rest : List Nat} (hrest : block ∉ rest)
    : ∃ s', breada.ahead s b dev rest = some s' ∧ s'.Held view dev block b
        ∧
      ((s'.buf b).uptodate = true ∨ s'.Reading b) := by
  induction rest generalizing s with
  | nil => exact ⟨s, rfl, h, hread⟩
  | cons first rest ih =>
    have hne : block ≠ first := List.ne_of_not_mem_cons hrest
    have hrest := List.not_mem_of_not_mem_cons hrest
    obtain ⟨c, hc⟩ : ∃ c : Fin n, c ≠ b := by
      by_cases hb : b.val = 0
      . exact ⟨⟨1, by omega⟩, fun heq => absurd (congrArg Fin.val heq) (by simp [hb])⟩
      . exact ⟨⟨0, by omega⟩, fun heq => hb (congrArg Fin.val heq).symm⟩
    obtain ⟨⟨tmp, s₁⟩, hok⟩ := Option.isSome_iff_exists.mp
      (h.sound.getblk_isSome dev first ⟨c, h.others c hc⟩)
    have hgot := h.sound.getblk hdev hok
    have htmp : b ≠ tmp := by
      intro heq
      have hzero := hgot.taken
      rw [← heq, h.blocknr_eq, h.count] at hzero
      exact absurd (hzero hne) (by decide)
    have hkeep₁ := hgot.keeps b htmp
    have hcount₁ : ∀ c, c ≠ b → c ≠ tmp → (s₁.buf c).count = 0 := by
      intro c hcb hct
      rw [(hgot.keeps c hct).count, h.others c hcb]
    obtain ⟨s₂, heq₂, hs₂, hio₂⟩ : ∃ s₂, (if (s₁.buf tmp).uptodate then s₁ else s₁.makeRequest .READ true b) = s₂
        ∧ s₂.Sound view ∧ s₁.Io s₂ := by
      refine ⟨_, rfl, ?_⟩
      split
      . exact ⟨hgot.sound, Io.refl s₁⟩
      . obtain ⟨hs₂, hio₂, _⟩ := hgot.sound.makeRequest (b := b) .READ true fun _ => by
          rw [hkeep₁.dev, h.dev_eq]
          exact ⟨hdev, fun hd => hkeep₁.uptodate (hfresh (hkeep₁.dirt hd))⟩
        exact ⟨hs₂, hio₂⟩
    have hkeep₂ := hkeep₁.trans (hio₂ b)
    have hs₃ : (s₂.setBuf tmp { s₂.buf tmp with count := (s₂.buf tmp).count - 1 }).Sound view :=
      hs₂.setBuf rfl (.inr (.inl rfl))
    have hkeep₃ : s.Keeps (s₂.setBuf tmp { s₂.buf tmp with count := (s₂.buf tmp).count - 1 }) b :=
      hkeep₂.trans (Keeps.of_eq (setBuf_of_ne htmp) id)
    have hheld : (s₂.setBuf tmp { s₂.buf tmp with count := (s₂.buf tmp).count - 1 }).Held view dev block b := by
      apply h.of_keeps hs₃ hkeep₃
      intro c hc
      by_cases hct : c = tmp
      . subst hct
        rw [setBuf_self]
        show (s₂.buf c).count - 1 = 0
        rw [(hio₂ c).count, hgot.count, h.others c hc]
      . rw [setBuf_of_ne hct, (hio₂ c).count]
        exact hcount₁ c hc hct
    have hread₃ : (((s₂.setBuf tmp { s₂.buf tmp with count := (s₂.buf tmp).count - 1 }).buf b).uptodate = true
        ∨ (s₂.setBuf tmp { s₂.buf tmp with count := (s₂.buf tmp).count - 1 }).Reading b) := by
      rcases hread with hu | hr
      . exact .inl (hkeep₃.uptodate hu)
      . exact (hkeep₃.reading hr).symm
    have hrec := ih hheld hread₃ (fun hd => hkeep₃.uptodate (hfresh (hkeep₃.dirt hd))) hrest
    unfold breada.ahead
    rw [hok]
    simp only [heq₂]
    exact hrec

theorem Sound.breada (hs : s.Sound view) (hdev : dev ≠ 0) (hn : 2 ≤ n) (hzero : ∀ c, (s.buf c).count = 0)
    (hfresh : s.Fresh dev block) {rest : List Nat} (hrest : block ∉ rest)
    : ∃ b s', s.breada dev block rest = some (some b, s') ∧ s'.Held view dev block b ∧ s'.Quiet b
        ∧
      (s'.buf b).uptodate = true := by
  obtain ⟨b, s₁, hok, hheld₁, hgot⟩ := hs.getblk_held block hdev hzero (by omega)
  have hfresh₁ := hgot.fresh hfresh
  obtain ⟨s₂, heq₂, hheld₂, hread₂, hfresh₂⟩ : ∃ s₂,
      (if (s₁.buf b).uptodate then s₁ else s₁.makeRequest .READ false b) = s₂ ∧ s₂.Held view dev block b
        ∧ ((s₂.buf b).uptodate = true ∨ s₂.Reading b) ∧ ((s₂.buf b).dirt = true → (s₂.buf b).uptodate = true) := by
    refine ⟨_, rfl, ?_⟩
    split
    . next huptodate => exact ⟨hheld₁, .inl huptodate, hfresh₁⟩
    . obtain ⟨hs₂, hio₂, hdone⟩ := hheld₁.sound.makeRequest (b := b) .READ false fun _ => by
        rw [hheld₁.dev_eq]
        exact ⟨hdev, hfresh₁⟩
      refine ⟨hheld₁.of_io hs₂ hio₂, (hdone rfl).right rfl, ?_⟩
      exact fun hd => (hio₂ b).uptodate (hfresh₁ ((hio₂ b).dirt hd))
  obtain ⟨s₃, hahead, hheld₃, hread₃⟩ := hheld₂.ahead hdev hn hread₂ hfresh₂ hrest
  obtain ⟨hs₄, hio₄, hquiet₄⟩ := hheld₃.sound.waitOnBuffer (b := b)
  have huptodate : ((s₃.waitOnBuffer b).buf b).uptodate = true := by
    rcases hread₃ with hu | hr
    . exact (hio₄ b).uptodate hu
    . rcases (hio₄ b).reading hr with ⟨i, hi⟩ | hu
      . exact absurd hi (hquiet₄ i .READ)
      . exact hu
  refine ⟨b, s₃.waitOnBuffer b, ?_, hheld₃.of_io hs₄ hio₄, hquiet₄, huptodate⟩
  unfold Cache.breada
  rw [hok]
  simp only [heq₂]
  rw [hahead]
  simp only [huptodate, if_true]

theorem Held.brelse (h : s.Held view dev block b)
    : ∃ s', s.brelse b = some s' ∧ s'.Sound view ∧ ∀ c, (s'.buf c).count = 0 := by
  obtain ⟨hs₁, hio₁, hquiet₁⟩ := h.sound.waitOnBuffer (b := b)
  have hheld := h.of_io hs₁ hio₁
  unfold Cache.brelse
  simp only [hheld.count]
  refine ⟨_, rfl, hs₁.setBuf rfl (.inr (.inl rfl)), ?_⟩
  intro c
  by_cases hc : c = b
  . subst hc
    rw [setBuf_self]
  . rw [setBuf_of_ne hc]
    exact hheld.others c hc

theorem Held.store (h : s.Held view dev block b) (hdev : dev ≠ 0) (hquiet : s.Quiet b) {v : Block}
    : (s.setBuf b { s.buf b with data := v, dirt := true }).Held (Function.update view (dev, block) v) dev block b := by
  have hself : (s.setBuf b { s.buf b with data := v, dirt := true }).buf b = { s.buf b with data := v, dirt := true } :=
    setBuf_self
  have hkey : (s.line b).key = some (dev, block) := by
    rw [line_key (h.dev_eq ▸ hdev), key, h.dev_eq, h.blocknr_eq]
  refine ⟨⟨?_, ?_, h.sound.single, ?_, h.sound.listed⟩, ?_, ?_, ?_, ?_⟩
  . apply h.sound.coherent.modify hkey _ rfl
    funext c
    by_cases hc : c = b
    . subst hc
      rw [Function.update_self]
      unfold line key
      rw [hself]
      simp
    . rw [Function.update_of_ne hc]
      unfold line key
      rw [setBuf_of_ne hc]
      rfl
  . intro i rw c hi
    have hc : c ≠ b := by
      intro heq
      exact hquiet i rw (heq ▸ hi)
    rw [setBuf_of_ne hc]
    exact h.sound.request i rw c hi
  . intro c hc
    by_cases heq : c = b
    . subst heq
      rw [hself]
      exact h.dev_eq ▸ hdev
    . rw [setBuf_of_ne heq] at hc ⊢
      exact h.sound.named c hc
  . rw [hself]
    exact h.dev_eq
  . rw [hself]
    exact h.blocknr_eq
  . rw [hself]
    exact h.count
  . intro c hc
    rw [setBuf_of_ne hc]
    exact h.others c hc

theorem Held.data_eq (h : s.Held view dev block b) (hdev : dev ≠ 0) (huptodate : (s.buf b).uptodate = true)
    : (s.buf b).data = view (dev, block) := by
  have hkey : (s.line b).key = some (dev, block) := by
    rw [line_key (h.dev_eq ▸ hdev), key, h.dev_eq, h.blocknr_eq]
  exact h.sound.coherent.value_eq b (dev, block) hkey (.inl huptodate)

end Cache

def view (m : Nat → Nat → Byte) (k : Key) : Block :=
  fun i => m k.fst (BLOCK_SIZE * k.snd + i.val)

theorem view_store {m : Nat → Nat → Byte} {dev block offset : Nat} {bytes : List Byte}
    (h : offset + bytes.length ≤ BLOCK_SIZE)
    : view (State.store m dev (BLOCK_SIZE * block + offset) bytes)
        = Function.update (view m) (dev, block) (copyIn (view m (dev, block)) offset bytes) := by
  funext k
  obtain ⟨d, j⟩ := k
  funext i
  have hi : i.val < BLOCK_SIZE := i.isLt
  unfold BLOCK_SIZE at h hi ⊢
  by_cases hd : d = dev
  . subst hd
    by_cases hj : j = block
    . subst hj
      rw [Function.update_self]
      unfold view State.store copyIn BLOCK_SIZE
      simp only [Function.update_self, Nat.add_le_add_iff_left, Nat.add_sub_add_left]
    . have hne : (d, j) ≠ (d, block) := by simp [hj]
      rw [Function.update_of_ne hne]
      unfold view State.store BLOCK_SIZE
      simp only [Function.update_self]
      split
      . next hle =>
        have hlen : bytes.length ≤ 1024 * j + i.val - (1024 * block + offset) := by omega
        rw [List.getElem?_eq_none hlen]
        rfl
      . rfl
  . have hne : (d, j) ≠ (dev, block) := by simp [hd]
    rw [Function.update_of_ne hne]
    unfold view State.store
    rw [Function.update_of_ne hd]

theorem copyIn_whole {data data' : Block} {bytes : List Byte} (h : bytes.length = BLOCK_SIZE)
    : copyIn data 0 bytes = copyIn data' 0 bytes := by
  funext i
  have hi : i.val < bytes.length := by
    rw [h]
    exact i.isLt
  unfold copyIn
  simp [List.getElem?_eq_getElem hi]

theorem copyOut_view {m : Nat → Nat → Byte} {dev block offset chars : Nat} (h : offset + chars ≤ BLOCK_SIZE)
    : copyOut (view m (dev, block)) offset chars
        = (List.range chars).map fun i => m dev (BLOCK_SIZE * block + offset + i) := by
  apply List.ext_getElem
  . unfold copyOut
    simp
    omega
  . intro i h₁ h₂
    simp only [copyOut, List.getElem_take, List.getElem_drop, List.getElem_ofFn, List.getElem_map, List.getElem_range]
    unfold view
    rw [Nat.add_assoc]

-- A call returns its count, and `block_read` delivers the bytes `m` has.
def Call.Faithful (m : Nat → Nat → Byte) : Call → Prop
  | .wrote count result => result = count
  | .returned dev pos count buf result => result = count ∧ buf = (List.range count).map fun i => m dev (pos + i)
  | _ => True

instance (m : Nat → Nat → Byte) : (call : Call) → Decidable (call.Faithful m)
  | .idle => isTrue trivial
  | .write .. => isTrue trivial
  | .wrote .. => inferInstanceAs (Decidable (_ = _))
  | .read .. => isTrue trivial
  | .returned .. => inferInstanceAs (Decidable (_ ∧ _))

def Call.Ok (m : Nat → Nat → Byte) : Call → Prop
  | .write dev _ offset count buf written => dev ≠ 0 ∧ offset < BLOCK_SIZE ∧ written + buf.length = count
  | .read dev pos count block offset rest buf =>
    dev ≠ 0 ∧ offset < BLOCK_SIZE ∧ buf.length + rest = count
      ∧ (rest ≠ 0 → BLOCK_SIZE * block + offset = pos + buf.length)
      ∧ buf = (List.range buf.length).map fun i => m dev (pos + i)
  | call => call.Faithful m

namespace State

variable {n : Nat} {s s' : State n}

def ReadsFresh (s : State n) (_ : Act) : Prop :=
  match s.call with
  | .write dev block offset _ buf _ =>
    buf ≠ [] → blockWrite.chars offset buf.length ≠ BLOCK_SIZE → s.cache.Fresh dev block
  | .read dev _ _ block _ rest _ => rest ≠ 0 → s.cache.Fresh dev block
  | _ => True

structure Inv (s : State n) : Prop where
  sound : s.cache.Sound (view s.written)
  released : ∀ b, (s.cache.buf b).count = 0
  callOk : s.call.Ok s.written

theorem Inv.writeLoop (h : s.Inv) (hn : 2 ≤ n) {dev block offset count written : Nat} {buf : List Byte}
    (hcall : s.call = .write dev block offset count buf written)
    (hfresh : buf ≠ [] → blockWrite.chars offset buf.length ≠ BLOCK_SIZE → s.cache.Fresh dev block)
    : ∃ s', blockWrite.loop s dev block offset count buf written = some s' ∧ s'.Inv := by
  have hok := h.callOk
  rw [hcall] at hok
  obtain ⟨hdev, hoffset, hcount⟩ := hok
  unfold blockWrite.loop
  by_cases hbuf : buf = []
  . rw [if_pos hbuf]
    refine ⟨_, rfl, h.sound, h.released, ?_⟩
    show (written : Int) = count
    rw [← hcount, hbuf]
    rfl
  . rw [if_neg hbuf]
    have hchars : offset + (buf.take (blockWrite.chars offset buf.length)).length ≤ BLOCK_SIZE := by
      rw [List.length_take]
      unfold blockWrite.chars
      omega
    -- The buffer has the bytes that are not overwritten.
    obtain ⟨b, c, hbuffer, hheld, hquiet, hdata⟩ : ∃ b c,
        blockWrite.buffer s.cache dev block (blockWrite.chars offset buf.length) = some (some b, c)
          ∧ c.Held (view s.written) dev block b ∧ c.Quiet b
          ∧ copyIn (c.buf b).data offset (buf.take (blockWrite.chars offset buf.length))
            = copyIn (view s.written (dev, block)) offset (buf.take (blockWrite.chars offset buf.length)) := by
      unfold blockWrite.buffer
      split
      . next hwhole =>
        obtain ⟨b, c, hok, hheld, hgot⟩ := h.sound.getblk_held block hdev h.released (by omega)
        have hzero : offset = 0 := by
          unfold blockWrite.chars at hwhole
          omega
        have hlength : (buf.take (blockWrite.chars offset buf.length)).length = BLOCK_SIZE := by
          rw [List.length_take]
          unfold blockWrite.chars at hwhole ⊢
          omega
        refine ⟨b, c, by rw [hok]; rfl, hheld, hgot.quiet, ?_⟩
        subst hzero
        exact copyIn_whole hlength
      . next hpart =>
        have hahead : block ∉ [block + 1, block + 2] := by simp
        obtain ⟨b, c, hok, hheld, hquiet, huptodate⟩ :=
          h.sound.breada hdev hn h.released (hfresh hbuf hpart) hahead
        refine ⟨b, c, hok, hheld, hquiet, ?_⟩
        rw [hheld.data_eq hdev huptodate]
    simp only [hbuffer, hdata]
    obtain ⟨c', hrelease, hsound, hreleased⟩ := (hheld.store hdev hquiet).brelse
    rw [← view_store hchars] at hsound
    rw [hrelease]
    refine ⟨_, rfl, hsound, hreleased, hdev, by decide, ?_⟩
    rw [List.length_drop]
    unfold blockWrite.chars
    omega

theorem Inv.readLoop (h : s.Inv) (hn : 2 ≤ n) {dev pos count block offset rest : Nat} {buf : List Byte}
    (hcall : s.call = .read dev pos count block offset rest buf) (hfresh : rest ≠ 0 → s.cache.Fresh dev block)
    : ∃ s', blockRead.loop s dev pos count block offset rest buf = some s' ∧ s'.Inv := by
  have hok := h.callOk
  rw [hcall] at hok
  obtain ⟨hdev, hoffset, hcount, hpos, hbytes⟩ := hok
  unfold blockRead.loop
  by_cases hrest : rest = 0
  . rw [if_pos hrest]
    rw [hrest, Nat.add_zero] at hcount
    refine ⟨_, rfl, h.sound, h.released, ?_, ?_⟩
    . rw [hcount]
    . rw [← hcount]
      exact hbytes
  . rw [if_neg hrest]
    have hahead : block ∉ [block + 1, block + 2] := by simp
    obtain ⟨b, c, hbreada, hheld, hquiet, huptodate⟩ :=
      h.sound.breada hdev hn h.released (hfresh hrest) hahead
    obtain ⟨c', hrelease, hsound, hreleased⟩ := hheld.brelse
    have hchars : offset + blockWrite.chars offset rest ≤ BLOCK_SIZE := by
      unfold blockWrite.chars
      omega
    have hle : blockWrite.chars offset rest ≤ rest := Nat.min_le_right _ _
    have hout := @copyOut_view s.written dev block _ _ hchars
    rw [← hheld.data_eq hdev huptodate] at hout
    simp only [hbreada, hout]
    rw [hrelease]
    refine ⟨_, rfl, hsound, hreleased, hdev, by decide, ?_, ?_, ?_⟩
    . simp
      omega
    . intro hmore
      have hfull : blockWrite.chars offset rest = BLOCK_SIZE - offset := by
        unfold blockWrite.chars at hmore ⊢
        omega
      have hstart := hpos hrest
      rw [hfull]
      simp only [List.length_append, List.length_map, List.length_range]
      unfold BLOCK_SIZE at *
      omega
    . rw [List.length_append, List.length_map, List.length_range, List.range_add, List.map_append, List.map_map]
      congr 1
      apply List.map_congr_left
      intro i _
      rw [hpos hrest, Function.comp_apply, Nat.add_assoc]

theorem Inv.of_irq (h : s.Inv) (irq : List (List ReqNr)) : ({ s with cache := { s.cache with irq := irq } } : State n).Inv :=
  ⟨⟨h.sound.coherent, h.sound.request, h.sound.single, h.sound.named, h.sound.listed⟩, h.released, h.callOk⟩

theorem Inv.loop (h : s.Inv) (hn : 2 ≤ n) {a : Act} (hfresh : s.ReadsFresh a) (hrunning : s.call.running = true)
    : ∃ s', s.loop = some s' ∧ s'.Inv := by
  unfold ReadsFresh at hfresh
  unfold State.loop
  cases hcall : s.call with
  | write dev block offset count buf written =>
    rw [hcall] at hfresh
    exact h.writeLoop hn hcall hfresh
  | read dev pos count block offset rest buf =>
    rw [hcall] at hfresh
    exact h.readLoop hn hcall hfresh
  | _ =>
    rw [hcall] at hrunning
    simp [Call.running] at hrunning

theorem Inv.begins (h : s.Inv) (hn : 2 ≤ n) {op : Op} (hok : s.begins op = some s') : s'.Inv := by
  cases op with
  | blockWrite dev pos buf =>
    unfold State.begins at hok
    simp only at hok
    split at hok
    . simp at hok
    . next hdev =>
      rw [Option.some.injEq] at hok
      subst hok
      refine ⟨h.sound, h.released, hdev, Nat.mod_lt _ (by decide), ?_⟩
      rw [Nat.zero_add]
  | blockRead dev pos count =>
    unfold State.begins at hok
    simp only at hok
    split at hok
    . simp at hok
    . next hdev =>
      rw [Option.some.injEq] at hok
      subst hok
      refine ⟨h.sound, h.released, hdev, Nat.mod_lt _ (by decide), Nat.zero_add count, ?_, rfl⟩
      intro _
      exact Nat.div_add_mod pos BLOCK_SIZE
  | syncDev dev =>
    rw [State.begins, Option.some.injEq] at hok
    subst hok
    obtain ⟨hsound, hio, _⟩ := h.sound.syncDev dev
    refine ⟨hsound, fun b => ?_, h.callOk⟩
    rw [(hio b).count]
    exact h.released b
  | getblk dev block =>
    unfold State.begins at hok
    simp only at hok
    split at hok
    . simp at hok
    . next hdev =>
      obtain ⟨b, c, hgetblk, hheld, _⟩ := h.sound.getblk_held block hdev h.released (by omega)
      obtain ⟨c', hrelease, hsound, hreleased⟩ := hheld.brelse
      rw [hgetblk, Option.bind_some, hrelease, Option.map_some, Option.some.injEq] at hok
      subst hok
      exact ⟨hsound, hreleased, h.callOk⟩
  | loop => simp [State.begins] at hok

theorem Inv.step (h : s.Inv) (hn : 2 ≤ n) {a : Act} (hfresh : s.ReadsFresh a) (hok : s.step a = some s') : s'.Inv := by
  unfold State.step at hok
  simp only at hok
  split at hok
  . next hrunning =>
    split at hok
    . obtain ⟨s₁, hloop, hinv⟩ := (h.of_irq a.irq).loop (a := a) hn hfresh hrunning
      rw [hloop, Option.some.injEq] at hok
      exact hok ▸ hinv
    . simp at hok
  . exact (h.of_irq a.irq).begins hn hok

theorem Inv.init (disk : Key → Block) : (State.init n disk).Inv := by
  refine ⟨⟨⟨?_, ?_, ?_⟩, ?_, ?_, ?_, List.mem_finRange⟩, fun _ => rfl, trivial⟩
  . intro i j k hi
    simp [Cache.line, State.init] at hi
  . intro i k hi
    simp [Cache.line, State.init] at hi
  . intro k _
    funext i
    have hdiv : (BLOCK_SIZE * k.snd + i.val) / BLOCK_SIZE = k.snd := by
      rw [Nat.mul_add_div (by decide), Nat.div_eq_of_lt i.isLt, Nat.add_zero]
    have hmod : (BLOCK_SIZE * k.snd + i.val) % BLOCK_SIZE = i.val := by
      rw [Nat.mul_add_mod, Nat.mod_eq_of_lt i.isLt]
    show disk k i = disk (k.fst, (BLOCK_SIZE * k.snd + i.val) / BLOCK_SIZE) ⟨(BLOCK_SIZE * k.snd + i.val) % BLOCK_SIZE, _⟩
    rw [hdiv]
    exact congrArg (disk k) (Fin.ext hmod.symm)
  . intro i rw b hi
    simp [State.init] at hi
  . intro i j rw rw' b hi
    simp [State.init] at hi
  . intro b hb
    simp [State.init] at hb

theorem Inv.faithful (h : s.Inv) : s.call.Faithful s.written := by
  have hok := h.callOk
  cases hcall : s.call with
  | write dev block offset count buf written => trivial
  | read dev pos count block offset rest buf => trivial
  | _ =>
    rw [hcall] at hok
    exact hok

-- In every run that reads in no block whose buffer is dirty and not up to date, every call returns what it is to return,
-- and its loop never stops before.
theorem reads_coherent (hn : 2 ≤ n) (disk : Key → Block) (h : Run.Reaches step ReadsFresh (init n disk) s)
    : s.call.Faithful s.written
        ∧
      ∀ irq, s.call.running = true → s.ReadsFresh ⟨irq, .loop⟩ → (s.step ⟨irq, .loop⟩).isSome := by
  have hinv : s.Inv := Run.Reaches.invariant Inv (Inv.init disk) (fun _ _ _ hinv hfresh hok => hinv.step hn hfresh hok) h
  refine ⟨hinv.faithful, ?_⟩
  intro irq hrunning hfresh
  obtain ⟨s', hloop, _⟩ := (hinv.of_irq irq).loop (a := ⟨irq, .loop⟩) hn hfresh hrunning
  unfold State.step
  simp only [hrunning, if_true]
  rw [hloop]
  rfl

instance (s : State n) (a : Act) : Decidable (s.ReadsFresh a) :=
  match h : s.call with
  | .write dev block offset _ buf _ =>
    decidable_of_iff (buf ≠ [] → blockWrite.chars offset buf.length ≠ BLOCK_SIZE → s.cache.Fresh dev block)
      (by simp only [ReadsFresh, h])
  | .read dev _ _ block _ rest _ => decidable_of_iff (rest ≠ 0 → s.cache.Fresh dev block) (by simp only [ReadsFresh, h])
  | .idle => isTrue (by simp only [ReadsFresh, h])
  | .wrote .. => isTrue (by simp only [ReadsFresh, h])
  | .returned .. => isTrue (by simp only [ReadsFresh, h])

def zeros : Key → Block := fun _ _ => 0

-- A block is written, and two bytes of it are read, after the block has been flushed if `flush` holds.
def wholeRun (flush : Bool) : List Act :=
  [⟨[], .blockWrite 1 0 (List.replicate BLOCK_SIZE 1)⟩, ⟨[], .loop⟩, ⟨[], .loop⟩]
    ++ (if flush then [⟨[], .syncDev 1⟩] else [])
    ++ [⟨[], .blockRead 1 0 2⟩, ⟨[], .loop⟩, ⟨[], .loop⟩]

theorem reads_coherent_wholeRun
    : ∃ s, Run.exec step (init 2 zeros) (wholeRun true) = some s ∧ s.call.Faithful s.written := by
  have hsome : (Run.exec step (init 2 zeros) (wholeRun true)).isSome := by decide +kernel
  have hok : Run.AllOk step ReadsFresh (init 2 zeros) (wholeRun true) := by decide +kernel
  obtain ⟨s, hs⟩ := Option.isSome_iff_exists.mp hsome
  exact ⟨s, hs, (reads_coherent (by decide) zeros (Run.Reaches.of_exec hok hs)).left⟩

-- Without the flush the block is read from the disk again, over what has been written.
theorem not_coherent_wholeRun
    : ¬∀ (s : State 2), Run.Reaches step (fun _ _ => True) (init 2 zeros) s → s.call.Faithful s.written := by
  intro h
  have hsome : (Run.exec step (init 2 zeros) (wholeRun false)).any (fun s => !decide (s.call.Faithful s.written)) = true := by
    decide +kernel
  obtain ⟨s, hs, hnot⟩ := (Option.any_eq_true _ _).mp hsome
  have hreach : Run.Reaches step (fun _ _ => True) (init 2 zeros) s :=
    Run.Reaches.of_exec (Run.allOk_of_forall fun _ _ => trivial) hs
  simp [h s hreach] at hnot

end State
end BlockDev
end OS
