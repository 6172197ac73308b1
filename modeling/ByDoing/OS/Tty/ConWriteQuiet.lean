import ByDoing.OS.ConsoleBounds
import ByDoing.OS.Tty.ConWriteRun

namespace OS
namespace Tty

namespace TtyQueue

-- What is to be paid for a character of the read queue. The echo of an answer does not ask for another one.
def cost (c : Byte) : Nat :=
  if c ∈ Console.RESPONSE then 1 else 9

def weight (q : TtyQueue) : Nat :=
  (q.contents.map cost).sum

variable {q : TtyQueue}

theorem weight_PUTCH (c : Byte) (q : TtyQueue) : (q.PUTCH c).weight ≤ q.weight + cost c := by
  unfold weight
  cases hfull : q.FULL with
  | true =>
    rw [contents_PUTCH_full c hfull]
    exact Nat.zero_le _
  | false =>
    rw [contents_PUTCH c hfull, List.map_append, List.sum_append, List.map_singleton, List.sum_singleton]

theorem weight_GETCH (h : q.EMPTY = false) : q.weight = cost q.GETCH.fst + q.GETCH.snd.weight := by
  unfold weight
  rw [contents_GETCH h, List.map_cons, List.sum_cons]

theorem weight_foldl (l : List Byte) (q : TtyQueue)
    : (l.foldl (fun q c => q.PUTCH c) q).weight ≤ q.weight + (l.map cost).sum := by
  induction l generalizing q with
  | nil => exact Nat.le_refl _
  | cons c l ih =>
    rw [List.foldl_cons, List.map_cons, List.sum_cons]
    have hput := weight_PUTCH c q
    have hrest := ih (q.PUTCH c)
    omega

theorem chars_DEC (h : q.EMPTY = false) : { q with head := DEC q.head }.CHARS + 1 = q.CHARS := by
  have hhead := q.head.isLt
  have htail := q.tail.isLt
  have hpos : q.CHARS ≠ 0 := by
    intro hzero
    rw [empty_iff.mpr hzero] at h
    cases h
  unfold CHARS DEC at *
  simp only [Fin.val_sub, val_one] at *
  unfold TTY_BUF_SIZE at *
  omega

end TtyQueue

open TtyQueue

namespace TtyStruct

variable {tty : TtyStruct}

theorem weight_answer (tty : TtyStruct) : tty.answer.readQ.weight ≤ tty.readQ.weight + 7 :=
  weight_foldl Console.RESPONSE tty.readQ

theorem todo_readQ (tty : TtyStruct) (c : Byte) : (tty.todo c).fst.readQ = tty.readQ := by
  unfold todo
  dsimp only
  split
  . rfl
  split
  . split
    . rfl
    . rfl
  split
  . rfl
  split
  . rfl
  split
  . rfl
  split
  . rfl
  split
  . rfl
  . rfl

theorem next_readQ (ctype : CType) (tty : TtyStruct) : (tty.next ctype).fst.readQ = tty.readQ.GETCH.snd := by
  unfold next
  dsimp only
  split
  . rfl
  . apply todo_readQ

theorem todo_store {c c' : Byte} (h : (tty.todo c).snd = .store c') : c' = c := by
  unfold todo at h
  dsimp only at h
  split at h
  . cases h
  split at h
  . split at h
    . cases h
    . cases h
  split at h
  . cases h
  split at h
  . cases h
  split at h
  . cases h
  split at h
  . cases h
  split at h
  . exact (Todo.store.inj h).symm
  . exact (Todo.store.inj h).symm

theorem putEcho_readQ (tty : TtyStruct) (todo : Todo) : (tty.putEcho todo).readQ = tty.readQ := by
  unfold putEcho
  generalize todo.echo tty.termios = l
  induction l generalizing tty with
  | nil => rfl
  | cons c l ih => exact ih (tty.putWrite c)

theorem putEcho_secondary (tty : TtyStruct) (todo : Todo) : (tty.putEcho todo).secondary = tty.secondary :=
  foldl_putWrite_secondary _ tty

theorem finish_secondary_congr {tty' : TtyStruct} (todo : Todo) (h : tty'.secondary = tty.secondary)
    : (tty'.finish todo).secondary = (tty.finish todo).secondary := by
  cases todo with
  | nothing => exact h
  | kill => exact h
  | erase c =>
    unfold finish
    dsimp only
    rw [h]
  | store c => exact congrArg (TtyQueue.PUTCH c) h

theorem ready_readQ (h : tty.ready = true) : tty.readQ.EMPTY = false := by
  unfold ready at h
  rw [Bool.and_eq_true, Bool.not_eq_true'] at h
  exact h.left

theorem erasable_secondary {c : Byte} (h : tty.erasable = some c) : tty.secondary.EMPTY = false := by
  unfold erasable at h
  dsimp only at h
  cases hempty : tty.secondary.EMPTY with
  | false => rfl
  | true =>
    rw [hempty, Bool.true_or, Bool.true_or, if_pos rfl] at h
    cases h

end TtyStruct

theorem translate_response {c : Byte} (ctype : CType) (t : Termios) (h : c ∈ Console.RESPONSE)
    : TtyStruct.translate ctype t c = some c := by
  have hspecial : ∀ c ∈ Console.RESPONSE, c ≠ 13 ∧ c ≠ 10 ∧ 0 ≤ c.toInt ∧ ¬(65 ≤ c.toNat ∧ c.toNat ≤ 90) := by
    decide
  obtain ⟨hcr, hlf, hsign, hupper⟩ := hspecial c h
  unfold TtyStruct.translate CType.tolower
  rw [if_neg hcr, if_neg fun hc => hlf hc.left, Option.map_some, ctype.isupper_eq c hsign, decide_eq_false hupper]
  simp

namespace Todo

theorem echo_dropLast (t : Termios) (todo : Todo) : (0x5a : Byte) ∉ (todo.echo t).dropLast := by
  cases todo with
  | nothing => simp [echo]
  | kill => simp [echo]
  | erase c =>
    unfold echo
    dsimp only
    split
    . decide
    . decide
  | store c =>
    unfold echo
    dsimp only
    split
    . decide
    split
    . split
      . simp
      . simp
    . simp

theorem echo_erase (t : Termios) (c : Byte) : (0x5a : Byte) ∉ echo t (.erase c) := by
  unfold echo
  dsimp only
  split
  . decide
  . decide

theorem echo_response {c : Byte} (t : Termios) (h : c ∈ Console.RESPONSE) : (0x5a : Byte) ∉ echo t (.store c) := by
  have hspecial : ∀ c ∈ Console.RESPONSE, c ≠ 10 ∧ c ≠ 0x5a ∧ c + 64 ≠ 0x5a := by
    decide
  obtain ⟨hlf, hz, hctl⟩ := hspecial c h
  unfold echo
  dsimp only
  rw [if_neg hlf]
  split
  . split
    . intro hmem
      rcases List.mem_cons.mp hmem with hcaret | hmem
      . cases hcaret
      . exact hctl (List.mem_singleton.mp hmem).symm
    . exact List.not_mem_nil
  . exact fun hmem => hz (List.mem_singleton.mp hmem).symm

theorem length_echo (t : Termios) (todo : Todo) : (todo.echo t).length ≤ 2 := by
  cases todo with
  | nothing => exact Nat.zero_le _
  | kill => exact Nat.zero_le _
  | erase c =>
    unfold echo
    dsimp only
    split
    . exact Nat.le_refl _
    . exact Nat.le_succ _
  | store c =>
    unfold echo
    dsimp only
    split
    . exact Nat.le_refl _
    split
    . split
      . exact Nat.le_refl _
      . exact Nat.zero_le _
    . exact Nat.le_succ _

end Todo

theorem next_echo_response {ctype : CType} {tty : TtyStruct} (t : Termios)
    (h : tty.readQ.GETCH.fst ∈ Console.RESPONSE)
    : (0x5a : Byte) ∉ (tty.next ctype).snd.echo t := by
  unfold TtyStruct.next
  dsimp only
  rw [translate_response ctype tty.termios h]
  dsimp only
  generalize htodo : (TtyStruct.todo _ tty.readQ.GETCH.fst).snd = todo
  cases todo with
  | nothing => exact List.not_mem_nil
  | kill => exact List.not_mem_nil
  | erase c => exact Todo.echo_erase t c
  | store c =>
    rw [TtyStruct.todo_store htodo]
    exact Todo.echo_response t h

namespace ConsoleTty

variable {v : Console.Video} {ctype : CType} {write write' : WriteRoutine} {s s' t : ConsoleTty} {todo : Todo}
  {fuel fuel' nr : Nat}

def Below (write write' : WriteRoutine) : Prop :=
  ∀ s s', write s = .ok s' → write' s = .ok s'

theorem forbidden_below (write : WriteRoutine) : Below forbidden write := by
  intro s s' h
  cases h

theorem perform_mono (hwrite : Below write write') (h : s.perform write todo = .ok s')
    : s.perform write' todo = .ok s' := by
  rcases perform_ok h with ⟨hechoes, rfl⟩ | ⟨t, hechoes, ht, rfl⟩
  . exact perform_of_not_echoes hechoes
  . exact perform_of_write hechoes (hwrite _ _ ht)

theorem killLine_mono (hwrite : Below write write') (hfuel : fuel ≤ fuel') (h : killLine write fuel s = .ok s')
    : killLine write' fuel' s = .ok s' := by
  induction fuel generalizing s fuel' with
  | zero => cases h
  | succ fuel ih =>
    obtain ⟨n, rfl⟩ := Nat.exists_eq_succ_of_ne_zero (Nat.ne_of_gt (Nat.lt_of_lt_of_le fuel.succ_pos hfuel))
    rcases killLine_ok h with ⟨hnone, rfl⟩ | ⟨c, t, hsome, hperform, hrest⟩
    . exact killLine_of_none hnone
    . exact killLine_of_perform hsome (perform_mono hwrite hperform) (ih (Nat.le_of_succ_le_succ hfuel) hrest)

theorem act_mono (hwrite : Below write write') (hfuel : fuel ≤ fuel') (h : act write fuel s todo = .ok s')
    : act write' fuel' s todo = .ok s' := by
  unfold act at *
  split at h
  . next hkill =>
    rw [if_pos hkill]
    exact killLine_mono hwrite hfuel h
  . next hkill =>
    rw [if_neg hkill]
    exact perform_mono hwrite h

theorem cook_mono (hwrite : Below write write') (hfuel : fuel ≤ fuel') (h : cook ctype write fuel s = .ok s')
    : cook ctype write' fuel' s = .ok s' := by
  induction fuel generalizing s fuel' with
  | zero => cases h
  | succ fuel ih =>
    obtain ⟨n, rfl⟩ := Nat.exists_eq_succ_of_ne_zero (Nat.ne_of_gt (Nat.lt_of_lt_of_le fuel.succ_pos hfuel))
    rcases cook_ok h with ⟨hready, rfl⟩ | ⟨t, hready, hact, hrest⟩
    . exact cook_of_not_ready hready
    . have hle := Nat.le_of_succ_le_succ hfuel
      exact cook_of_act hready (act_mono hwrite hle hact) (ih hle hrest)

theorem takeRound_mono (hwrite : Below write write') (hfuel : fuel ≤ fuel')
    (h : s.takeRound v ctype write fuel = .ok s')
    : s.takeRound v ctype write' fuel' = .ok s' := by
  unfold takeRound at *
  split at h
  . next hasks =>
    rw [if_pos hasks]
    exact cook_mono hwrite hfuel h
  . next hasks =>
    rw [if_neg hasks]
    exact h

theorem takeChars_mono (hwrite : Below write write') (hfuel : fuel ≤ fuel')
    (h : takeChars v ctype write fuel nr s = .ok s')
    : takeChars v ctype write' fuel' nr s = .ok s' := by
  induction nr generalizing s with
  | zero => exact h
  | succ nr ih =>
    obtain ⟨hempty, t, hstep, hrest⟩ := takeChars_ok h
    exact takeChars_of_step hempty (takeRound_mono hwrite hfuel hstep) (ih hrest)

theorem conWrite_mono (hfuel : fuel ≤ fuel') : Below (conWrite v ctype fuel) (conWrite v ctype fuel') := by
  induction fuel generalizing fuel' with
  | zero =>
    intro s s' h
    cases h
  | succ fuel ih =>
    obtain ⟨n, rfl⟩ := Nat.exists_eq_succ_of_ne_zero (Nat.ne_of_gt (Nat.lt_of_lt_of_le fuel.succ_pos hfuel))
    intro s s' h
    have hle := Nat.le_of_succ_le_succ hfuel
    exact takeChars_mono (ih hle) hle h

def Balanced (s : ConsoleTty) : Prop :=
  s.put = s.taken ++ s.tty.writeQ.contents

structure Settled (s : ConsoleTty) : Prop where
  empty : s.tty.writeQ.EMPTY = true
  taken : s.taken = s.put

theorem Balanced.settled (h : s.Balanced) (hempty : s.tty.writeQ.EMPTY = true) : s.Settled := by
  refine ⟨hempty, ?_⟩
  rw [h, TtyQueue.contents_eq_nil.mpr hempty, List.append_nil]

theorem Balanced.still (h : s.Balanced) (hstill : s.Still s') : s'.Balanced := by
  unfold Balanced
  rw [hstill.put, hstill.taken, hstill.writeQ]
  exact h

theorem Settled.still (h : s.Settled) (hstill : s.Still s') : s'.Settled := by
  refine ⟨?_, ?_⟩
  . rw [hstill.writeQ]
    exact h.empty
  . rw [hstill.put, hstill.taken]
    exact h.taken

theorem takeChar_contents (v : Console.Video) (hempty : s.tty.writeQ.EMPTY = false)
    : s.tty.writeQ.contents = s.tty.writeQ.GETCH.fst :: (s.takeChar v).tty.writeQ.contents :=
  TtyQueue.contents_GETCH hempty

theorem Balanced.takeChar (v : Console.Video) (h : s.Balanced) (hempty : s.tty.writeQ.EMPTY = false)
    : (s.takeChar v).Balanced := by
  unfold Balanced at *
  show s.put = (s.taken ++ [s.tty.writeQ.GETCH.fst]) ++ (s.takeChar v).tty.writeQ.contents
  rw [h, takeChar_contents v hempty, List.append_assoc, List.singleton_append]

theorem Settled.echoed (h : s.Settled) (todo : Todo)
    : (s.echoed todo).Balanced ∧ (s.echoed todo).tty.writeQ.contents = todo.echo s.tty.termios := by
  have hleft : (todo.echo s.tty.termios).length ≤ s.tty.writeQ.LEFT := by
    have hlength := Todo.length_echo s.tty.termios todo
    rw [TtyQueue.left_eq, TtyQueue.empty_iff.mp h.empty]
    unfold TTY_BUF_SIZE
    omega
  have hcontents : (s.echoed todo).tty.writeQ.contents = todo.echo s.tty.termios := by
    have hput := (TtyStruct.foldl_putWrite_of_room hleft).right.left
    rw [TtyQueue.contents_eq_nil.mpr h.empty] at hput
    exact hput
  refine ⟨?_, hcontents⟩
  unfold Balanced
  rw [hcontents]
  show s.put ++ todo.echo s.tty.termios = s.taken ++ todo.echo s.tty.termios
  rw [h.taken]

structure Taken (s s' : ConsoleTty) : Prop where
  settled : s'.Settled
  readQ : s'.tty.readQ = s.tty.readQ
  secondary : s'.tty.secondary = s.tty.secondary
  termios : s'.tty.termios = s.tty.termios

theorem Taken.takeChar (h : (s.takeChar v).Taken s') : s.Taken s' :=
  ⟨h.settled, h.readQ, h.secondary, h.termios⟩

theorem takeChars_late (hnr : nr = s.tty.writeQ.CHARS) (h : s.Balanced)
    (hlate : (0x5a : Byte) ∉ s.tty.writeQ.contents.dropLast)
    : ∃ t, s.Taken t ∧
        ((∀ write fuel, takeChars v ctype write fuel nr s = .ok t) ∨
          (0x5a : Byte) ∈ s.tty.writeQ.contents ∧
            ∀ write fuel s', respond ctype write fuel t = .ok s' → takeChars v ctype write fuel nr s = .ok s') := by
  induction nr generalizing s with
  | zero =>
    exact ⟨s, ⟨h.settled (TtyQueue.empty_iff.mpr hnr.symm), rfl, rfl, rfl⟩, .inl fun _ _ => rfl⟩
  | succ nr ih =>
    have hempty : s.tty.writeQ.EMPTY = false := by
      rw [← Bool.not_eq_true, TtyQueue.empty_iff, ← hnr]
      exact Nat.succ_ne_zero nr
    have hchars := chars_takeChar v hempty
    have hcontents := takeChar_contents v hempty
    rw [hcontents] at hlate ⊢
    cases hasks : s.asks with
    | true =>
      have hz : s.tty.writeQ.GETCH.fst = 0x5a := by
        unfold asks at hasks
        rw [Bool.and_eq_true, beq_iff_eq, beq_iff_eq] at hasks
        exact hasks.right
      have hrest : (s.takeChar v).tty.writeQ.contents = [] := by
        cases hrest : (s.takeChar v).tty.writeQ.contents with
        | nil => rfl
        | cons c l =>
          rw [hrest, hz, List.dropLast_cons_cons] at hlate
          exact absurd List.mem_cons_self hlate
      have hlast := TtyQueue.contents_eq_nil.mp hrest
      have hzero : nr = 0 := by
        have hcount := TtyQueue.empty_iff.mp hlast
        omega
      subst hzero
      refine ⟨s.takeChar v, ⟨(h.takeChar v hempty).settled hlast, rfl, rfl, rfl⟩, .inr ⟨?_, ?_⟩⟩
      . rw [hz]
        exact List.mem_cons_self
      . intro write fuel s' hrespond
        apply takeChars_of_step hempty _ rfl
        unfold takeRound
        rw [if_pos hasks]
        exact hrespond
    | false =>
      have hround : ∀ write fuel, s.takeRound v ctype write fuel = .ok (s.takeChar v) := by
        intro write fuel
        unfold takeRound
        rw [hasks]
        rfl
      have hlate' : (0x5a : Byte) ∉ (s.takeChar v).tty.writeQ.contents.dropLast := by
        intro hmem
        apply hlate
        cases hrest : (s.takeChar v).tty.writeQ.contents with
        | nil =>
          rw [hrest] at hmem
          cases hmem
        | cons c l =>
          rw [hrest] at hmem
          rw [List.dropLast_cons_cons]
          exact List.mem_cons_of_mem _ hmem
      obtain ⟨t, htaken, hcalm | ⟨hmem, hasked⟩⟩ := ih (by omega) (h.takeChar v hempty) hlate'
      . exact ⟨t, htaken.takeChar, .inl fun write fuel => takeChars_of_step hempty (hround write fuel) (hcalm write fuel)⟩
      . refine ⟨t, htaken.takeChar, .inr ⟨List.mem_cons_of_mem _ hmem, ?_⟩⟩
        intro write fuel s' hrespond
        exact takeChars_of_step hempty (hround write fuel) (hasked write fuel s' hrespond)

-- `copy_to_cooked` returns, and nothing waits behind it.
def Cooks (v : Console.Video) (ctype : CType) (s : ConsoleTty) : Prop :=
  ∃ n s', cook ctype (conWrite v ctype n) n s = .ok s' ∧ s'.Settled
    ∧ s'.tty.readQ.weight ≤ s.tty.readQ.weight

def asked (todo : Todo) (t : Termios) : Nat :=
  if (0x5a : Byte) ∈ todo.echo t then 7 else 0

theorem Settled.finish (h : s.Settled) (todo : Todo) : Settled { s with tty := s.tty.finish todo } :=
  h.still (still_of_tty (s.tty.finish_writeQ todo) (s.tty.finish_termios todo))

theorem perform_calm (h : s.Settled) (hcalm : (0x5a : Byte) ∉ todo.echo s.tty.termios)
    : ∃ s', s.perform (conWrite v ctype 1) todo = .ok s' ∧ s'.Settled ∧ s'.tty.readQ = s.tty.readQ
        ∧ s'.tty.secondary = (s.tty.finish todo).secondary := by
  cases hechoes : todo.echoes s.tty.termios with
  | false => exact ⟨_, perform_of_not_echoes hechoes, h.finish todo, s.tty.finish_readQ todo, rfl⟩
  | true =>
    obtain ⟨hbalanced, hcontents⟩ := h.echoed todo
    have hlate : (0x5a : Byte) ∉ (s.echoed todo).tty.writeQ.contents.dropLast := by
      rw [hcontents]
      exact Todo.echo_dropLast _ todo
    obtain ⟨t, htaken, hwrite | ⟨hmem, _⟩⟩ := @takeChars_late v ctype _ _ rfl hbalanced hlate
    . refine ⟨_, perform_of_write hechoes (hwrite _ 0), htaken.settled.finish todo, ?_, ?_⟩
      . dsimp only
        rw [TtyStruct.finish_readQ, htaken.readQ]
        exact s.tty.putEcho_readQ todo
      . dsimp only
        apply TtyStruct.finish_secondary_congr
        rw [htaken.secondary]
        exact s.tty.putEcho_secondary todo
    . rw [hcontents] at hmem
      exact absurd hmem hcalm

theorem perform_cooks (h : s.Settled)
    (hcooks : (0x5a : Byte) ∈ todo.echo s.tty.termios →
      ∀ t : ConsoleTty, t.Settled → t.tty.readQ.weight ≤ s.tty.readQ.weight + 7 → t.Cooks v ctype)
    : ∃ n s', s.perform (conWrite v ctype n) todo = .ok s' ∧ s'.Settled
        ∧ s'.tty.readQ.weight ≤ s.tty.readQ.weight + asked todo s.tty.termios := by
  unfold asked
  by_cases hmem : (0x5a : Byte) ∈ todo.echo s.tty.termios
  . rw [if_pos hmem]
    cases hechoes : todo.echoes s.tty.termios with
    | false =>
      refine ⟨0, _, perform_of_not_echoes hechoes, h.finish todo, ?_⟩
      dsimp only
      rw [TtyStruct.finish_readQ]
      exact Nat.le_add_right _ _
    | true =>
      obtain ⟨hbalanced, hcontents⟩ := h.echoed todo
      have hlate : (0x5a : Byte) ∉ (s.echoed todo).tty.writeQ.contents.dropLast := by
        rw [hcontents]
        exact Todo.echo_dropLast _ todo
      obtain ⟨t, htaken, hwrite⟩ := @takeChars_late v ctype _ _ rfl hbalanced hlate
      have hread : t.tty.readQ = s.tty.readQ := htaken.readQ.trans (s.tty.putEcho_readQ todo)
      rcases hwrite with hwrite | ⟨_, hwrite⟩
      . refine ⟨1, _, perform_of_write hechoes (hwrite _ 0), htaken.settled.finish todo, ?_⟩
        dsimp only
        rw [TtyStruct.finish_readQ, hread]
        exact Nat.le_add_right _ _
      . have hanswer := t.tty.weight_answer
        rw [hread] at hanswer
        obtain ⟨n, s', hcook, hsettled, hweight⟩ := hcooks hmem { t with tty := t.tty.answer }
          (htaken.settled.still (still_of_tty t.tty.answer_writeQ t.tty.answer_termios)) hanswer
        refine ⟨n + 1, _, perform_of_write hechoes (hwrite _ n s' hcook), hsettled.finish todo, ?_⟩
        dsimp only at hweight ⊢
        rw [TtyStruct.finish_readQ]
        exact hweight.trans hanswer
  . rw [if_neg hmem]
    obtain ⟨s', hperform, hsettled, hread, _⟩ := @perform_calm v ctype s todo h hmem
    exact ⟨1, s', hperform, hsettled, Nat.le_of_eq (congrArg weight hread)⟩

theorem killLine_cooks {n : Nat} (h : s.Settled) (hn : s.tty.secondary.CHARS ≤ n)
    : ∃ s', killLine (conWrite v ctype 1) (n + 1) s = .ok s' ∧ s'.Settled ∧ s'.tty.readQ = s.tty.readQ := by
  induction n generalizing s with
  | zero =>
    cases herasable : s.tty.erasable with
    | none => exact ⟨s, killLine_of_none herasable, h, rfl⟩
    | some c =>
      have hchars := TtyQueue.chars_DEC (TtyStruct.erasable_secondary herasable)
      omega
  | succ n ih =>
    cases herasable : s.tty.erasable with
    | none => exact ⟨s, killLine_of_none herasable, h, rfl⟩
    | some c =>
      have hchars := TtyQueue.chars_DEC (TtyStruct.erasable_secondary herasable)
      obtain ⟨t, hperform, hsettled, hread, hsecondary⟩ :=
        @perform_calm v ctype s (.erase c) h (Todo.echo_erase _ c)
      have ht : t.tty.secondary.CHARS ≤ n := by
        rw [hsecondary]
        exact Nat.le_of_succ_le_succ (hchars.trans_le hn)
      obtain ⟨s', hkill, hsettled', hread'⟩ := ih hsettled ht
      exact ⟨s', killLine_of_perform herasable hperform hkill, hsettled', hread'.trans hread⟩

theorem act_cooks (h : s.Settled)
    (hcooks : (0x5a : Byte) ∈ todo.echo s.tty.termios →
      ∀ t : ConsoleTty, t.Settled → t.tty.readQ.weight ≤ s.tty.readQ.weight + 7 → t.Cooks v ctype)
    : ∃ n s', act (conWrite v ctype n) n s todo = .ok s' ∧ s'.Settled
        ∧ s'.tty.readQ.weight ≤ s.tty.readQ.weight + asked todo s.tty.termios := by
  by_cases hkill : todo = .kill
  . obtain ⟨s', hloop, hsettled, hread⟩ := @killLine_cooks v ctype s _ h (Nat.le_refl _)
    refine ⟨s.tty.secondary.CHARS + 1, s', ?_, hsettled, ?_⟩
    . unfold act
      rw [if_pos hkill]
      exact killLine_mono (conWrite_mono (Nat.le_add_left _ _)) (Nat.le_refl _) hloop
    . rw [hread]
      exact Nat.le_add_right _ _
  . obtain ⟨n, s', hperform, hsettled, hweight⟩ := perform_cooks h hcooks
    refine ⟨n, s', ?_, hsettled, hweight⟩
    unfold act
    rw [if_neg hkill]
    exact hperform

theorem cost_pos (c : Byte) : 0 < cost c := by
  unfold cost
  split
  . exact Nat.one_pos
  . exact Nat.succ_pos 8

theorem cooks_of_settled (h : s.Settled) : s.Cooks v ctype := by
  induction hm : s.tty.readQ.weight using Nat.strong_induction_on generalizing s with
  | _ m ih =>
    cases hready : s.tty.ready with
    | false => exact ⟨1, s, cook_of_not_ready hready, h, Nat.le_refl _⟩
    | true =>
      have hweight := TtyQueue.weight_GETCH (TtyStruct.ready_readQ hready)
      have hcost := cost_pos s.tty.readQ.GETCH.fst
      have hread : (s.cooked ctype).tty.readQ = s.tty.readQ.GETCH.snd := s.tty.next_readQ ctype
      have hsettled : (s.cooked ctype).Settled := h.still cooked_still
      -- A character that asks is none of an answer.
      have hasking : (0x5a : Byte) ∈ (s.tty.next ctype).snd.echo (s.cooked ctype).tty.termios →
          (s.cooked ctype).tty.readQ.weight + 9 = s.tty.readQ.weight := by
        intro hmem
        have hnot : s.tty.readQ.GETCH.fst ∉ Console.RESPONSE := fun hresponse =>
          next_echo_response _ hresponse hmem
        have hnine : cost s.tty.readQ.GETCH.fst = 9 := if_neg hnot
        rw [hread]
        omega
      obtain ⟨n, t, hact, ht, hless⟩ := @act_cooks v ctype _ (s.tty.next ctype).snd hsettled (by
        intro hmem t ht hle
        have hnine := hasking hmem
        exact ih _ (by omega) ht rfl)
      have hlt : t.tty.readQ.weight < s.tty.readQ.weight := by
        unfold asked at hless
        split at hless
        . next hmem =>
          have hnine := hasking hmem
          omega
        . rw [hread] at hless
          omega
      obtain ⟨n', s', hcook, hs', hle⟩ := ih _ (hm ▸ hlt) ht rfl
      refine ⟨max n n' + 1, s', ?_, hs', by omega⟩
      apply cook_of_act hready
      . exact act_mono (conWrite_mono (by omega)) (by omega) hact
      . exact cook_mono (conWrite_mono (by omega)) (by omega) hcook

theorem takeChars_of_quiet (hnr : nr = s.tty.writeQ.CHARS) (h : s.Balanced)
    (hquiet : Quiet v ctype s.tty.writeQ.contents s)
    : ∃ n s', takeChars v ctype (conWrite v ctype n) n nr s = .ok s' ∧ s'.Settled := by
  induction nr generalizing s with
  | zero => exact ⟨0, s, rfl, h.settled (TtyQueue.empty_iff.mpr hnr.symm)⟩
  | succ nr ih =>
    have hempty : s.tty.writeQ.EMPTY = false := by
      rw [← Bool.not_eq_true, TtyQueue.empty_iff, ← hnr]
      exact Nat.succ_ne_zero nr
    have hchars := chars_takeChar v hempty
    have hbalanced := h.takeChar v hempty
    rw [takeChar_contents v hempty] at hquiet
    unfold Quiet at hquiet
    split at hquiet
    . next hasks =>
      rcases hquiet with hrest | ⟨fuel, t, hrespond, hquiet⟩
      . -- The answer to the last character.
        have hlast := TtyQueue.contents_eq_nil.mp hrest
        have hzero : nr = 0 := by
          have hcount := TtyQueue.empty_iff.mp hlast
          omega
        subst hzero
        have hsettled := (hbalanced.settled hlast).still
          (still_of_tty (s.takeChar v).tty.answer_writeQ (s.takeChar v).tty.answer_termios)
        obtain ⟨n, s', hcook, hs', _⟩ := @cooks_of_settled v ctype _ hsettled
        refine ⟨n, s', takeChars_of_step hempty ?_ rfl, hs'⟩
        unfold takeRound
        rw [if_pos hasks]
        exact hcook
      . have hstill := respond_still hrespond
        have hqueue := hstill.writeQ
        obtain ⟨n, s', hrest, hs'⟩ := ih (by rw [hqueue]; omega) (hbalanced.still hstill) (hqueue ▸ hquiet)
        have hround : s.takeRound v ctype forbidden fuel = .ok t := by
          unfold takeRound
          rw [if_pos hasks]
          exact hrespond
        refine ⟨max n fuel, s', ?_, hs'⟩
        apply takeChars_of_step hempty (takeRound_mono (forbidden_below _) (Nat.le_max_right n fuel) hround)
        exact takeChars_mono (conWrite_mono (Nat.le_max_left n fuel)) (Nat.le_max_left n fuel) hrest
    . next hasks =>
      obtain ⟨n, s', hrest, hs'⟩ := ih (by omega) hbalanced hquiet
      refine ⟨n, s', takeChars_of_step hempty ?_ hrest, hs'⟩
      unfold takeRound
      rw [if_neg hasks]

/--
`con_write` takes every character once and in order exactly if every answer in the middle of them can be given without a
call of `tty->write`.
-/
theorem takesAll_iff (v : Console.Video) (ctype : CType) (console : Console) (tty : TtyStruct)
    : TakesAll v ctype (init console tty) ↔ Quiet v ctype tty.writeQ.contents (init console tty) := by
  constructor
  . rintro ⟨fuel, s', h, _, _⟩
    cases fuel with
    | zero => cases h
    | succ fuel => exact quiet_of_takeChars (conWrite_drains fuel) rfl h
  . intro hquiet
    obtain ⟨n, s', h, hsettled⟩ := @takeChars_of_quiet v ctype (init console tty) _ rfl rfl hquiet
    exact ⟨n + 1, s', h, hsettled.empty, hsettled.taken⟩

-- The settings of the console in `tty_table`.
def consoleTermios : Termios :=
  {
    cIflag := 0o400
    cOflag := 0o1 ||| 0o4
    cLflag := 0o1 ||| 0o2 ||| 0o10 ||| 0o1000 ||| 0o4000
    cCc := fun i =>
      [3, 0o34, 0o177, 0o25, 4, 0, 1, 0, 0o21, 0o23, 0o32, 0, 0o22, 0o17, 0o27, 0o26, 0].getD i.val 0
  }

-- A program has written `ESC Z` and the letter `a` to the console.
def asking : TtyStruct :=
  let q : TtyQueue := { data := 0, head := 0, tail := 0, buf := fun _ => 0 }
  {
    termios := consoleTermios
    stopped := false
    readQ := q
    writeQ := [27, 0x5a, 97].foldl (fun q c => q.PUTCH c) q
    secondary := q
    intr := []
    overrun := false
  }

theorem not_takesAll_asking
    : ¬TakesAll Console.vga.video .plain (init (Console.conInit Console.vga fun _ => 0) asking) := by
  rintro ⟨fuel, s', h, _, _⟩
  cases fuel with
  | zero => cases h
  | succ fuel =>
    have hquiet : Quiet Console.vga.video .plain [27, 0x5a, 97]
        (init (Console.conInit Console.vga fun _ => 0) asking) :=
      quiet_of_takeChars (conWrite_drains fuel) rfl h
    unfold Quiet at hquiet
    rw [if_neg (by decide)] at hquiet
    unfold Quiet at hquiet
    rw [if_pos (by decide)] at hquiet
    rcases hquiet with hnil | ⟨fuel, t, hrespond, _⟩
    . cases hnil
    . -- The first character of the answer is echoed.
      cases fuel with
      | zero => cases hrespond
      | succ fuel =>
        rcases cook_ok hrespond with ⟨hready, _⟩ | ⟨t, _, hact, _⟩
        . exact absurd hready (by decide)
        . unfold act at hact
          rw [if_neg (by decide)] at hact
          exact absurd (perform_forbidden hact).left (by decide)

end ConsoleTty
end Tty
end OS
