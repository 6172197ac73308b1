import ByDoing.OS.Tty.ConWrite

namespace OS
namespace Tty

namespace TtyStruct

@[simp]
theorem finish_writeQ (tty : TtyStruct) (todo : Todo) : (tty.finish todo).writeQ = tty.writeQ := by
  cases todo with
  | _ => rfl

@[simp]
theorem finish_readQ (tty : TtyStruct) (todo : Todo) : (tty.finish todo).readQ = tty.readQ := by
  cases todo with
  | _ => rfl

@[simp]
theorem finish_termios (tty : TtyStruct) (todo : Todo) : (tty.finish todo).termios = tty.termios := by
  cases todo with
  | _ => rfl

@[simp]
theorem answer_writeQ (tty : TtyStruct) : tty.answer.writeQ = tty.writeQ := by
  unfold answer
  dsimp only

@[simp]
theorem answer_termios (tty : TtyStruct) : tty.answer.termios = tty.termios := by
  unfold answer
  dsimp only

end TtyStruct

namespace ConsoleTty

variable {v : Console.Video} {ctype : CType} {write write' : WriteRoutine} {s s' : ConsoleTty} {todo : Todo}
  {fuel fuel' nr : Nat}

def Drains (write : WriteRoutine) : Prop :=
  ∀ s s', write s = .ok s' → s'.tty.writeQ.EMPTY = true

-- Nothing has been written on the way from `s` to `s'`.
structure Still (s s' : ConsoleTty) : Prop where
  writeQ : s'.tty.writeQ = s.tty.writeQ
  put : s'.put = s.put
  taken : s'.taken = s.taken
  termios : s'.tty.termios = s.tty.termios

theorem Still.refl (s : ConsoleTty) : s.Still s :=
  ⟨rfl, rfl, rfl, rfl⟩

theorem Still.trans {t : ConsoleTty} (h : s.Still s') (h' : s'.Still t) : s.Still t :=
  ⟨h'.writeQ.trans h.writeQ, h'.put.trans h.put, h'.taken.trans h.taken, h'.termios.trans h.termios⟩

theorem still_of_tty {tty : TtyStruct} (hwrite : tty.writeQ = s.tty.writeQ) (htermios : tty.termios = s.tty.termios)
    : s.Still { s with tty } :=
  ⟨hwrite, rfl, rfl, htermios⟩

theorem perform_of_not_echoes (h : todo.echoes s.tty.termios = false)
    : s.perform write todo = .ok { s with tty := s.tty.finish todo } := by
  unfold perform
  dsimp only
  rw [h]
  rfl

def echoed (s : ConsoleTty) (todo : Todo) : ConsoleTty :=
  { s with tty := s.tty.putEcho todo, put := s.put ++ todo.echo s.tty.termios }

theorem perform_of_write {t : ConsoleTty} (h : todo.echoes s.tty.termios = true) (hwrite : write (s.echoed todo) = .ok t)
    : s.perform write todo = .ok { t with tty := t.tty.finish todo } := by
  unfold perform
  dsimp only
  rw [if_pos h]
  exact Run.bind_eq_ok_iff.mpr ⟨t, hwrite, rfl⟩

theorem perform_ok (h : s.perform write todo = .ok s')
    : todo.echoes s.tty.termios = false ∧ s' = { s with tty := s.tty.finish todo }
        ∨ ∃ t, todo.echoes s.tty.termios = true ∧ write (s.echoed todo) = .ok t
          ∧ s' = { t with tty := t.tty.finish todo } := by
  cases hechoes : todo.echoes s.tty.termios with
  | false =>
    rw [perform_of_not_echoes hechoes] at h
    exact .inl ⟨rfl, (Except.ok.inj h).symm⟩
  | true =>
    unfold perform at h
    dsimp only at h
    rw [if_pos hechoes] at h
    obtain ⟨t, hwrite, ht⟩ := Run.bind_eq_ok_iff.mp h
    exact .inr ⟨t, rfl, hwrite, (Except.ok.inj ht).symm⟩

theorem perform_forbidden (h : s.perform forbidden todo = .ok s')
    : todo.echoes s.tty.termios = false ∧ s' = { s with tty := s.tty.finish todo } := by
  rcases perform_ok h with hstill | ⟨t, _, hwrite, _⟩
  . exact hstill
  . cases hwrite

theorem perform_cases (hwrite : Drains write) (h : s.perform write todo = .ok s')
    : s.perform forbidden todo = .ok s' ∨ s'.tty.writeQ.EMPTY = true := by
  rcases perform_ok h with ⟨hechoes, rfl⟩ | ⟨t, _, ht, rfl⟩
  . exact .inl (perform_of_not_echoes hechoes)
  . right
    dsimp only
    rw [TtyStruct.finish_writeQ]
    exact hwrite _ _ ht

theorem perform_still (h : s.perform forbidden todo = .ok s') : s.Still s' := by
  obtain ⟨_, rfl⟩ := perform_forbidden h
  exact still_of_tty (s.tty.finish_writeQ todo) (s.tty.finish_termios todo)

theorem killLine_ok (h : killLine write (fuel + 1) s = .ok s')
    : s.tty.erasable = none ∧ s' = s
        ∨ ∃ c t, s.tty.erasable = some c ∧ s.perform write (.erase c) = .ok t ∧ killLine write fuel t = .ok s' := by
  unfold killLine at h
  split at h
  . next hnone => exact .inl ⟨hnone, (Except.ok.inj h).symm⟩
  . next c hsome =>
    obtain ⟨t, hperform, hrest⟩ := Run.bind_eq_ok_iff.mp h
    exact .inr ⟨c, t, hsome, hperform, hrest⟩

theorem killLine_of_none (h : s.tty.erasable = none) : killLine write (fuel + 1) s = .ok s := by
  unfold killLine
  rw [h]

theorem killLine_of_perform {c : Byte} {t : ConsoleTty} (herasable : s.tty.erasable = some c)
    (hperform : s.perform write (.erase c) = .ok t) (h : killLine write fuel t = .ok s')
    : killLine write (fuel + 1) s = .ok s' := by
  unfold killLine
  rw [herasable]
  exact Run.bind_eq_ok_iff.mpr ⟨t, hperform, h⟩

def cooked (ctype : CType) (s : ConsoleTty) : ConsoleTty :=
  { s with tty := (s.tty.next ctype).fst }

theorem cook_ok (h : cook ctype write (fuel + 1) s = .ok s')
    : s.tty.ready = false ∧ s' = s
        ∨ ∃ t, s.tty.ready = true ∧ act write fuel (s.cooked ctype) (s.tty.next ctype).snd = .ok t
          ∧ cook ctype write fuel t = .ok s' := by
  unfold cook at h
  split at h
  . next hready =>
    obtain ⟨t, hact, hrest⟩ := Run.bind_eq_ok_iff.mp h
    exact .inr ⟨t, hready, hact, hrest⟩
  . next hready => exact .inl ⟨Bool.eq_false_of_not_eq_true hready, (Except.ok.inj h).symm⟩

theorem cook_of_act {t : ConsoleTty} (hready : s.tty.ready = true)
    (hact : act write fuel (s.cooked ctype) (s.tty.next ctype).snd = .ok t) (h : cook ctype write fuel t = .ok s')
    : cook ctype write (fuel + 1) s = .ok s' := by
  unfold cook
  rw [if_pos hready]
  exact Run.bind_eq_ok_iff.mpr ⟨t, hact, h⟩

theorem cook_of_not_ready (h : s.tty.ready = false) : cook ctype write (fuel + 1) s = .ok s := by
  unfold cook
  rw [h]
  rfl

theorem cooked_still : s.Still (s.cooked ctype) :=
  still_of_tty (s.tty.next_sameQueues ctype).writeQ (s.tty.next_sameQueues ctype).termios

theorem killLine_still (h : killLine forbidden fuel s = .ok s') : s.Still s' := by
  induction fuel generalizing s with
  | zero => cases h
  | succ fuel ih =>
    rcases killLine_ok h with ⟨_, rfl⟩ | ⟨c, t, _, hperform, hrest⟩
    . exact .refl s'
    . exact (perform_still hperform).trans (ih hrest)

theorem act_still (h : act forbidden fuel s todo = .ok s') : s.Still s' := by
  unfold act at h
  split at h
  . exact killLine_still h
  . exact perform_still h

theorem cook_still (h : cook ctype forbidden fuel s = .ok s') : s.Still s' := by
  induction fuel generalizing s with
  | zero => cases h
  | succ fuel ih =>
    rcases cook_ok h with ⟨_, rfl⟩ | ⟨t, _, hact, hrest⟩
    . exact .refl s'
    . exact (cooked_still.trans (act_still hact)).trans (ih hrest)

theorem killLine_cases (hwrite : Drains write) (h : killLine write fuel s = .ok s')
    : killLine forbidden fuel s = .ok s' ∨ s'.tty.writeQ.EMPTY = true := by
  induction fuel generalizing s with
  | zero => cases h
  | succ fuel ih =>
    rcases killLine_ok h with ⟨hnone, rfl⟩ | ⟨c, t, hsome, hperform, hrest⟩
    . exact .inl (killLine_of_none hnone)
    . rcases perform_cases hwrite hperform with hstill | hempty
      . rcases ih hrest with hrest' | hempty
        . exact .inl (killLine_of_perform hsome hstill hrest')
        . exact .inr hempty
      . right
        rcases ih hrest with hrest' | hempty'
        . rw [(killLine_still hrest').writeQ]
          exact hempty
        . exact hempty'

theorem act_cases (hwrite : Drains write) (h : act write fuel s todo = .ok s')
    : act forbidden fuel s todo = .ok s' ∨ s'.tty.writeQ.EMPTY = true := by
  unfold act at *
  split at h
  . next hkill =>
    rw [if_pos hkill]
    exact killLine_cases hwrite h
  . next hkill =>
    rw [if_neg hkill]
    exact perform_cases hwrite h

theorem cook_cases (hwrite : Drains write) (h : cook ctype write fuel s = .ok s')
    : cook ctype forbidden fuel s = .ok s' ∨ s'.tty.writeQ.EMPTY = true := by
  induction fuel generalizing s with
  | zero => cases h
  | succ fuel ih =>
    rcases cook_ok h with ⟨hready, rfl⟩ | ⟨t, hready, hact, hrest⟩
    . exact .inl (cook_of_not_ready hready)
    . rcases act_cases hwrite hact with hstill | hempty
      . rcases ih hrest with hrest' | hempty
        . exact .inl (cook_of_act hready hstill hrest')
        . exact .inr hempty
      . right
        rcases ih hrest with hrest' | hempty'
        . rw [(cook_still hrest').writeQ]
          exact hempty
        . exact hempty'

theorem chars_takeChar (v : Console.Video) (h : s.tty.writeQ.EMPTY = false)
    : (s.takeChar v).tty.writeQ.CHARS + 1 = s.tty.writeQ.CHARS := by
  have hlength := congrArg List.length (TtyQueue.contents_GETCH h)
  simp only [TtyQueue.contents, Ring.length_window, List.length_cons] at hlength
  have hqueue : (s.takeChar v).tty.writeQ = s.tty.writeQ.GETCH.snd := rfl
  rw [hqueue, hlength]

theorem takeChars_ok (h : takeChars v ctype write fuel (nr + 1) s = .ok s')
    : s.tty.writeQ.EMPTY = false
        ∧ ∃ t, s.takeRound v ctype write fuel = .ok t
          ∧ takeChars v ctype write fuel nr t = .ok s' := by
  unfold takeChars at h
  split at h
  . cases h
  . next hempty =>
    obtain ⟨t, ht, hrest⟩ := Run.bind_eq_ok_iff.mp h
    exact ⟨Bool.eq_false_of_not_eq_true hempty, t, ht, hrest⟩

theorem takeChars_of_step {t : ConsoleTty} (hempty : s.tty.writeQ.EMPTY = false)
    (hstep : s.takeRound v ctype write fuel = .ok t)
    (h : takeChars v ctype write fuel nr t = .ok s')
    : takeChars v ctype write fuel (nr + 1) s = .ok s' := by
  unfold takeChars
  rw [if_neg (Bool.not_eq_true _ ▸ hempty)]
  exact Run.bind_eq_ok_iff.mpr ⟨t, hstep, h⟩

theorem respond_cases (hwrite : Drains write) (h : respond ctype write fuel s = .ok s')
    : respond ctype forbidden fuel s = .ok s' ∨ s'.tty.writeQ.EMPTY = true :=
  cook_cases hwrite h

theorem respond_still (h : respond ctype forbidden fuel s = .ok s') : s.Still s' := by
  have hanswer : s.Still { s with tty := s.tty.answer } :=
    still_of_tty s.tty.answer_writeQ s.tty.answer_termios
  exact hanswer.trans (cook_still h)

theorem takeChars_drains (hwrite : Drains write) (hnr : nr = s.tty.writeQ.CHARS)
    (h : takeChars v ctype write fuel nr s = .ok s')
    : s'.tty.writeQ.EMPTY = true := by
  induction nr generalizing s with
  | zero =>
    have heq := Except.ok.inj h
    rw [← heq]
    exact TtyQueue.empty_iff.mpr hnr.symm
  | succ nr ih =>
    obtain ⟨hempty, t, ht, hrest⟩ := takeChars_ok h
    have hchars := chars_takeChar v hempty
    unfold takeRound at ht
    split at ht
    . rcases respond_cases hwrite ht with hstill | htempty
      . apply ih _ hrest
        rw [(respond_still hstill).writeQ]
        omega
      . cases nr with
        | zero =>
          have heq := Except.ok.inj hrest
          rw [← heq]
          exact htempty
        | succ nr =>
          obtain ⟨htnot, _⟩ := takeChars_ok hrest
          rw [htempty] at htnot
          cases htnot
    . have heq := Except.ok.inj ht
      apply ih _ hrest
      rw [← heq]
      omega

theorem conWrite_drains (fuel : Nat) : Drains (conWrite v ctype fuel) := by
  induction fuel with
  | zero =>
    intro s s' h
    cases h
  | succ fuel ih =>
    intro s s' h
    exact takeChars_drains ih rfl h

theorem quiet_of_takeChars (hwrite : Drains write) (hnr : nr = s.tty.writeQ.CHARS)
    (h : takeChars v ctype write fuel nr s = .ok s')
    : Quiet v ctype s.tty.writeQ.contents s := by
  induction nr generalizing s with
  | zero =>
    rw [TtyQueue.contents_eq_nil.mpr (TtyQueue.empty_iff.mpr hnr.symm)]
    trivial
  | succ nr ih =>
    obtain ⟨hempty, t, ht, hrest⟩ := takeChars_ok h
    have hchars := chars_takeChar v hempty
    rw [TtyQueue.contents_GETCH hempty]
    unfold Quiet
    unfold takeRound at ht
    split at ht
    . next hasks =>
      rw [if_pos hasks]
      cases nr with
      | zero =>
        left
        apply TtyQueue.contents_eq_nil.mpr
        apply TtyQueue.empty_iff.mpr
        change (s.takeChar v).tty.writeQ.CHARS = 0
        omega
      | succ nr =>
        right
        rcases respond_cases hwrite ht with hstill | htempty
        . have hqueue := (respond_still hstill).writeQ
          have hquiet := ih (by rw [hqueue]; omega) hrest
          rw [hqueue] at hquiet
          exact ⟨fuel, t, hstill, hquiet⟩
        . obtain ⟨htnot, _⟩ := takeChars_ok hrest
          rw [htempty] at htnot
          cases htnot
    . next hasks =>
      rw [if_neg hasks]
      have heq := Except.ok.inj ht
      rw [← heq] at hrest
      exact ih (by omega) hrest

end ConsoleTty
end Tty
end OS
