import ByDoing.OS.Tty.Cooked

namespace OS
namespace Tty

namespace TtyStruct

theorem putWrite_of_room {tty : TtyStruct} (c : Byte) (h : tty.writeQ.FULL = false)
    : (tty.putWrite c).overrun = tty.overrun ∧ (tty.putWrite c).writeQ.contents = tty.writeQ.contents ++ [c] := by
  refine ⟨?_, TtyQueue.contents_PUTCH c h⟩
  show (tty.overrun || tty.writeQ.FULL) = tty.overrun
  rw [h, Bool.or_false]

theorem left_PUTCH {q : TtyQueue} (c : Byte) (h : q.FULL = false) : (q.PUTCH c).LEFT + 1 = q.LEFT := by
  have hlt := q.chars_lt
  have hfull : q.CHARS ≠ TTY_BUF_SIZE - 1 := by
    intro heq
    rw [TtyQueue.full_iff.mpr heq] at h
    cases h
  rw [TtyQueue.left_eq, TtyQueue.left_eq, TtyQueue.chars_PUTCH]
  unfold TTY_BUF_SIZE at *
  omega

theorem full_of_left {q : TtyQueue} (h : q.LEFT = 0) : q.FULL = true := by
  unfold TtyQueue.FULL
  rw [h]
  rfl

theorem not_full_of_left {q : TtyQueue} (h : 0 < q.LEFT) : q.FULL = false := by
  unfold TtyQueue.FULL
  rw [beq_eq_false_iff_ne]
  exact Nat.ne_of_gt h

theorem foldl_putWrite_of_room {tty : TtyStruct} {l : List Byte} (h : l.length ≤ tty.writeQ.LEFT)
    : (l.foldl putWrite tty).overrun = tty.overrun
        ∧ (l.foldl putWrite tty).writeQ.contents = tty.writeQ.contents ++ l
        ∧ (l.foldl putWrite tty).writeQ.LEFT + l.length = tty.writeQ.LEFT := by
  induction l generalizing tty with
  | nil => exact ⟨rfl, (List.append_nil _).symm, rfl⟩
  | cons c l ih =>
    rw [List.length_cons] at h
    have hroom : tty.writeQ.FULL = false := not_full_of_left (by omega)
    obtain ⟨hoverrun, hcontents⟩ := putWrite_of_room c hroom
    have hleft : (tty.putWrite c).writeQ.LEFT + 1 = tty.writeQ.LEFT := left_PUTCH c hroom
    obtain ⟨hoverrun', hcontents', hleft'⟩ := @ih (tty.putWrite c) (by omega)
    rw [List.foldl_cons, List.length_cons]
    refine ⟨hoverrun'.trans hoverrun, ?_, by omega⟩
    rw [hcontents', hcontents, List.append_assoc, List.singleton_append]

theorem overrun_foldl {tty : TtyStruct} (h : tty.overrun = true) (l : List Byte)
    : (l.foldl putWrite tty).overrun = true := by
  induction l generalizing tty with
  | nil => exact h
  | cons c l ih =>
    apply ih
    show (tty.overrun || tty.writeQ.FULL) = true
    rw [h, Bool.true_or]

theorem overrun_of_left {tty : TtyStruct} {l : List Byte} (h : tty.writeQ.LEFT < l.length)
    : (l.foldl putWrite tty).overrun = true := by
  induction l generalizing tty with
  | nil => exact absurd h (Nat.not_lt_zero _)
  | cons c l ih =>
    rw [List.length_cons] at h
    rw [List.foldl_cons]
    rcases Nat.eq_zero_or_pos tty.writeQ.LEFT with hzero | hpos
    . apply overrun_foldl
      show (tty.overrun || tty.writeQ.FULL) = true
      rw [full_of_left hzero, Bool.or_true]
    . have hleft : (tty.putWrite c).writeQ.LEFT + 1 = tty.writeQ.LEFT := left_PUTCH c (not_full_of_left hpos)
      apply ih
      omega

theorem foldl_putWrite_secondary (l : List Byte) (tty : TtyStruct)
    : (l.foldl putWrite tty).secondary = tty.secondary := by
  induction l generalizing tty with
  | nil => rfl
  | cons c l ih => exact ih (tty.putWrite c)

theorem chars_DEC {q q' : TtyQueue} (hhead : q'.head = DEC q.head) (htail : q'.tail = q.tail) (h : 0 < q.CHARS)
    : q'.CHARS + 1 = q.CHARS := by
  have hhead' := q.head.isLt
  have htail' := q.tail.isLt
  unfold TtyQueue.CHARS at *
  rw [hhead, htail]
  unfold DEC
  simp only [Fin.val_sub, TtyQueue.val_one] at *
  unfold TTY_BUF_SIZE at *
  omega

-- Up to its echo a round of `copy_to_cooked` leaves the other queues alone, but for the count of lines.
structure SameQueues (tty tty' : TtyStruct) : Prop where
  writeQ : tty'.writeQ = tty.writeQ
  overrun : tty'.overrun = tty.overrun
  termios : tty'.termios = tty.termios
  secondary : tty'.secondary.CHARS = tty.secondary.CHARS

theorem SameQueues.refl (tty : TtyStruct) : tty.SameQueues tty :=
  ⟨rfl, rfl, rfl, rfl⟩

theorem todo_sameQueues (tty : TtyStruct) (c : Byte) : tty.SameQueues (tty.todo c).fst := by
  unfold todo
  dsimp only
  split
  . exact .refl tty
  split
  . split
    . exact .refl tty
    . exact .refl tty
  split
  . exact ⟨rfl, rfl, rfl, rfl⟩
  split
  . exact ⟨rfl, rfl, rfl, rfl⟩
  split
  . exact ⟨rfl, rfl, rfl, rfl⟩
  split
  . exact ⟨rfl, rfl, rfl, rfl⟩
  split
  . exact ⟨rfl, rfl, rfl, rfl⟩
  . exact .refl tty

theorem next_sameQueues (ctype : CType) (tty : TtyStruct) : tty.SameQueues (tty.next ctype).fst := by
  unfold next
  dsimp only
  split
  . exact ⟨rfl, rfl, rfl, rfl⟩
  . next c _ =>
    obtain ⟨hwrite, hoverrun, htermios, hsecondary⟩ := todo_sameQueues { tty with readQ := tty.readQ.GETCH.snd } c
    exact ⟨hwrite, hoverrun, htermios, hsecondary⟩

end TtyStruct

namespace Line

open TtyStruct

variable {ctype : CType} {s s' : Line}

structure Inv (s : Line) : Prop extends s.Kept where
  room : s.echoes + s.pending ≤ s.tty.writeQ.LEFT
  places : s.stores ≤ s.tty.secondary.LEFT
  chars : s.erases ≤ s.tty.secondary.CHARS

theorem Inv.tail {call : Cooking} {calls : List Cooking} (h : s.Inv) (hcalls : s.calls = call :: calls)
    : Inv { s with calls } := by
  have hroom := h.room
  have hstores := h.places
  have herases := h.chars
  unfold echoes stores erases at *
  rw [hcalls, List.map_cons, List.sum_cons] at hroom hstores herases
  refine ⟨⟨h.overrun, h.writeQ⟩, ?_, ?_, ?_⟩
  . rw [Nat.add_assoc] at hroom
    exact (Nat.le_add_left _ _).trans hroom
  . exact (Nat.le_add_left _ _).trans hstores
  . exact (Nat.le_add_left _ _).trans herases

theorem Inv.push {call : Cooking} (h : s.Inv) (hechoes : call.echoes = 0) (hstores : call.stores = 0)
    (herases : call.erases = 0)
    : Inv { s with calls := call :: s.calls } := by
  refine ⟨⟨h.overrun, h.writeQ⟩, ?_, ?_, ?_⟩
  . show (call.echoes + s.echoes) + s.pending ≤ s.tty.writeQ.LEFT
    rw [hechoes, Nat.zero_add]
    exact h.room
  . show call.stores + s.stores ≤ s.tty.secondary.LEFT
    rw [hstores, Nat.zero_add]
    exact h.places
  . show call.erases + s.erases ≤ s.tty.secondary.CHARS
    rw [herases, Nat.zero_add]
    exact h.chars

theorem turn_inv {killing : Bool} {todo : Todo} (h : s.Inv) (hfits : s.Fits todo)
    (hstore : ∀ c, todo = .store c → s.stores < s.tty.secondary.LEFT)
    : (s.turn killing todo).Inv := by
  refine ⟨⟨h.overrun, h.writeQ⟩, ?_, ?_, ?_⟩
  . show (List.length (if _ then _ else _) + s.echoes) + s.pending ≤ s.tty.writeQ.LEFT
    rw [Nat.add_assoc]
    split
    . next hechoes => exact hfits.echo hechoes
    . exact (Nat.zero_add _).symm ▸ h.room
  . show (Cooking.doing killing todo _).stores + s.stores ≤ s.tty.secondary.LEFT
    cases todo with
    | store c => exact Nat.add_comm _ _ ▸ hstore c rfl
    | _ => exact (Nat.zero_add _).symm ▸ h.places
  . show (Cooking.doing killing todo _).erases + s.erases ≤ s.tty.secondary.CHARS
    cases todo with
    | erase c => exact Nat.add_comm _ _ ▸ hfits.erase c rfl
    | _ => exact (Nat.zero_add _).symm ▸ h.chars

theorem echo_inv {killing : Bool} {todo : Todo} {c : Byte} {echo : List Byte} {calls : List Cooking} (h : s.Inv)
    (hcalls : s.calls = .doing killing todo (c :: echo) :: calls)
    : (s.go ctype calls (.doing killing todo (c :: echo))).Inv := by
  have hroom := h.room
  have hstores := h.places
  have herases := h.chars
  unfold echoes stores erases at *
  rw [hcalls, List.map_cons, List.sum_cons] at hroom hstores herases
  rw [show (Cooking.doing killing todo (c :: echo)).echoes = echo.length + 1 from rfl] at hroom
  have hfull : s.tty.writeQ.FULL = false := not_full_of_left (by omega)
  obtain ⟨hoverrun, hcontents⟩ := putWrite_of_room c hfull
  have hleft : (s.tty.putWrite c).writeQ.LEFT + 1 = s.tty.writeQ.LEFT := left_PUTCH c hfull
  have hplaces : (Cooking.doing killing todo echo).stores = (Cooking.doing killing todo (c :: echo)).stores := by
    cases todo <;> rfl
  have hchars : (Cooking.doing killing todo echo).erases = (Cooking.doing killing todo (c :: echo)).erases := by
    cases todo <;> rfl
  rw [← hplaces] at hstores
  rw [← hchars] at herases
  refine ⟨⟨hoverrun.trans h.overrun, ?_⟩, ?_, hstores, herases⟩
  . show s.put ++ [c] = s.taken ++ (s.tty.putWrite c).writeQ.contents
    rw [hcontents, h.writeQ, List.append_assoc]
  . show (echo.length + (calls.map Cooking.echoes).sum) + s.pending ≤ (s.tty.putWrite c).writeQ.LEFT
    omega

theorem finish_inv {killing : Bool} {todo : Todo} {calls : List Cooking} (h : s.Inv)
    (hcalls : s.calls = .doing killing todo [] :: calls)
    : Inv { s with tty := s.tty.finish todo, calls } := by
  have htail := h.tail hcalls
  have hstores := h.places
  have herases := h.chars
  unfold stores at hstores
  unfold erases at herases
  rw [hcalls, List.map_cons, List.sum_cons] at hstores herases
  cases todo with
  | nothing => exact htail
  | kill => exact htail
  | store c =>
    have hone : 1 + (calls.map Cooking.stores).sum ≤ s.tty.secondary.LEFT := hstores
    have hfull : s.tty.secondary.FULL = false := not_full_of_left (by omega)
    have hleft := left_PUTCH c hfull
    have hleft' := TtyQueue.left_eq s.tty.secondary
    have hleft'' := TtyQueue.left_eq (s.tty.secondary.PUTCH c)
    refine ⟨⟨?_, htail.writeQ⟩, htail.room, ?_, ?_⟩
    . show (s.tty.overrun || s.tty.secondary.FULL) = false
      rw [h.overrun, hfull, Bool.or_false]
    . show (calls.map Cooking.stores).sum ≤ (s.tty.secondary.PUTCH c).LEFT
      omega
    . have hchars : (calls.map Cooking.erases).sum ≤ s.tty.secondary.CHARS := htail.chars
      show (calls.map Cooking.erases).sum ≤ (s.tty.secondary.PUTCH c).CHARS
      omega
  | erase c =>
    have hone : 1 + (calls.map Cooking.erases).sum ≤ s.tty.secondary.CHARS := herases
    have hchars : (s.tty.finish (.erase c)).secondary.CHARS + 1 = s.tty.secondary.CHARS :=
      chars_DEC rfl rfl (by omega)
    have hleft := TtyQueue.left_eq s.tty.secondary
    have hleft' := TtyQueue.left_eq (s.tty.finish (.erase c)).secondary
    refine ⟨⟨h.overrun, htail.writeQ⟩, htail.room, ?_, ?_⟩
    . have hplaces : (calls.map Cooking.stores).sum ≤ s.tty.secondary.LEFT := htail.places
      show (calls.map Cooking.stores).sum ≤ (s.tty.finish (.erase c)).secondary.LEFT
      omega
    . show (calls.map Cooking.erases).sum ≤ (s.tty.finish (.erase c)).secondary.CHARS
      omega

theorem getting_inv {calls : List Cooking} (h : s.Inv) (hcalls : s.calls = .getting :: calls)
    (hfits : Fits { s with tty := (s.tty.next ctype).fst, calls } (s.tty.next ctype).snd)
    : (s.go ctype calls .getting).Inv := by
  obtain ⟨hwrite, hoverrun, _, hsecondary⟩ := next_sameQueues ctype s.tty
  have htail := h.tail hcalls
  have hstores := h.places
  unfold stores at hstores
  rw [hcalls, List.map_cons, List.sum_cons] at hstores
  have hone : 1 + (calls.map Cooking.stores).sum ≤ s.tty.secondary.LEFT := hstores
  have hleft : (s.tty.next ctype).fst.secondary.LEFT = s.tty.secondary.LEFT := by
    rw [TtyQueue.left_eq, TtyQueue.left_eq, hsecondary]
  apply turn_inv
  . refine ⟨⟨hoverrun.trans h.overrun, ?_⟩, ?_, ?_, ?_⟩
    . show s.put = s.taken ++ (s.tty.next ctype).fst.writeQ.contents
      rw [hwrite]
      exact h.writeQ
    . show echoes { s with calls } + s.pending ≤ (s.tty.next ctype).fst.writeQ.LEFT
      rw [hwrite]
      exact htail.room
    . show stores { s with calls } ≤ (s.tty.next ctype).fst.secondary.LEFT
      rw [hleft]
      exact htail.places
    . show erases { s with calls } ≤ (s.tty.next ctype).fst.secondary.CHARS
      rw [hsecondary]
      exact htail.chars
  . exact hfits
  . intro _ _
    show (calls.map Cooking.stores).sum < (s.tty.next ctype).fst.secondary.LEFT
    rw [hleft]
    omega

theorem go_inv {call : Cooking} {calls : List Cooking} (h : s.Inv) (hcalls : s.calls = call :: calls)
    (hroomy : s.Roomy ctype .go)
    : (s.go ctype calls call).Inv := by
  have htail := h.tail hcalls
  unfold Roomy at hroomy
  rw [hcalls] at hroomy
  cases call with
  | loop =>
    unfold go
    dsimp only
    split
    . next hready =>
      have hstores : (calls.map Cooking.stores).sum < s.tty.secondary.LEFT := hroomy hready
      refine ⟨⟨h.overrun, h.writeQ⟩, ?_, ?_, ?_⟩
      . show (0 + (calls.map Cooking.echoes).sum) + s.pending ≤ s.tty.writeQ.LEFT
        rw [Nat.zero_add]
        exact htail.room
      . show 1 + (calls.map Cooking.stores).sum ≤ s.tty.secondary.LEFT
        omega
      . show 0 + (calls.map Cooking.erases).sum ≤ s.tty.secondary.CHARS
        rw [Nat.zero_add]
        exact htail.chars
    . exact htail
  | getting => exact getting_inv h hcalls hroomy
  | killing =>
    unfold go
    dsimp only
    split
    . exact Inv.push htail rfl rfl rfl
    . next c hc =>
      apply turn_inv htail (hroomy c hc)
      intro _ hstore
      cases hstore
  | doing killing todo echo =>
    cases echo with
    | nil =>
      have hcall : ∀ b : Bool, (if b then Cooking.killing else .loop).echoes = 0
          ∧ (if b then Cooking.killing else .loop).stores = 0 ∧ (if b then Cooking.killing else .loop).erases = 0 := by
        decide
      obtain ⟨hechoes, hstores, herases⟩ := hcall killing
      exact Inv.push (finish_inv h hcalls) hechoes hstores herases
    | cons c echo => exact echo_inv h hcalls

theorem put_inv {c : Byte} (h : s.Inv) (hstep : s.step ctype (.put c) = some s') : s'.Inv := by
  rw [step, Option.ite_none_right_eq_some, Option.some.injEq] at hstep
  obtain ⟨⟨_, hpending⟩, rfl⟩ := hstep
  have hroom := h.room
  have hfull : s.tty.writeQ.FULL = false := not_full_of_left (by omega)
  obtain ⟨hoverrun, hcontents⟩ := putWrite_of_room (nextOut ctype s.tty.termios s.crFlag c).fst hfull
  have hleft := left_PUTCH (nextOut ctype s.tty.termios s.crFlag c).fst hfull
  refine ⟨⟨hoverrun.trans h.overrun, ?_⟩, ?_, h.places, h.chars⟩
  . dsimp only
    rw [hcontents, h.writeQ, List.append_assoc]
  . show s.echoes + (s.pending - 1) ≤ (s.tty.writeQ.PUTCH _).LEFT
    omega

theorem drain_inv (h : s.Inv) (hempty : s.tty.writeQ.EMPTY = false) (hstep : s.step ctype .drain = some s') : s'.Inv := by
  rw [← Option.some.inj hstep]
  have hroom := h.room
  have hlt := s.tty.writeQ.chars_lt
  have hchars := TtyQueue.chars_GETCH s.tty.writeQ
  have hleft := TtyQueue.left_eq s.tty.writeQ
  have hpos : s.tty.writeQ.CHARS ≠ 0 := by
    intro hzero
    rw [TtyQueue.empty_iff.mpr hzero] at hempty
    cases hempty
  refine ⟨⟨h.overrun, ?_⟩, ?_, h.places, h.chars⟩
  . show s.put = (s.taken ++ [s.tty.writeQ.GETCH.fst]) ++ s.tty.writeQ.GETCH.snd.contents
    rw [h.writeQ, TtyQueue.contents_GETCH hempty, List.append_assoc, List.singleton_append]
  . show s.echoes + s.pending ≤ s.tty.writeQ.GETCH.snd.LEFT
    rw [TtyQueue.left_eq, hchars]
    unfold TTY_BUF_SIZE at *
    omega

theorem calls_nil (h : s.calls = []) : s.echoes = 0 ∧ s.stores = 0 ∧ s.erases = 0 := by
  unfold echoes stores erases
  rw [h]
  exact ⟨rfl, rfl, rfl⟩

theorem step_inv {a : LineAct} (h : s.Inv) (hroomy : s.Roomy ctype a) (hstep : s.step ctype a = some s') : s'.Inv := by
  cases a with
  | input c =>
    rw [step] at hstep
    split at hstep
    . exact Option.some.inj hstep ▸ h
    . rw [← Option.some.inj hstep]
      exact ⟨⟨h.overrun, h.writeQ⟩, h.room, h.places, h.chars⟩
  | cook =>
    rw [← Option.some.inj hstep]
    exact h.push rfl rfl rfl
  | go =>
    rw [step] at hstep
    split at hstep
    . cases hstep
    . next call calls hcalls =>
      rw [← Option.some.inj hstep]
      exact go_inv h hcalls hroomy
  | test =>
    rw [step, Option.ite_none_right_eq_some, Option.some.injEq] at hstep
    obtain ⟨⟨hcalls, _⟩, rfl⟩ := hstep
    refine ⟨⟨h.overrun, h.writeQ⟩, ?_, h.places, h.chars⟩
    show s.echoes + (s.pending + 1) ≤ s.tty.writeQ.LEFT
    rw [(calls_nil hcalls).left, Nat.zero_add]
    exact hroomy
  | put c => exact put_inv h hstep
  | drain => exact drain_inv h hroomy hstep
  | read =>
    rw [step, Option.ite_none_right_eq_some, Option.some.injEq] at hstep
    obtain ⟨⟨hcalls, _⟩, rfl⟩ := hstep
    obtain ⟨_, hstores, herases⟩ := calls_nil hcalls
    refine ⟨⟨h.overrun, h.writeQ⟩, h.room, ?_, ?_⟩
    . show s.stores ≤ _
      rw [hstores]
      exact Nat.zero_le _
    . show s.erases ≤ _
      rw [herases]
      exact Nat.zero_le _
  | settings termios =>
    rw [step, Option.ite_none_right_eq_some, Option.some.injEq] at hstep
    rw [← hstep.right]
    exact ⟨⟨h.overrun, h.writeQ⟩, h.room, h.places, h.chars⟩

theorem init_inv (termios : Termios) (buf : Nat → Byte) : (init termios buf).Inv :=
  ⟨⟨rfl, rfl⟩, Nat.zero_le _, Nat.zero_le _, Nat.zero_le _⟩

/--
In a run whose steps all leave the room that others have found no queue is overrun and no character is lost.
-/
theorem kept_of_roomy {termios : Termios} {buf : Nat → Byte}
    (h : Run.Reaches (step ctype) (Roomy ctype) (init termios buf) s)
    : s.Kept :=
  (h.invariant Inv (init_inv termios buf) fun _ _ _ hinv hroomy hstep => step_inv hinv hroomy hstep).toKept

theorem exec_echo {killing : Bool} {todo : Todo} {echo : List Byte} {calls : List Cooking}
    (hcalls : s.calls = .doing killing todo echo :: calls) (h : s.tty.writeQ.LEFT < echo.length)
    : ∃ s', Run.exec (step ctype) s (List.replicate echo.length .go) = some s' ∧ s'.tty.overrun = true := by
  suffices hexec : ∀ (echo : List Byte) (t : Line), t.calls = .doing killing todo echo :: calls →
      ∃ s', Run.exec (step ctype) t (List.replicate echo.length .go) = some s'
        ∧ s'.tty = echo.foldl putWrite t.tty by
    obtain ⟨s', hs, htty⟩ := hexec echo s hcalls
    exact ⟨s', hs, htty ▸ overrun_of_left h⟩
  intro echo
  induction echo with
  | nil => exact fun t _ => ⟨t, rfl, rfl⟩
  | cons c echo ih =>
    intro t ht
    obtain ⟨s', hs, htty⟩ := ih (t.go ctype calls (.doing killing todo (c :: echo))) rfl
    refine ⟨s', ?_, htty⟩
    have hstep : t.step ctype .go = some (t.go ctype calls (.doing killing todo (c :: echo))) := by
      rw [step, ht]
    rw [List.length_cons, List.replicate_succ, Run.exec, hstep]
    exact hs

def RoomForEcho (s : Line) (todo : Todo) : Prop :=
  todo.echoes s.tty.termios = true → (todo.echo s.tty.termios).length + (s.echoes + s.pending) ≤ s.tty.writeQ.LEFT

instance decidableRoomForEcho (s : Line) (todo : Todo) : Decidable (s.RoomForEcho todo) :=
  inferInstanceAs (Decidable (_ → _))

instance decidableFits (s : Line) : (todo : Todo) → Decidable (s.Fits todo)
  | .nothing => decidable_of_iff (s.RoomForEcho .nothing) ⟨fun h => ⟨h, nofun⟩, Fits.echo⟩
  | .kill => decidable_of_iff (s.RoomForEcho .kill) ⟨fun h => ⟨h, nofun⟩, Fits.echo⟩
  | .store c => decidable_of_iff (s.RoomForEcho (.store c)) ⟨fun h => ⟨h, nofun⟩, Fits.echo⟩
  | .erase c =>
    decidable_of_iff (s.RoomForEcho (.erase c) ∧ s.erases < s.tty.secondary.CHARS)
      ⟨fun h => ⟨h.left, fun _ _ => h.right⟩, fun h => ⟨h.echo, h.erase c rfl⟩⟩

instance decidableKilling (s : Line) (calls : List Cooking)
    : Decidable (∀ c, s.tty.erasable = some c → Fits { s with calls } (.erase c)) :=
  match s.tty.erasable with
  | none => isTrue nofun
  | some c =>
    decidable_of_iff (Fits { s with calls } (.erase c))
      ⟨fun hfits _ hc => Option.some.inj hc ▸ hfits, fun hall => hall c rfl⟩

instance decidableRoomy (s : Line) : (a : LineAct) → Decidable (s.Roomy ctype a)
  | .go =>
    match h : s.calls with
    | [] => isTrue (by simp [Roomy, h])
    | .loop :: calls =>
      decidable_of_iff (s.tty.ready = true → stores { s with calls } < s.tty.secondary.LEFT) (by simp [Roomy, h])
    | .getting :: calls =>
      decidable_of_iff (Fits { s with tty := (s.tty.next ctype).fst, calls } (s.tty.next ctype).snd)
        (by simp [Roomy, h])
    | .killing :: calls =>
      decidable_of_iff (∀ c, s.tty.erasable = some c → Fits { s with calls } (.erase c)) (by simp [Roomy, h])
    | .doing _ _ _ :: _ => isTrue (by simp [Roomy, h])
  | .input _ => isTrue trivial
  | .cook => isTrue trivial
  | .test => inferInstanceAs (Decidable (s.pending < s.tty.writeQ.LEFT))
  | .put _ => isTrue trivial
  | .drain => inferInstanceAs (Decidable (s.tty.writeQ.EMPTY = false))
  | .read => isTrue trivial
  | .settings _ => isTrue trivial

def echoing : Termios :=
  { cIflag := 0, cOflag := 0, cLflag := 0o10, cCc := fun _ => 0 }

-- The character `a` comes in while `tty_write` is between its test and `PUTCH`, and a newline, for which `copy_to_cooked`
-- is called again, while the echo of `a` is still to be put. The device takes some of it.
def echoRun : List LineAct :=
  [.test, .input 97, .cook, .go, .go, .input 10, .cook, .go, .go, .go, .drain, .go, .go, .go, .go, .go, .go, .put 98,
    .drain, .drain, .drain, .read]

theorem kept_echoRun
    : ∃ s, Run.exec (step .plain) (init echoing fun _ => 0) echoRun = some s ∧ s.taken = [10, 13, 97, 98] ∧ s.Kept := by
  have htaken : (Run.exec (step .plain) (init echoing fun _ => 0) echoRun).map taken = some [10, 13, 97, 98] := by
    decide +kernel
  obtain ⟨s, hexec, htaken⟩ := Option.map_eq_some_iff.mp htaken
  exact ⟨s, hexec, htaken, kept_of_roomy (Run.Reaches.of_exec (by decide +kernel) hexec)⟩

theorem exec_fill {tty : TtyStruct} {n : Nat} (s : Line) (htty : s.tty = tty) (hpost : tty.termios.O_POST = false)
    (hcr : s.crFlag = false) (hcalls : s.calls = []) (hpending : s.pending = 0) (h : tty.writeQ.LEFT = n) (c : Byte)
    : ∃ q put,
        Run.exec (step ctype) s (List.replicate n [.test, .put c]).flatten
            = some { s with tty := { tty with writeQ := q }, put }
          ∧ q.LEFT = 0 := by
  induction n generalizing s tty with
  | zero =>
    refine ⟨tty.writeQ, s.put, ?_, h⟩
    subst htty
    rfl
  | succ n ih =>
    subst htty
    have hfull : s.tty.writeQ.FULL = false := not_full_of_left (by omega)
    have hout : nextOut ctype s.tty.termios s.crFlag c = (c, false) := by
      unfold nextOut
      rw [hpost, if_neg Bool.false_ne_true]
    have hput : s.tty.putWrite c = { s.tty with writeQ := s.tty.writeQ.PUTCH c } := by
      unfold putWrite
      rw [hfull, Bool.or_false]
    have hleft : (s.tty.writeQ.PUTCH c).LEFT + 1 = s.tty.writeQ.LEFT := left_PUTCH c hfull
    let t : Line := { s with
      tty := { s.tty with writeQ := s.tty.writeQ.PUTCH c }, crFlag := false, pending := 0, put := s.put ++ [c] }
    have htest : s.step ctype .test = some { s with pending := 1 } := by
      rw [step, if_pos ⟨hcalls, hfull⟩, hpending]
    have hstep : step ctype { s with pending := 1 } (.put c) = some t := by
      rw [step, if_pos ⟨hcalls, Nat.one_ne_zero⟩]
      dsimp only
      rw [hout]
      dsimp only
      rw [hput]
    obtain ⟨q, put, hexec, hq⟩ := @ih t.tty t rfl hpost rfl hcalls rfl (Nat.succ.inj (hleft.trans h))
    refine ⟨q, put, ?_, hq⟩
    rw [List.replicate_succ, List.flatten_cons, List.cons_append, List.singleton_append, Run.exec, htest]
    dsimp only
    rw [Run.exec, hstep]
    dsimp only
    rw [hexec, hcr, hpending]

-- `tty_write` fills the write queue of a line that drains nothing, and a character comes in.
def fullRun : List LineAct :=
  (List.replicate 1023 ([.test, .put 97] : List LineAct)).flatten ++ ([.input 98, .cook, .go, .go, .go] : List LineAct)

-- What the line is when `copy_to_cooked` has found the character.
def cramped (q : TtyQueue) (put : List Byte) : Line :=
  { init echoing fun _ => 0 with
    tty := { (init echoing fun _ => 0).tty with
      readQ := (init echoing fun _ => 0).tty.readQ.PUTCH 98
      writeQ := q }
    calls := [.getting]
    put }

theorem next_cramped (q : TtyQueue) (put : List Byte)
    : (cramped q put).tty.next .plain
        = ({ (cramped q put).tty with readQ := (cramped q put).tty.readQ.GETCH.snd }, .store 98) := by
  simp [cramped, TtyStruct.next, TtyStruct.translate, TtyStruct.todo, echoing, init, Termios.flag, Termios.L_CANON,
    Termios.L_ISIG, Termios.I_NLCR, Termios.I_UCLC, Termios.isChar, TtyQueue.GETCH, TtyQueue.PUTCH]

theorem step_getting {calls : List Cooking} {tty : TtyStruct} {todo : Todo} (hcalls : s.calls = .getting :: calls)
    (hnext : s.tty.next ctype = (tty, todo))
    : s.step ctype .go = some (turn { s with tty, calls } (todo == .kill) todo) := by
  rw [step, hcalls]
  dsimp only
  rw [go, hnext]

theorem exec_cramped {q : TtyQueue} (hq : q.LEFT = 0) (put : List Byte)
    : ∃ s, Run.exec (step .plain) (cramped q put) [.go, .go] = some s ∧ s.tty.overrun = true := by
  let t : Line := { cramped q put with
    tty := { (cramped q put).tty with readQ := (cramped q put).tty.readQ.GETCH.snd }
    calls := [.doing false (.store 98) [98]] }
  have hkill : (Todo.store 98 == Todo.kill) = false := by decide
  have hecho : (if Todo.echoes echoing (.store 98) then Todo.echo echoing (.store 98) else []) = [98] := by decide
  have hstep : (cramped q put).step .plain .go = some t := by
    rw [@step_getting .plain (cramped q put) [] _ _ rfl (next_cramped q put), hkill]
    unfold turn
    dsimp only
    rw [show (cramped q put).tty.termios = echoing from rfl, hecho]
    rfl
  obtain ⟨s, hs, hoverrun⟩ := @exec_echo .plain t false (.store 98) [98] [] rfl (hq.symm ▸ Nat.zero_lt_one)
  refine ⟨s, ?_, hoverrun⟩
  rw [Run.exec, hstep]
  exact hs

theorem not_kept_fullRun : ∃ s, Run.exec (step .plain) (init echoing fun _ => 0) fullRun = some s ∧ ¬s.Kept := by
  obtain ⟨q, put, hexec, hq⟩ := @exec_fill .plain _ 1023 (init echoing fun _ => 0) rfl rfl rfl rfl rfl rfl 97
  obtain ⟨s, hs, hoverrun⟩ := exec_cramped hq put
  refine ⟨s, ?_, fun h => absurd (h.overrun.symm.trans hoverrun) Bool.false_ne_true⟩
  rw [fullRun, Run.exec_append, hexec]
  exact hs

end Line
end Tty
end OS
