import ByDoing.Cpp.WellTyped
import ByDoing.Lib.Custody

namespace SmartPtr

open Custody

section Accounted

structure Accounted (s : State) (place : Obj → Place Var) : Prop where
  agrees : Agrees s.get place
  fresh : ∀ o, place o = .fresh ↔ s.allocated ≤ o
  released : Logged s.released .out place
  deleted : Logged s.deleted .gone place

def Call.move (next : Obj) (place : Obj → Place Var) : Call → Obj → Place Var
  | .ctorNew this => Function.update place next (.held this)
  | .ctorNull _ | .copyCtor _ _ => place
  | .releaseCtor this other => Place.relocate (.held other) (.held this) place
  | .swap this rhs => fun o => (place o).rename (Equiv.swap this rhs)
  | .release this => Place.relocate (.held this) .out place
  | .dtor this => Place.relocate (.held this) .gone place

-- The pointer that is copied is null.
def NoOwnerCopied (s : State) : Call → Prop
  | .copyCtor _ other => s.get other = none
  | _ => True

variable {s s' : State} {place : Obj → Place Var} {call : Call}

theorem Accounted.same (h : Accounted s place) {t : State} (hget : t.get = s.get)
    (hallocated : t.allocated = s.allocated) (hreleased : t.released = s.released) (hdeleted : t.deleted = s.deleted)
    : Accounted t place := by
  constructor
  . rw [hget]
    exact h.agrees
  . rw [hallocated]
    exact h.fresh
  . rw [hreleased]
    exact h.released
  . rw [hdeleted]
    exact h.deleted

theorem Accounted.ctorNew (h : Accounted s place) {this : Var} (hthis : s.alive this = false)
    : Accounted ((Call.ctorNew this).run s) ((Call.ctorNew this).move s.allocated place) := by
  have hfresh : place s.allocated = .fresh := (h.fresh _).mpr (Nat.le_refl _)
  constructor
  . show Agrees (State.set _ this (some s.allocated)).get _
    rw [State.get_set]
    apply h.agrees.put (State.get_of_not_alive hthis)
    simp [hfresh]
  . intro o
    show Function.update place s.allocated (.held this) o = .fresh ↔ s.allocated + 1 ≤ o
    by_cases ho : o = s.allocated
    . simp [ho]
    . rw [Function.update_of_ne ho, h.fresh]
      exact ⟨fun hle => Nat.lt_of_le_of_ne hle (Ne.symm ho), Nat.le_of_succ_le⟩
  . apply h.released.update
    . simp [hfresh]
    . simp
  . apply h.deleted.update
    . simp [hfresh]
    . simp

theorem Accounted.set_none (h : Accounted s place) {this : Var} (hthis : s.alive this = false)
    : Accounted (s.set this none) place := by
  have hget : (s.set this none).get = s.get := by
    rw [State.get_set, ← State.get_of_not_alive hthis, Function.update_eq_self]
  exact h.same hget rfl rfl rfl

theorem Accounted.fresh_relocate (h : Accounted s place) {p q : Place Var} (hp : p ≠ .fresh) (hq : q ≠ .fresh)
    (o : Obj)
    : Place.relocate p q place o = .fresh ↔ s.allocated ≤ o := by
  rw [← h.fresh, Place.relocate]
  split
  . next ho => simp [ho, hp, hq]
  . rfl

theorem Accounted.releaseCtor (h : Accounted s place) {this other : Var} (hthis : s.alive this = false)
    (hother : s.alive other = true)
    : Accounted (SmartPtr.releaseCtor this other s) (Place.relocate (.held other) (.held this) place) := by
  have hne : this ≠ other := by
    rintro rfl
    rw [hthis] at hother
    cases hother
  constructor
  . show Agrees ((s.set other none).set this (s.get other)).get _
    rw [State.get_set, State.get_set]
    exact h.agrees.give hne (State.get_of_not_alive hthis)
  . apply h.fresh_relocate <;> simp
  . apply h.released.relocate <;> simp
  . apply h.deleted.relocate <;> simp

theorem Accounted.swap (h : Accounted s place) (this rhs : Var)
    : Accounted (SmartPtr.swap this rhs s) (fun o => (place o).rename (Equiv.swap this rhs)) := by
  have hiff : ∀ {q : Place Var} (o : Obj), (∀ x, q ≠ .held x) →
      ((place o).rename (Equiv.swap this rhs) = q ↔ place o = q) :=
    fun o hq => Place.rename_eq_iff hq
  constructor
  . show Agrees ((s.set this (s.get rhs)).set rhs (s.get this)).get _
    rw [State.get_set, State.get_set, ← Equiv.comp_swap_eq_update, Equiv.swap_comm]
    exact h.agrees.rename (Equiv.swap this rhs)
  . intro o
    rw [hiff o (by simp), h.fresh]
    rfl
  . exact h.released.congr fun o => hiff o (by simp)
  . exact h.deleted.congr fun o => hiff o (by simp)

theorem Accounted.release (h : Accounted s place) (this : Var)
    : Accounted ((Call.release this).run s) (Place.relocate (.held this) .out place) := by
  constructor
  . show Agrees (s.set this none).get _
    rw [State.get_set]
    apply h.agrees.clear
    simp
  . apply h.fresh_relocate <;> simp
  . apply h.released.append h.agrees
    simp
  . apply h.deleted.relocate <;> simp

theorem Accounted.dtor (h : Accounted s place) (this : Var)
    : Accounted (SmartPtr.dtor this s) (Place.relocate (.held this) .gone place) := by
  have hget : (SmartPtr.dtor this s).get = Function.update s.get this none := by
    funext y
    unfold State.get SmartPtr.dtor
    by_cases hy : y = this
    . subst hy
      simp
    . simp [Function.update_of_ne hy]
  constructor
  . rw [hget]
    apply h.agrees.clear
    simp
  . apply h.fresh_relocate <;> simp
  . apply h.released.relocate <;> simp
  . apply h.deleted.append h.agrees
    simp

theorem Accounted.step (h : Accounted s place) (hok : NoOwnerCopied s call) (hstep : step s call = some s')
    : Accounted s' (call.move s.allocated place) := by
  obtain ⟨henabled, hrun⟩ := Option.ite_none_right_eq_some.mp hstep
  cases hrun
  cases call with
  | ctorNew this => exact h.ctorNew (by simpa [Call.enabled] using henabled)
  | ctorNull this => exact h.set_none (by simpa [Call.enabled] using henabled)
  | releaseCtor this other =>
    rw [Call.enabled, Bool.and_eq_true, Bool.not_eq_true'] at henabled
    exact h.releaseCtor henabled.left henabled.right
  | copyCtor this other =>
    rw [Call.enabled, Bool.and_eq_true, Bool.not_eq_true'] at henabled
    show Accounted (s.set this (s.get other)) place
    rw [hok]
    exact h.set_none henabled.left
  | swap this rhs => exact h.swap this rhs
  | release this => exact h.release this
  | dtor this => exact h.dtor this

theorem init_accounted : Accounted .init fun _ => .fresh := by
  constructor
  . intro x o
    simp [State.get, State.init]
  . simp [State.init]
  . intro o
    simp [State.init]
  . intro o
    simp [State.init]

theorem accounted_of_reaches (h : Run.Reaches step NoOwnerCopied .init s) : ∃ place, Accounted s place := by
  apply h.invariant (fun s => ∃ place, Accounted s place)
  . exact ⟨_, init_accounted⟩
  . rintro s s' call ⟨place, hplace⟩ hok hstep
    exact ⟨_, hplace.step hok hstep⟩

end Accounted

section Once

variable {τ : Type} {c : Class} {converts : τ → τ → Bool} {typeOf : Nat → τ} {stmts : List (Stmt τ)}
  {live live' : List Nat} {calls : List Call} {s : State} {place : Obj → Place Var}

def Class.Moving (c : Class) : Prop :=
  ∀ k ∈ c.constructors, ∀ ctor, k.body = some ctor → ctor = .releaseCtor

theorem Class.Moving.standard (h : c.Moving) : c.Standard :=
  fun k hk ctor hbody => .inl (h k hk ctor hbody)

theorem moving_autoPtr : autoPtr.Moving := by
  intro k hk ctor hbody
  simp [Class.constructors, autoPtr] at hk
  subst hk
  exact (Option.some.inj hbody).symm

theorem moving_uniquePtr : uniquePtr.Moving := by
  intro k hk ctor hbody
  simp [Class.constructors, uniquePtr] at hk
  rcases hk with rfl | rfl | rfl
  . exact (Option.some.inj hbody).symm
  . exact (Option.some.inj hbody).symm
  . cases hbody

def Call.copies : Call → Bool
  | .copyCtor _ _ => true
  | _ => false

theorem noOwnerCopied_of_not_copies {call : Call} (h : call.copies = false) : NoOwnerCopied s call := by
  cases call with
  | copyCtor this other => cases h
  | _ => trivial

theorem copies_expr (e : Expr τ) (target : Var)
    : (∀ call ∈ (e.calls .releaseCtor target).fst, call.copies = false)
        ∧ ∀ call ∈ (e.calls .releaseCtor target).snd, call.copies = false := by
  cases e with
  | var x isConst category => simp [Expr.calls, Call.copies]
  | temporary type elided => cases elided <;> simp [Expr.calls, Call.copies]

variable [DecidableEq τ]

theorem copies_stmt (hc : c.Moving) {stmt : Stmt τ} (hcalls : stmt.calls c converts typeOf = some calls)
    : ∀ call ∈ calls, call.copies = false := by
  cases stmt with
  | declareNew x | declareNull x | release x | destroy x =>
    cases hcalls
    simp [Call.copies]
  | declare x e =>
    obtain ⟨k, hk, ctor, hbody, rfl⟩ := declare_calls hcalls
    rw [hc k hk ctor hbody]
    intro call hcall
    cases List.mem_append.mp hcall with
    | inl hbefore => exact (copies_expr e _).left call hbefore
    | inr hafter => exact (copies_expr e _).right call hafter
  | assign x e =>
    obtain ⟨k, hk, ctor, hbody, rfl⟩ := assign_calls hcalls
    rw [hc k hk ctor hbody]
    intro call hcall
    rw [List.append_assoc, List.mem_append, List.mem_append] at hcall
    rcases hcall with hbefore | hswap | hafter
    . exact (copies_expr e _).left call hbefore
    . revert call
      simp [Call.copies]
    . exact (copies_expr e _).right call hafter
  | swap x y =>
    obtain ⟨_, hcalls⟩ := Option.ite_none_right_eq_some.mp hcalls
    cases hcalls
    simp [Call.copies]

theorem copies_elaborate (hc : c.Moving) (h : elaborate c converts typeOf live stmts = some (calls, live'))
    : ∀ call ∈ calls, call.copies = false := by
  induction stmts generalizing live calls with
  | nil =>
    cases h
    simp
  | cons stmt stmts ih =>
    obtain ⟨first, _, rest, hcalls, _, hrest, rfl⟩ := elaborate_cons h
    intro call hcall
    rw [List.mem_append] at hcall
    cases hcall with
    | inl hfirst => exact copies_stmt hc hcalls call hfirst
    | inr hlater => exact ih hrest call hlater

def OwnedOnce (s : State) : Prop :=
  ∀ o < s.allocated, o ∉ s.released →
    (∃! x, s.ptr x = some (some o)) ∧ s.deleted.count o = 0
      ∨ (∀ x, s.ptr x ≠ some (some o)) ∧ s.deleted.count o = 1

theorem Accounted.ownedOnce (h : Accounted s place) : OwnedOnce s := by
  intro o ho hreleased
  rw [h.released.mem_iff] at hreleased
  rw [h.deleted]
  cases hplace : place o with
  | fresh =>
    rw [h.fresh] at hplace
    omega
  | held x =>
    have hx := (h.agrees x o).mpr hplace
    refine .inl ⟨⟨x, State.get_eq_some_iff.mp hx, ?_⟩, by simp⟩
    intro y hy
    exact h.agrees.unique (State.get_eq_some_iff.mpr hy) hx
  | out => exact absurd hplace hreleased
  | gone =>
    refine .inr ⟨?_, by simp⟩
    intro x hx
    rw [← State.get_eq_some_iff, h.agrees, hplace] at hx
    cases hx

theorem exec_of_elaborate (hc : c.Standard) (h : elaborate c converts typeOf [] stmts = some (calls, live))
    : ∃ s, Run.exec step .init calls = some s ∧ s.alive = aliveOf live := by
  apply exec_of_alive
  rw [← exec_elaborate hc h]
  congr 1
  funext x
  cases x <;> rfl

/--
This theorem says that a program over `auto_ptr` or `unique_ptr` runs to its end, that after any number of its calls
each object has exactly one owner unless it was handed out or deleted, and that the objects that were not handed out
have been deleted once when no smart pointer is left.
-/
theorem owned_once (hc : c = autoPtr ∨ c = uniquePtr)
    (h : elaborate c converts typeOf [] stmts = some (calls, live))
    : (∀ moment, moment <+: calls → ∃ s, Run.exec step .init moment = some s ∧ OwnedOnce s)
        ∧ (live = [] → ∃ s, Run.exec step .init calls = some s
            ∧ ∀ o < s.allocated, o ∉ s.released → s.deleted.count o = 1) := by
  have hmoving : c.Moving := by
    rcases hc with rfl | rfl
    . exact moving_autoPtr
    . exact moving_uniquePtr
  have hok : Run.AllOk step NoOwnerCopied .init calls := by
    apply Run.allOk_of_forall_mem
    intro t call hcall
    exact noOwnerCopied_of_not_copies (copies_elaborate hmoving h call hcall)
  obtain ⟨s, hexec, halive⟩ := exec_of_elaborate hmoving.standard h
  have hmoments : ∀ moment, moment <+: calls → ∃ t, Run.exec step .init moment = some t ∧ OwnedOnce t := by
    intro moment hinitial
    obtain ⟨t, ht⟩ := Run.exec_initial hexec hinitial
    obtain ⟨place, hplace⟩ := accounted_of_reaches (.of_exec (hok.initial hinitial) ht)
    exact ⟨t, ht, hplace.ownedOnce⟩
  refine ⟨hmoments, ?_⟩
  rintro rfl
  refine ⟨s, hexec, ?_⟩
  intro o ho hreleased
  obtain ⟨t, ht, hOnce⟩ := hmoments calls (List.prefix_refl calls)
  rw [hexec, Option.some.injEq] at ht
  subst ht
  rcases hOnce o ho hreleased with ⟨⟨x, hx, _⟩, _⟩ | ⟨_, hdeleted⟩
  . have hx' := State.alive_of_get (State.get_eq_some_iff.mpr hx)
    rw [halive] at hx'
    cases x <;> simp [aliveOf] at hx'
  . exact hdeleted

def testUniquePtr : List (Stmt Unit) :=
  [.declareNew 1, .declare 2 (.var 1 false .rvalue), .declareNew 3, .assign 3 (.var 1 false .rvalue),
    .assign 2 (.var 2 false .rvalue), .destroy 3, .destroy 2, .destroy 1]

theorem owned_once_testUniquePtr
    : ∃ calls, elaborate uniquePtr (fun _ _ => false) (fun _ => ()) [] testUniquePtr = some (calls, [])
        ∧ ∃ s, Run.exec step .init calls = some s ∧ ∀ o < s.allocated, o ∉ s.released → s.deleted.count o = 1 := by
  have h : elaborate uniquePtr (fun _ _ => false) (fun _ => ()) [] testUniquePtr = some (_, []) := rfl
  exact ⟨_, h, (owned_once (.inr rfl) h).right rfl⟩

end Once

end SmartPtr
