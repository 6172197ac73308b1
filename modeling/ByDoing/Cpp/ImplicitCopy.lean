import ByDoing.Cpp.Ownership

/-!
This module contains the `unique_ptr` that has only a template in place of its move constructor. The compiler then
generates the copy constructor, and an lvalue selects it. Two smart pointers own one object as soon as the pointer of
an owner is copied, and not before.
-/

namespace SmartPtr

section Exclusive

variable {τ : Type} [DecidableEq τ] {converts : τ → τ → Bool} {typeOf : Nat → τ} {stmts : List (Stmt τ)}
  {live : List Nat} {calls : List Call} {s s' : State} {place : Obj → Place Var}

structure Exclusive (s : State) : Prop where
  owner : ∀ x y o, s.ptr x = some (some o) → s.ptr y = some (some o) → x = y
  once : s.deleted.Nodup

theorem Accounted.exclusive (h : Accounted s place) : Exclusive s := by
  constructor
  . intro x y o hx hy
    exact h.agrees.unique (State.get_eq_some_iff.mpr hx) (State.get_eq_some_iff.mpr hy)
  . exact h.deleted.nodup

theorem standard_uniquePtrU : uniquePtrU.Standard := by
  intro k hk ctor hbody
  simp [Class.constructors, uniquePtrU] at hk
  rcases hk with rfl | rfl
  . exact .inl (Option.some.inj hbody).symm
  . exact .inr (Option.some.inj hbody).symm

theorem select_uniquePtrU (target : τ) (arg : Arg τ)
    : uniquePtrU.select converts target arg
        =
      if !arg.isConst && decide (arg.category = .rvalue) then
        if arg.type = target ∨ converts arg.type target then some .releaseCtor else none
      else
        if arg.type = target then some .copyCtor else none := by
  unfold Class.select
  cases hcategory : arg.category <;> cases hconst : arg.isConst <;> by_cases htype : arg.type = target
    <;> cases hconverts : converts arg.type target
    <;> simp [Param.ranking, Param.binds, Class.constructors, uniquePtrU, hcategory, hconst, htype, hconverts]

theorem not_exclusive_copyCtor {this other : Var} (henabled : (Call.copyCtor this other).enabled s.alive = true)
    (hother : s.get other ≠ none)
    : ¬Exclusive ((Call.copyCtor this other).run s) := by
  intro hexclusive
  obtain ⟨o, ho⟩ := Option.ne_none_iff_exists'.mp hother
  rw [Call.enabled, Bool.and_eq_true, Bool.not_eq_true'] at henabled
  obtain ⟨hthis, halive⟩ := henabled
  have hne : other ≠ this := by
    rintro rfl
    rw [hthis] at halive
    cases halive
  have hget : ((Call.copyCtor this other).run s).get = Function.update s.get this (s.get other) := State.get_set
  apply hne
  apply hexclusive.owner other this o
  . rw [← State.get_eq_some_iff, hget, Function.update_of_ne hne, ho]
  . rw [← State.get_eq_some_iff, hget, Function.update_self, ho]

theorem noOwnerCopied_of_exclusive {call : Call} (hstep : step s call = some s') (h : Exclusive s')
    : NoOwnerCopied s call := by
  obtain ⟨henabled, hrun⟩ := Option.ite_none_right_eq_some.mp hstep
  cases hrun
  cases call with
  | copyCtor this other =>
    by_contra hother
    exact not_exclusive_copyCtor henabled hother h
  | _ => trivial

theorem allOk_of_exclusive (hexec : Run.exec step s calls = some s')
    (h : ∀ moment t, moment <+: calls → Run.exec step s moment = some t → Exclusive t)
    : Run.AllOk step NoOwnerCopied s calls := by
  induction calls generalizing s with
  | nil => trivial
  | cons call calls ih =>
    unfold Run.exec at hexec
    split at hexec
    . next t ht =>
      have hfirst : Run.exec step s [call] = some t := by
        rw [Run.exec, ht]
        rfl
      constructor
      . apply noOwnerCopied_of_exclusive ht
        exact h [call] t (List.prefix_append [call] calls) hfirst
      . intro t' ht'
        rw [ht, Option.some.injEq] at ht'
        subst ht'
        apply ih hexec
        intro moment u hmoment hu
        apply h (call :: moment) u (List.cons_prefix_cons.mpr ⟨rfl, hmoment⟩)
        rw [Run.exec, ht]
        exact hu
    . cases hexec

/--
This theorem says that in a program over this `unique_ptr` no object ever has two owners or is deleted twice exactly
if no call of the program copies the pointer of an owner.
-/
theorem exclusive_iff (h : elaborate uniquePtrU converts typeOf [] stmts = some (calls, live))
    : (∀ moment s, moment <+: calls → Run.exec step .init moment = some s → Exclusive s)
        ↔
      Run.AllOk step NoOwnerCopied .init calls := by
  constructor
  . obtain ⟨s, hexec, _⟩ := exec_of_elaborate standard_uniquePtrU h
    exact allOk_of_exclusive hexec
  . intro hok moment s hinitial hexec
    obtain ⟨place, hplace⟩ := accounted_of_reaches (.of_exec (hok.initial hinitial) hexec)
    exact hplace.exclusive

-- The last statements of `test04` destroy its variables.
def test04 : List (Stmt Unit) :=
  [.declareNew 1, .declareNew 2, .assign 2 (.var 1 false .rvalue), .destroy 2, .destroy 1]

theorem exclusive_test04
    : ∃ calls, elaborate uniquePtrU (fun _ _ => false) (fun _ => ()) [] test04 = some (calls, [])
        ∧ ∀ moment s, moment <+: calls → Run.exec step .init moment = some s → Exclusive s := by
  have h : elaborate uniquePtrU (fun _ _ => false) (fun _ => ()) [] test04 = some (_, []) := rfl
  refine ⟨_, h, (exclusive_iff h).mpr ?_⟩
  apply Run.allOk_of_forall_mem
  intro t call hcall
  apply noOwnerCopied_of_not_copies
  revert call
  decide

def test01 : List (Stmt Unit) :=
  [.declareNew 1, .declare 2 (.var 1 false .lvalue), .destroy 2, .destroy 1]

-- Both smart pointers delete the object.
theorem not_exclusive_test01
    : ¬∀ (stmts : List (Stmt Unit)) (calls : List Call) (live : List Nat),
      elaborate uniquePtrU (fun _ _ => false) (fun _ => ()) [] stmts = some (calls, live) →
      ∀ moment s, moment <+: calls → Run.exec step .init moment = some s → Exclusive s := by
  intro hall
  have hexclusive := hall test01 _ _ rfl _ _ (List.prefix_refl _) rfl
  have honce : [0, 0].Nodup := hexclusive.once
  revert honce
  decide

end Exclusive

end SmartPtr
