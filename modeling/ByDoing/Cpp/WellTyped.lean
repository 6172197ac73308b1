import ByDoing.Cpp.SmartPtr

namespace SmartPtr

section Alive

variable {s s' : State} {call : Call}

theorem alive_dtor (this : Var) : (dtor this s).alive = Function.update s.alive this false := by
  funext y
  unfold State.alive dtor
  by_cases hy : y = this
  . subst hy
    simp
  . simp [Function.update_of_ne hy]

theorem alive_releaseCtor {this other : Var} (h : s.alive other = true)
    : (releaseCtor this other s).alive = Function.update s.alive this true := by
  show ((s.set other none).set this (s.get other)).alive = _
  rw [State.alive_set, State.alive_set_of_alive h]

theorem alive_swap {this rhs : Var} (hthis : s.alive this = true) (hrhs : s.alive rhs = true)
    : (swap this rhs s).alive = s.alive := by
  unfold swap
  rw [State.alive_set_of_alive, State.alive_set_of_alive hthis]
  rwa [State.alive_set_of_alive hthis]

theorem alive_run (h : call.enabled s.alive = true) : (call.run s).alive = call.after s.alive := by
  cases call with
  | ctorNew this => exact State.alive_set
  | ctorNull this => exact State.alive_set
  | releaseCtor this other =>
    rw [Call.enabled, Bool.and_eq_true] at h
    exact alive_releaseCtor h.right
  | copyCtor this other => exact State.alive_set
  | swap this rhs =>
    rw [Call.enabled, Bool.and_eq_true] at h
    exact alive_swap h.left h.right
  | release this => exact State.alive_set_of_alive h
  | dtor this => exact alive_dtor this

def aliveStep (alive : Var → Bool) (call : Call) : Option (Var → Bool) :=
  if call.enabled alive then some (call.after alive) else none

theorem exec_of_alive {calls : List Call} {alive : Var → Bool} (h : Run.exec aliveStep s.alive calls = some alive)
    : ∃ s', Run.exec step s calls = some s' ∧ s'.alive = alive := by
  apply Run.exec_of_abstract _ h
  intro s call alive halive
  unfold aliveStep at halive
  split at halive
  . next henabled =>
    rw [Option.some.injEq] at halive
    refine ⟨call.run s, if_pos henabled, ?_⟩
    rw [alive_run henabled, halive]
  . cases halive

end Alive

section Select

variable {τ : Type} [DecidableEq τ] {c : Class} {converts : τ → τ → Bool}

theorem mem_of_select {target : τ} {arg : Arg τ} {ctor : Var → Var → Call}
    (h : c.select converts target arg = some ctor)
    : ∃ k ∈ c.constructors, k.body = some ctor := by
  unfold Class.select at h
  obtain ⟨k, hk, hbody⟩ := Option.bind_eq_some_iff.mp h
  obtain ⟨param, _, hparam⟩ := List.exists_of_findSome?_eq_some hk
  split at hparam
  . exact ⟨k, List.mem_of_find?_eq_some hparam, hbody⟩
  . cases hparam

theorem mem_of_selectAssign {target : τ} {arg : Arg τ} {ctor : Var → Var → Call}
    (h : c.selectAssign converts target arg = some ctor)
    : ∃ k ∈ c.constructors, k.body = some ctor := by
  unfold Class.selectAssign at h
  split at h
  . split at h
    . exact mem_of_select h
    . cases h
  . exact mem_of_select h

def Class.Standard (c : Class) : Prop :=
  ∀ k ∈ c.constructors, ∀ ctor, k.body = some ctor → ctor = .releaseCtor ∨ ctor = .copyCtor

variable {typeOf : Nat → τ} {calls : List Call} {x : Nat} {e : Expr τ}

theorem declare_calls (h : (Stmt.declare x e).calls c converts typeOf = some calls)
    : ∃ k ∈ c.constructors, ∃ ctor, k.body = some ctor
        ∧ calls = (e.calls ctor (.named x)).fst ++ (e.calls ctor (.named x)).snd := by
  unfold Stmt.calls at h
  obtain ⟨_, _, h⟩ := Option.bind_eq_some_iff.mp h
  obtain ⟨ctor, hselect, h⟩ := Option.bind_eq_some_iff.mp h
  obtain ⟨k, hk, hbody⟩ := mem_of_select hselect
  cases h
  exact ⟨k, hk, ctor, hbody, rfl⟩

theorem assign_calls (h : (Stmt.assign x e).calls c converts typeOf = some calls)
    : ∃ k ∈ c.constructors, ∃ ctor, k.body = some ctor
        ∧ calls = (e.calls ctor (.temporary 0)).fst ++ [.swap (.temporary 0) (.named x), .dtor (.temporary 0)]
          ++ (e.calls ctor (.temporary 0)).snd := by
  unfold Stmt.calls at h
  obtain ⟨_, _, h⟩ := Option.bind_eq_some_iff.mp h
  obtain ⟨ctor, hselect, h⟩ := Option.bind_eq_some_iff.mp h
  obtain ⟨k, hk, hbody⟩ := mem_of_selectAssign hselect
  cases h
  exact ⟨k, hk, ctor, hbody, rfl⟩

theorem elaborate_cons {stmt : Stmt τ} {stmts : List (Stmt τ)} {live live' : List Nat}
    (h : elaborate c converts typeOf live (stmt :: stmts) = some (calls, live'))
    : ∃ first live₁ rest, stmt.calls c converts typeOf = some first ∧ stmt.scope live = some live₁
        ∧ elaborate c converts typeOf live₁ stmts = some (rest, live') ∧ calls = first ++ rest := by
  unfold elaborate at h
  obtain ⟨first, hfirst, h⟩ := Option.bind_eq_some_iff.mp h
  obtain ⟨live₁, hscope, h⟩ := Option.bind_eq_some_iff.mp h
  obtain ⟨⟨rest, live₂⟩, hrest, h⟩ := Option.bind_eq_some_iff.mp h
  cases h
  exact ⟨first, live₁, rest, hfirst, hscope, hrest, rfl⟩

end Select

section Scope

def aliveOf (live : List Nat) : Var → Bool
  | .named x => decide (x ∈ live)
  | .temporary _ => false

theorem aliveOf_cons (live : List Nat) (x : Nat)
    : Function.update (aliveOf live) (.named x) true = aliveOf (x :: live) := by
  funext y
  cases y with
  | named y => by_cases hy : y = x <;> simp [aliveOf, hy]
  | temporary n => simp [aliveOf]

theorem aliveOf_filter (live : List Nat) (x : Nat)
    : Function.update (aliveOf live) (.named x) false = aliveOf (live.filter (· ≠ x)) := by
  funext y
  cases y with
  | named y => by_cases hy : y = x <;> simp [aliveOf, hy]
  | temporary n => simp [aliveOf]

theorem exec_ctor {ctor : Var → Var → Call} (hctor : ctor = .releaseCtor ∨ ctor = .copyCtor) {alive : Var → Bool}
    {this other : Var} {calls : List Call} (hthis : alive this = false) (hother : alive other = true)
    : Run.exec aliveStep alive (ctor this other :: calls)
        =
      Run.exec aliveStep (Function.update alive this true) calls := by
  rcases hctor with rfl | rfl
  all_goals
    rw [Run.exec, aliveStep, if_pos (by simp [Call.enabled, hthis, hother])]
    rfl

theorem exec_ctorNew {alive : Var → Bool} {this : Var} {calls : List Call} (hthis : alive this = false)
    : Run.exec aliveStep alive (.ctorNew this :: calls)
        =
      Run.exec aliveStep (Function.update alive this true) calls := by
  rw [Run.exec, aliveStep, if_pos (by simp [Call.enabled, hthis])]
  rfl

theorem exec_swap {alive : Var → Bool} {this rhs : Var} {calls : List Call} (hthis : alive this = true)
    (hrhs : alive rhs = true)
    : Run.exec aliveStep alive (.swap this rhs :: calls) = Run.exec aliveStep alive calls := by
  rw [Run.exec, aliveStep, if_pos (by simp [Call.enabled, hthis, hrhs])]
  rfl

theorem exec_dtor {alive : Var → Bool} {this : Var} {calls : List Call} (hthis : alive this = true)
    : Run.exec aliveStep alive (.dtor this :: calls)
        =
      Run.exec aliveStep (Function.update alive this false) calls := by
  rw [Run.exec, aliveStep, if_pos (by simp [Call.enabled, hthis])]
  rfl

theorem update_temporary {alive : Var → Bool} {x : Var} (h : alive x = false)
    : Function.update (Function.update alive x true) x false = alive := by
  rw [Function.update_idem, ← h, Function.update_eq_self]

variable {τ : Type} {live live' : List Nat} {calls : List Call} {e : Expr τ} {ctor : Var → Var → Call}

theorem exec_declare (hctor : ctor = .releaseCtor ∨ ctor = .copyCtor) {x : Nat} (hx : x ∉ live)
    (he : e.inScope live = true)
    : Run.exec aliveStep (aliveOf live) ((e.calls ctor (.named x)).fst ++ (e.calls ctor (.named x)).snd)
        =
      some (aliveOf (x :: live)) := by
  have hthis : aliveOf live (.named x) = false := decide_eq_false hx
  rw [← aliveOf_cons]
  cases e with
  | var y isConst category =>
    have hother : aliveOf live (.named y) = true := he
    show Run.exec aliveStep _ [ctor (.named x) (.named y)] = _
    rw [exec_ctor hctor hthis hother]
    rfl
  | temporary type elided =>
    cases elided with
    | true =>
      show Run.exec aliveStep _ [.ctorNew (.named x)] = _
      rw [exec_ctorNew hthis]
      rfl
    | false =>
      show Run.exec aliveStep _ [.ctorNew (.temporary 1), ctor (.named x) (.temporary 1), .dtor (.temporary 1)] = _
      rw [exec_ctorNew rfl, exec_ctor hctor (by simpa using hthis) (by simp), exec_dtor (by simp), Run.exec,
        Function.update_comm (by simp), update_temporary rfl]

theorem exec_assign (hctor : ctor = .releaseCtor ∨ ctor = .copyCtor) {x : Nat} (hx : x ∈ live)
    (he : e.inScope live = true)
    : Run.exec aliveStep (aliveOf live)
        ((e.calls ctor (.temporary 0)).fst ++ [.swap (.temporary 0) (.named x), .dtor (.temporary 0)]
          ++ (e.calls ctor (.temporary 0)).snd)
        =
      some (aliveOf live) := by
  have hthis : aliveOf live (.named x) = true := decide_eq_true hx
  cases e with
  | var y isConst category =>
    have hother : aliveOf live (.named y) = true := he
    show Run.exec aliveStep _
      [ctor (.temporary 0) (.named y), .swap (.temporary 0) (.named x), .dtor (.temporary 0)] = _
    rw [exec_ctor hctor rfl hother, exec_swap (by simp) (by simpa using hthis), exec_dtor (by simp), Run.exec,
      update_temporary rfl]
  | temporary type elided =>
    cases elided with
    | true =>
      show Run.exec aliveStep _ [.ctorNew (.temporary 0), .swap (.temporary 0) (.named x), .dtor (.temporary 0)] = _
      rw [exec_ctorNew rfl, exec_swap (by simp) (by simpa using hthis), exec_dtor (by simp), Run.exec,
        update_temporary rfl]
    | false =>
      show Run.exec aliveStep _
        [.ctorNew (.temporary 1), ctor (.temporary 0) (.temporary 1), .swap (.temporary 0) (.named x),
          .dtor (.temporary 0), .dtor (.temporary 1)] = _
      rw [exec_ctorNew rfl, exec_ctor hctor (by simp [aliveOf]) (by simp), exec_swap (by simp) (by simpa using hthis),
        exec_dtor (by simp), update_temporary (by simp [aliveOf]), exec_dtor (by simp), Run.exec, update_temporary rfl]

variable [DecidableEq τ] {c : Class} {converts : τ → τ → Bool} {typeOf : Nat → τ}

theorem exec_stmt (hc : c.Standard) {stmt : Stmt τ} (hcalls : stmt.calls c converts typeOf = some calls)
    (hscope : stmt.scope live = some live')
    : Run.exec aliveStep (aliveOf live) calls = some (aliveOf live') := by
  cases stmt with
  | declareNew x =>
    cases hcalls
    obtain ⟨hx, hlive⟩ := Option.ite_none_left_eq_some.mp hscope
    cases hlive
    rw [exec_ctorNew (decide_eq_false hx), aliveOf_cons]
    rfl
  | declareNull x =>
    cases hcalls
    obtain ⟨hx, hlive⟩ := Option.ite_none_left_eq_some.mp hscope
    cases hlive
    rw [Run.exec, aliveStep, if_pos (by simp [Call.enabled, aliveOf, hx])]
    rw [Call.after, aliveOf_cons]
    rfl
  | declare x e =>
    obtain ⟨⟨hx, he⟩, hlive⟩ := Option.ite_none_right_eq_some.mp hscope
    cases hlive
    obtain ⟨k, hk, ctor, hbody, rfl⟩ := declare_calls hcalls
    exact exec_declare (hc k hk ctor hbody) hx he
  | assign x e =>
    obtain ⟨⟨hx, he⟩, hlive⟩ := Option.ite_none_right_eq_some.mp hscope
    cases hlive
    obtain ⟨k, hk, ctor, hbody, rfl⟩ := assign_calls hcalls
    exact exec_assign (hc k hk ctor hbody) hx he
  | swap x y =>
    obtain ⟨⟨hx, hy⟩, hlive⟩ := Option.ite_none_right_eq_some.mp hscope
    cases hlive
    obtain ⟨_, hcalls⟩ := Option.ite_none_right_eq_some.mp hcalls
    cases hcalls
    rw [exec_swap (decide_eq_true hx) (decide_eq_true hy)]
    rfl
  | release x =>
    cases hcalls
    obtain ⟨hx, hlive⟩ := Option.ite_none_right_eq_some.mp hscope
    cases hlive
    rw [Run.exec, aliveStep, if_pos (by simp [Call.enabled, aliveOf, hx])]
    rfl
  | destroy x =>
    cases hcalls
    obtain ⟨hx, hlive⟩ := Option.ite_none_right_eq_some.mp hscope
    cases hlive
    rw [exec_dtor (decide_eq_true hx), aliveOf_filter]
    rfl

theorem exec_elaborate (hc : c.Standard) {stmts : List (Stmt τ)}
    (h : elaborate c converts typeOf live stmts = some (calls, live'))
    : Run.exec aliveStep (aliveOf live) calls = some (aliveOf live') := by
  induction stmts generalizing live calls with
  | nil =>
    cases h
    rfl
  | cons stmt stmts ih =>
    obtain ⟨first, live₁, rest, hcalls, hscope, hrest, rfl⟩ := elaborate_cons h
    rw [Run.exec_append, exec_stmt hc hcalls hscope]
    exact ih hrest

end Scope

end SmartPtr
