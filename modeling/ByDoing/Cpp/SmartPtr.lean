import Mathlib.Logic.Function.Basic
import ByDoing.Lib.Run

/-!
This module contains the smart pointers `auto_ptr`, `unique_ptr` and the `unique_ptr` that has a template in place of
its move constructor. Their member functions are the same but for the constructors, so a class is given by those.
A statement makes a list of calls, and the calls for its temporaries are among them.
-/

namespace SmartPtr

abbrev Obj := Nat

inductive Var where
  | named (n : Nat)
  | temporary (n : Nat)
deriving DecidableEq

-- `ptr` is `none` where no smart pointer is alive and `some none` where one is null.
structure State where
  ptr : Var → Option (Option Obj)
  allocated : Nat
  released : List Obj
  deleted : List Obj

namespace State

def init : State :=
  { ptr := fun _ => none, allocated := 0, released := [], deleted := [] }

def alive (s : State) (x : Var) : Bool :=
  (s.ptr x).isSome

def get (s : State) (this : Var) : Option Obj :=
  (s.ptr this).join

def set (s : State) (this : Var) (ptr : Option Obj) : State :=
  { s with ptr := Function.update s.ptr this (some ptr) }

variable {s : State} {this x : Var} {o : Obj} {ptr : Option Obj}

theorem get_eq_some_iff : s.get x = some o ↔ s.ptr x = some (some o) := by
  unfold get
  rw [Option.join_eq_some_iff]

theorem get_of_not_alive (h : s.alive x = false) : s.get x = none := by
  unfold alive at h
  rw [Option.isSome_eq_false_iff, Option.isNone_iff_eq_none] at h
  rw [get, h]
  rfl

theorem alive_of_get (h : s.get x = some o) : s.alive x = true := by
  rw [get_eq_some_iff] at h
  rw [alive, h]
  rfl

@[simp]
theorem get_set : (s.set this ptr).get = Function.update s.get this ptr := by
  funext y
  unfold get set
  by_cases hy : y = this
  . subst hy
    simp
  . simp [Function.update_of_ne hy]

@[simp]
theorem alive_set : (s.set this ptr).alive = Function.update s.alive this true := by
  funext y
  unfold alive set
  by_cases hy : y = this
  . subst hy
    simp
  . simp [Function.update_of_ne hy]

theorem alive_set_of_alive (h : s.alive this = true) : (s.set this ptr).alive = s.alive := by
  rw [alive_set, ← h, Function.update_eq_self]

end State

-- `explicit unique_ptr(T *ptr = nullptr) : ptr_(ptr) {}`
def ctor (this : Var) (ptr : Option Obj) (s : State) : State :=
  s.set this ptr

-- `delete ptr_`, which does nothing to a null pointer
def dtor (this : Var) (s : State) : State :=
  { s with ptr := Function.update s.ptr this none, deleted := s.deleted ++ (s.get this).toList }

def release (this : Var) (s : State) : Option Obj × State :=
  let ptr := s.get this
  (ptr, s.set this none)

-- `ptr_ = other.release();`
def releaseCtor (this other : Var) (s : State) : State :=
  let (ptr, s) := release other s
  s.set this ptr

def copyCtor (this other : Var) (s : State) : State :=
  s.set this (s.get other)

-- `std::swap(ptr_, rhs.ptr_);`
def swap (this rhs : Var) (s : State) : State :=
  let ptr := s.get this
  (s.set this (s.get rhs)).set rhs ptr

inductive Call where
  | ctorNew (this : Var)
  | ctorNull (this : Var)
  | releaseCtor (this other : Var)
  | copyCtor (this other : Var)
  | swap (this rhs : Var)
  | release (this : Var)
  | dtor (this : Var)
deriving DecidableEq

namespace Call

def run (s : State) : Call → State
  | .ctorNew this => ctor this (some s.allocated) { s with allocated := s.allocated + 1 }
  | .ctorNull this => ctor this none s
  | .releaseCtor this other => SmartPtr.releaseCtor this other s
  | .copyCtor this other => SmartPtr.copyCtor this other s
  | .swap this rhs => SmartPtr.swap this rhs s
  | .release this =>
    let (ptr, s) := SmartPtr.release this s
    { s with released := s.released ++ ptr.toList }
  | .dtor this => SmartPtr.dtor this s

def enabled (alive : Var → Bool) : Call → Bool
  | .ctorNew this | .ctorNull this => !alive this
  | .releaseCtor this other | .copyCtor this other => !alive this && alive other
  | .swap this rhs => alive this && alive rhs
  | .release this | .dtor this => alive this

def after (alive : Var → Bool) : Call → Var → Bool
  | .ctorNew this | .ctorNull this | .releaseCtor this _ | .copyCtor this _ => Function.update alive this true
  | .swap _ _ | .release _ => alive
  | .dtor this => Function.update alive this false

end Call

def step (s : State) (call : Call) : Option State :=
  if call.enabled s.alive then some (call.run s) else none

inductive Category where
  | lvalue
  | rvalue
deriving DecidableEq

inductive Param where
  | lvalueRef
  | constLvalueRef
  | rvalueRef
  -- `template<typename U> unique_ptr(unique_ptr<U> &&other)`
  | rvalueRefOf
deriving DecidableEq

structure Constructor where
  param : Param
  body : Option (Var → Var → Call)

structure Class where
  declared : List Constructor
  assignByRef : Bool

def autoPtr : Class :=
  { declared := [⟨.lvalueRef, some .releaseCtor⟩], assignByRef := true }

def uniquePtr : Class :=
  { declared := [⟨.rvalueRef, some .releaseCtor⟩, ⟨.rvalueRefOf, some .releaseCtor⟩], assignByRef := false }

def uniquePtrU : Class :=
  { declared := [⟨.rvalueRefOf, some .releaseCtor⟩], assignByRef := false }

section Overloads

variable {τ : Type} [DecidableEq τ] (converts : τ → τ → Bool)

-- What overload resolution sees of an argument that is a smart pointer to `type`.
structure Arg (τ : Type) where
  type : τ
  isConst : Bool
  category : Category

-- The template is defined if `U *` converts to `T *`.
def Param.binds (target : τ) (arg : Arg τ) : Param → Bool
  | .lvalueRef => decide (arg.type = target) && !arg.isConst && decide (arg.category = .lvalue)
  | .constLvalueRef => decide (arg.type = target)
  | .rvalueRef => decide (arg.type = target) && !arg.isConst && decide (arg.category = .rvalue)
  | .rvalueRefOf =>
    (decide (arg.type = target) || converts arg.type target) && !arg.isConst && decide (arg.category = .rvalue)

def Param.ranking : List Param :=
  [.lvalueRef, .rvalueRef, .rvalueRefOf, .constLvalueRef]

namespace Class

def constructors (c : Class) : List Constructor :=
  if c.declared.any fun ctor => ctor.param = .lvalueRef ∨ ctor.param = .constLvalueRef then
    c.declared
  else if c.declared.any fun ctor => ctor.param = .rvalueRef then
    c.declared ++ [⟨.constLvalueRef, none⟩]
  else
    c.declared ++ [⟨.constLvalueRef, some .copyCtor⟩]

def select (c : Class) (target : τ) (arg : Arg τ) : Option (Var → Var → Call) := do
  let ctor ← Param.ranking.findSome? fun param =>
    if param.binds converts target arg then c.constructors.find? fun ctor => ctor.param = param else none
  ctor.body

-- The temporary of `operator=` is made from the lvalue `rhs` if that is a reference, else it is the parameter.
def selectAssign (c : Class) (target : τ) (arg : Arg τ) : Option (Var → Var → Call) :=
  if c.assignByRef then
    if Param.lvalueRef.binds converts target arg then c.select converts target ⟨target, false, .lvalue⟩ else none
  else
    c.select converts target arg

end Class

end Overloads

section Statements

variable {τ : Type} [DecidableEq τ]

-- `x`, `std::move(x)` and the like, or `unique_ptr<T>(new T)`, which may be made in place
inductive Expr (τ : Type) where
  | var (x : Nat) (isConst : Bool) (category : Category)
  | temporary (type : τ) (elided : Bool)

namespace Expr

def arg (typeOf : Nat → τ) : Expr τ → Arg τ
  | .var x isConst category => ⟨typeOf x, isConst, category⟩
  | .temporary type _ => ⟨type, false, .rvalue⟩

def elidable (target : τ) : Expr τ → Bool
  | .var _ _ _ => true
  | .temporary type elided => !elided || decide (type = target)

def inScope (live : List Nat) : Expr τ → Bool
  | .var x _ _ => decide (x ∈ live)
  | .temporary _ _ => true

-- The calls that make `target`, and those at the end of the full expression.
def calls (ctor : Var → Var → Call) (target : Var) : Expr τ → List Call × List Call
  | .var x _ _ => ([ctor target (.named x)], [])
  | .temporary _ true => ([.ctorNew target], [])
  | .temporary _ false => ([.ctorNew (.temporary 1), ctor target (.temporary 1)], [.dtor (.temporary 1)])

end Expr

inductive Stmt (τ : Type) where
  | declareNew (x : Nat)
  | declareNull (x : Nat)
  | declare (x : Nat) (e : Expr τ)
  | assign (x : Nat) (e : Expr τ)
  | swap (x y : Nat)
  | release (x : Nat)
  | destroy (x : Nat)

namespace Stmt

-- In C++ terms: `auto_ptr(rhs).swap(*this);` or `rhs.swap(*this);` for an assignment
def calls (c : Class) (converts : τ → τ → Bool) (typeOf : Nat → τ) : Stmt τ → Option (List Call)
  | .declareNew x => some [.ctorNew (.named x)]
  | .declareNull x => some [.ctorNull (.named x)]
  | .declare x e => do
    guard (e.elidable (typeOf x))
    let ctor ← c.select converts (typeOf x) (e.arg typeOf)
    let (before, after) := e.calls ctor (.named x)
    some (before ++ after)
  | .assign x e => do
    guard (e.elidable (typeOf x))
    let ctor ← c.selectAssign converts (typeOf x) (e.arg typeOf)
    let (before, after) := e.calls ctor (.temporary 0)
    some (before ++ [.swap (.temporary 0) (.named x), .dtor (.temporary 0)] ++ after)
  | .swap x y => if typeOf x = typeOf y then some [.swap (.named x) (.named y)] else none
  | .release x => some [.release (.named x)]
  | .destroy x => some [.dtor (.named x)]

def scope (live : List Nat) : Stmt τ → Option (List Nat)
  | .declareNew x | .declareNull x => if x ∈ live then none else some (x :: live)
  | .declare x e => if x ∉ live ∧ e.inScope live then some (x :: live) else none
  | .assign x e => if x ∈ live ∧ e.inScope live then some live else none
  | .swap x y => if x ∈ live ∧ y ∈ live then some live else none
  | .release x => if x ∈ live then some live else none
  | .destroy x => if x ∈ live then some (live.filter (· ≠ x)) else none

end Stmt

def elaborate (c : Class) (converts : τ → τ → Bool) (typeOf : Nat → τ) (live : List Nat)
    : List (Stmt τ) → Option (List Call × List Nat)
  | [] => some ([], live)
  | stmt :: stmts => do
    let calls ← stmt.calls c converts typeOf
    let live ← stmt.scope live
    let (calls', live) ← elaborate c converts typeOf live stmts
    some (calls ++ calls', live)

end Statements

end SmartPtr
