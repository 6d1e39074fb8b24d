import Overapprox.State.Composite

/-!
# Analysis states

The state of an analysis at a program point: a composite state, the symbol aliases that are known,
and the stack, the set of the expressions that the last evaluation left. An assignment leaves what
was assigned to, an evaluation the expression itself.

* `State.isBottom_iff`: stack and aliases do not count for whether a state is bottom.
* `State.assignExpr_ident`: assigning through an identifier is assigning to it.
-/

namespace Overapprox

open AbstractLattice

/-- A set of symbolic expressions. -/
abbrev ExprSet := Powerset SymExpr

/-- The abstract state at a program point. -/
structure State (η : Type) where
  composite : Composite η
  /-- The symbol aliases that are known. -/
  aliasing : SymbolAliasing := {}
  /-- The expressions that the last evaluation left. -/
  stack : ExprSet := {}

namespace State

variable {η : Type}

instance [BEq η] : BEq (State η) :=
  ⟨fun a b => a.composite == b.composite && a.aliasing == b.aliasing && a.stack == b.stack⟩

instance [Render η] : Render (State η) where
  render s := render s.composite ++ ", stack: " ++ render s.stack
  report s := .ofFields [("state", report s.composite), ("expressions", report s.stack)]

/-- Aliases and stacks are joined, not widened: they grow no further than the program has symbols
and expressions. -/
instance [BEq η] [AbstractLattice η] : AbstractLattice (State η) where
  top := { composite := top, aliasing := top }
  bottom := { composite := bottom, aliasing := bottom }
  isTop s := isTop s.composite
  isBottom s := isBottom s.composite
  properJoin a b :=
    ⟨join a.composite b.composite, join a.aliasing b.aliasing, join a.stack b.stack⟩
  properMeet a b :=
    ⟨meet a.composite b.composite, meet a.aliasing b.aliasing, meet a.stack b.stack⟩
  properWiden a b :=
    ⟨widen a.composite b.composite, join a.aliasing b.aliasing, join a.stack b.stack⟩
  properLe a b :=
    le a.composite b.composite && le a.stack b.stack && le a.aliasing b.aliasing

/-- Records that a symbol may be used in the place of another one. -/
def addAlias (s : State η) (symbol other : Symbol) : State η :=
  { s with aliasing := s.aliasing.addAlias symbol other }

variable [BEq η] [HeapDomain η]

/-- Assigns an expression to an identifier, which is left on the stack. -/
def assign (opts : Options) (s : State η) (id : Identifier) (e : SymExpr) : Outcome (State η) := do
  return { s with
    composite := ← s.composite.assign opts id e
    stack := .singleton (.ofIdentifier id) }

/-- One of the assignments that an assignment to a target stands for. The state and the locations
assigned to so far come first. -/
def assignLocation (opts : Options) (s : State η) (target e : SymExpr)
    (sofar : Composite η × ExprSet) (location : ValueExpr) : Outcome (Composite η × ExprSet) :=
  match location.identifier? with
  | none => throw (.notAnIdentifier target location)
  | some id => do
    return (join sofar.1 (← s.composite.assign opts id e), sofar.2.add (.ofIdentifier id))

/-- Assigns an expression to every location that the target may denote and leaves them on the
stack. A target that denotes nothing leaves no state. -/
def assignExpr (opts : Options) (s : State η) (target e : SymExpr) : Outcome (State η) :=
  match target.identifier? with
  | some id => s.assign opts id e
  | none => do
    let locations ← s.composite.rewrite target
    let (composite, stack) ←
      locations.toList.foldlM (s.assignLocation opts target e) (bottom, .empty)
    return { s with composite, stack }

/-- Evaluates an expression, which is left on the stack. -/
def step (opts : Options) (s : State η) (e : SymExpr) : Outcome (State η) := do
  return { s with composite := ← s.composite.step opts e, stack := .singleton e }

/-- The state where a condition holds. -/
def assume (opts : Options) (s : State η) (e : SymExpr) : Outcome (State η) := do
  return { s with composite := ← s.composite.assume opts e }

/-- The verdict on a condition. -/
def satisfies (opts : Options) (s : State η) (e : SymExpr) : Outcome Verdict :=
  s.composite.satisfies opts e

/-- Drops what is known about an identifier. -/
def forget (s : State η) (id : Identifier) : State η :=
  { s with composite := s.composite.forget id }

/-- Hides the variables behind a call. -/
def pushScope (s : State η) (token : ScopeToken) : State η :=
  { s with
    composite := s.composite.pushScope token
    stack := .ofList (s.stack.toList.map (SymExpr.pushScope token)) }

/-- Shows again the variables that were hidden behind a call. Expressions over variables of the
call leave the stack. -/
def popScope (s : State η) (token : ScopeToken) : State η :=
  { s with
    composite := s.composite.popScope token
    stack := .ofList (s.stack.toList.filterMap (SymExpr.popScope? token)) }

omit [HeapDomain η] in
/-- Neither the aliases nor the stack count for whether a state is left. -/
theorem isBottom_iff [AbstractLattice η] (s : State η) : isBottom s = isBottom s.composite := rfl

theorem assignExpr_ident (opts : Options) (s : State η) (id : Identifier) (a : Annotation)
    (e : SymExpr) : s.assignExpr opts (.ident id a) e = s.assign opts id e := rfl

end State

end Overapprox
