import Overapprox.State.Analysis

/-!
# Calls

A resolver follows a call into its target and gives the state in which the target returns, with the
expressions it returns on the stack. The call then stores each of them in its own result variable
and joins the outcomes.

* `Call.semantics_of_error`: an error of the resolver is the result.
-/

namespace Overapprox

open AbstractLattice

/-- Gives the state in which the target of a call returns, from the state in which it is entered
and the parameters. -/
abbrev Resolver (η : Type) := Call → State η → List ExprSet → Outcome (State η)

namespace Resolver

variable {η : Type}

/-- Returns at once. -/
def entry : Resolver η := fun _ s _ => return s

/-- Returns some expressions. -/
def returning (es : List SymExpr) : Resolver η := fun _ s _ => return { s with stack := .ofList es }

/-- Returns the parameters. -/
def parameters : Resolver η := fun _ s ps => return { s with stack := ps.foldl join .empty }

/-- A member that a call may target, and what it returns. -/
structure Member where
  qualifier : String
  name : String
  returns : List SymExpr

/-- Returns what the members return that a call matches. -/
def members (ms : List Member) : Resolver η := fun c s _ =>
  match ms.filter fun m => c.matchesMember m.qualifier m.name s.aliasing with
  | [] => throw (.unresolvedCall c "no matching member")
  | matching => return { s with stack := .ofList (matching.flatMap (·.returns)) }

/-- Resolves no call, for some reason. -/
def failing (reason : String) : Resolver η := fun c _ _ => throw (.unresolvedCall c reason)

/-- Gives up with a message. -/
def refusing (message : String) : Resolver η := fun _ _ _ => throw (.domain message)

end Resolver

namespace Call

/-- Whether a call leaves no value, given the expressions that its target returns. -/
def returnsNothing (c : Call) (returned : ExprSet) : Bool :=
  c.type == .void || (c.type == .untyped && returned.isEmpty) || returned.only?.any SymExpr.isSkip

/-- Stores one returned expression in the result variable and evaluates the variable. -/
def store {η : Type} [BEq η] [HeapDomain η] (opts : Options) (c : Call) (s : State η)
    (e : SymExpr) : Outcome (State η) := do
  (← s.assign opts c.metaVariable e).step opts (.ofIdentifier c.metaVariable)

/-- The state after a call. The target is entered with an empty stack; the result variable is left
on the stack, or a statement where nothing is returned. -/
def semantics {η : Type} [BEq η] [HeapDomain η] (opts : Options) (c : Call) (resolve : Resolver η)
    (entry : State η) (parameters : List ExprSet) : Outcome (State η) := do
  let returned ← resolve c { entry with stack := .empty } parameters
  if c.returnsNothing returned.stack then
    returned.step opts (.skip ⟨.void, none, c.location⟩)
  else
    returned.stack.toList.foldlM (fun result e => return join result (← c.store opts returned e))
      bottom

/-- An error of the resolver is the result of the call, in the same words. -/
theorem semantics_of_error {η : Type} [BEq η] [HeapDomain η] (opts : Options) {c : Call}
    {resolve : Resolver η} {entry : State η} {parameters : List ExprSet} {err : AnalysisError}
    (h : resolve c { entry with stack := .empty } parameters = .error err) :
    c.semantics opts resolve entry parameters = .error err := by
  simp [semantics, h, bind, Except.bind]

end Call

end Overapprox
