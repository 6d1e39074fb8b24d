import Overapprox.Heap.Basic

/-!
# Scripted heaps

A heap that does what a script says: which substitution every kind of transfer asks for, what the
verdict on conditions is, and what an allocation of each type denotes. It shows how a state reacts
to a heap that moves its locations or resolves an expression in many ways.
-/

namespace Overapprox

open AbstractLattice

/-- What a scripted heap does. -/
structure Script where
  /-- The substitution of every assignment. -/
  assign : Substitution := []
  /-- The substitution of every evaluation. -/
  step : Substitution := []
  /-- The substitution of every assumed condition. -/
  assume : Substitution := []
  /-- The verdict on every condition. -/
  satisfies : Verdict := .unknown
  /-- What an allocation denotes, by the name of its static type. -/
  choices : List (String × List ValueExpr) := []

/-- A heap that follows a script. -/
inductive ScriptedHeap (script : Script) where
  | mid
  | top
  | bottom
deriving DecidableEq

namespace ScriptedHeap

variable {script : Script}

instance : Inhabited (ScriptedHeap script) := ⟨mid⟩

instance : Render (ScriptedHeap script) where
  render
    | mid => "Mid"
    | top => "Top"
    | bottom => "Bottom"

instance : AbstractLattice (ScriptedHeap script) where
  top := top
  bottom := bottom
  isTop h := h == top
  isBottom h := h == bottom
  properJoin g _ := g
  properLe _ _ := true

/-- The error of an expression about which the script says nothing. -/
def unsupported (e : SymExpr) : AnalysisError := .unsupportedExpression e "ScriptedHeap"

/-- Resolves allocations as the script says, children to their containers and themselves, and
pointers to themselves. Addresses are not resolved. -/
def rewriter (script : Script) : Rewriter where
  child _ containers children := return join containers children
  alloc e :=
    match script.choices.lookup e.note.type.text with
    | some es => return .ofList es
    | none => throw (unsupported e)
  ref e _ := throw (unsupported e)
  deref _ operands := return operands

instance : HeapDomain (ScriptedHeap script) where
  assign h _ _ := ⟨h, script.assign⟩
  step h _ := ⟨h, script.step⟩
  assume h _ := ⟨h, script.assume⟩
  satisfies _ _ := script.satisfies
  forget h _ := h
  pushScope h _ := h
  popScope h _ := h
  rewrite _ e := (rewriter script).rewrite e

end ScriptedHeap

end Overapprox
