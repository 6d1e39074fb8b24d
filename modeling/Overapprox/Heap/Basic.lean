import Overapprox.Heap.Replacement
import Overapprox.Heap.Rewriter
import Overapprox.Verdict

/-!
# Heap domains

A heap domain abstracts the heap. It follows the effects of expressions on the heap, tells the
other domains which locations these effects replace, and resolves symbolic expressions into value
expressions. Resolving never changes the heap, and it is the only operation that can fail.
-/

namespace Overapprox

/-- A heap after a transfer, and the substitution that the other domains have to make first. -/
structure HeapUpdate (η : Type) where
  heap : η
  substitution : Substitution := []

/-- Abstract heaps. -/
class HeapDomain (η : Type) [BEq η] extends AbstractLattice η, Render η where
  /-- The heap after an assignment. -/
  assign : η → Identifier → SymExpr → HeapUpdate η
  /-- The heap after an evaluation. -/
  step : η → SymExpr → HeapUpdate η
  /-- The heap where a condition holds. -/
  assume : η → SymExpr → HeapUpdate η
  /-- The verdict of the heap alone on a condition. -/
  satisfies : η → SymExpr → Verdict
  /-- The heap after an identifier is forgotten. -/
  forget : η → Identifier → η
  /-- The heap at the start of a call. -/
  pushScope : η → ScopeToken → η
  /-- The heap at the end of a call. -/
  popScope : η → ScopeToken → η
  /-- The value expressions that an expression may denote. -/
  rewrite : η → SymExpr → Outcome Choices

end Overapprox
