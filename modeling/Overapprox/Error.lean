import Overapprox.Call.Site
import Overapprox.Expr.Symbolic

/-!
# Errors of an analysis

What can stop a transfer. An error ends the transfer in which it arises and reaches the caller
unchanged.

* `Outcome.exists_of_bind`: where two steps in a row have a result, so does the first of them.
-/

namespace Overapprox

/-- Why a transfer has no result. -/
inductive AnalysisError where
  /-- A heap cannot tell what an expression denotes. -/
  | unsupportedExpression (expression : SymExpr) (domain : String)
  /-- The target of an assignment denotes something else than a location. -/
  | notAnIdentifier (target : SymExpr) (rewritten : ValueExpr)
  /-- A replacement has targets and no source. -/
  | withoutSources (targets : OrdSet Identifier)
  /-- No target of a call could be found or followed. -/
  | unresolvedCall (call : Call) (reason : String)
  /-- A domain gave up. -/
  | domain (message : String)
deriving DecidableEq

namespace AnalysisError

/-- The error in words. -/
def message : AnalysisError → String
  | unsupportedExpression e d => "Expression " ++ e.text ++ " cannot be processed by " ++ d
  | notAnIdentifier t r =>
    "Rewriting " ++ t.text ++ " produced " ++ r.text ++ ", which is not an identifier"
  | withoutSources ts =>
    "Inconsistent substitution: replacement without sources for " ++ render ts
  | unresolvedCall c reason =>
    "Cannot compute the result of call " ++ c.text ++ ": " ++ reason
  | domain m => m

end AnalysisError

/-- A result, or why there is none. -/
abbrev Outcome (α : Type) := Except AnalysisError α

/-- Where two steps in a row have a result, so does the first of them, and the second has it from
there. -/
theorem Outcome.exists_of_bind {α β : Type} {x : Outcome α} {f : α → Outcome β} {b : β}
    (h : x >>= f = .ok b) : ∃ a, x = .ok a ∧ f a = .ok b := by
  cases x with
  | error => cases h
  | ok a => exact ⟨a, rfl, h⟩

end Overapprox
