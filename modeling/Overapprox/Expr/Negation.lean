import Overapprox.Expr.Value

/-!
# Negation normal form

Logical negations are pushed through connectives and other negations down to comparisons, which
they turn into the opposite comparison. A negation of anything else stays where it is.

* `ValueExpr.removeNegations_not_not`: a double negation disappears.
* `ValueExpr.removeNegations_not_comparison`: a negated comparison becomes its opposite.
-/

namespace Overapprox

namespace ValueExpr

mutual

/-- Pushes the negations of an expression down to its comparisons. -/
def removeNegations : ValueExpr → ValueExpr
  | unary .not e a => negation a e
  | binary op l r a =>
    if op.isLogical then binary op l.removeNegations r.removeNegations a else binary op l r a
  | e => e

/-- Pushes the negations of the negation of an expression, annotated with `a`, down to its
comparisons. A comparison and a connective keep their own annotations. -/
def negation (a : Annotation) : ValueExpr → ValueExpr
  | unary .not e _ => e.removeNegations
  | binary op l r b =>
    match op.negate? with
    | some opposite => binary opposite l r b
    | none =>
      if op.isLogical then binary op.dual (negation l.note l) (negation r.note r) b
      else unary .not (binary op l r b) a
  | e => unary .not e a

end

/-- Two negations cancel, and their annotations are dropped. -/
theorem removeNegations_not_not (e : ValueExpr) (a b : Annotation) :
    (unary .not (unary .not e b) a).removeNegations = e.removeNegations := rfl

/-- A negated comparison becomes its opposite, with the annotation of the comparison. -/
theorem removeNegations_not_comparison {op opposite : BinaryOp} (h : op.negate? = some opposite)
    (l r : ValueExpr) (a b : Annotation) :
    (unary .not (binary op l r b) a).removeNegations = binary opposite l r b := by
  simp [removeNegations, negation, h]

end ValueExpr

end Overapprox
