import Overapprox.Lattice.Basic
import Overapprox.Report

/-!
# Verdicts on conditions

What an abstract state says about a condition. Verdicts have a logic, in which a condition without
a value makes everything around it valueless, and a lattice, with `unknown` on top.

* `Verdict.negate_negate`, `Verdict.negate_and`: negation is an involution and obeys De Morgan.
-/

namespace Overapprox

/-- Whether a condition holds in the states that an abstract state allows. -/
inductive Verdict where
  /-- It holds in all of them. -/
  | satisfied
  /-- It holds in none of them. -/
  | notSatisfied
  /-- It may hold or not. -/
  | unknown
  /-- There are no such states. -/
  | bottom
deriving DecidableEq, Repr

namespace Verdict

/-- The verdict on a condition that is decided. -/
def ofBool (b : Bool) : Verdict := if b then satisfied else notSatisfied

/-- The verdict on the negation of a condition. -/
def negate : Verdict → Verdict
  | satisfied => notSatisfied
  | notSatisfied => satisfied
  | v => v

/-- The verdict on the conjunction of two conditions. -/
protected def and : Verdict → Verdict → Verdict
  | bottom, _ | _, bottom => bottom
  | notSatisfied, _ | _, notSatisfied => notSatisfied
  | satisfied, satisfied => satisfied
  | _, _ => unknown

/-- The verdict on the disjunction of two conditions. -/
protected def or : Verdict → Verdict → Verdict
  | bottom, _ | _, bottom => bottom
  | satisfied, _ | _, satisfied => satisfied
  | notSatisfied, notSatisfied => notSatisfied
  | _, _ => unknown

/-- The verdict that two sets of states allow together. -/
def either : Verdict → Verdict → Verdict
  | bottom, v | v, bottom => v
  | v, w => if v = w then v else unknown

/-- The verdict that two views of the same states imply together. -/
def both : Verdict → Verdict → Verdict
  | bottom, _ | _, bottom => bottom
  | unknown, v | v, unknown => v
  | v, w => if v = w then v else bottom

instance : AbstractLattice Verdict where
  top := unknown
  bottom := bottom
  isTop v := v == unknown
  isBottom v := v == bottom
  properJoin := either
  properMeet := both
  properLe v w := v == w

instance : Render Verdict where
  render
    | satisfied => "SATISFIED"
    | notSatisfied => "NOT_SATISFIED"
    | unknown => "UNKNOWN"
    | bottom => "BOTTOM"

/-- Negating a verdict twice gives it back. -/
theorem negate_negate (v : Verdict) : v.negate.negate = v := by cases v <;> rfl

/-- The verdict on a negated conjunction is that on the disjunction of the negations. -/
theorem negate_and (v w : Verdict) : (v.and w).negate = v.negate.or w.negate := by
  cases v <;> cases w <;> rfl

end Verdict

end Overapprox
