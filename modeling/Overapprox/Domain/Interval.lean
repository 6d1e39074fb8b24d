import Overapprox.Domain.Basic
import Overapprox.Number.Bounds

/-!
# The interval domain

An interval stands for the integers between two bounds; the empty interval is bottom. Values that
are not integers are everything or nothing to it.

* `Interval.judge_gt`, `Interval.judge_ge`: `>` is judged as `<=`, and `>=` as `<`, on exchanged
  operands.
-/

namespace Overapprox

open AbstractLattice

/-- A set of integers given by its bounds. -/
inductive Interval where
  | bottom
  | range (bounds : Bounds)
deriving DecidableEq

namespace Interval

/-- The interval between two bounds; empty when they are out of order. -/
def ofBounds (low high : Extended) : Interval :=
  match Bounds.ofBounds? low high with
  | some b => range b
  | none => bottom

/-- The interval of one integer. -/
def singleton (n : Int) : Interval := range (.singleton (.finite n))

/-- The bounds of an interval that is not empty. -/
def bounds? : Interval → Option Bounds
  | bottom => none
  | range b => some b

/-- The lower bound. -/
def low? (i : Interval) : Option Extended := i.bounds?.map (·.low)

/-- The upper bound. -/
def high? (i : Interval) : Option Extended := i.bounds?.map (·.high)

/-- Whether the interval is zero alone. -/
def isZero : Interval → Bool
  | bottom => false
  | range b => b.isZero

/-- Whether the interval is one integer. -/
def isSingleton : Interval → Bool
  | bottom => false
  | range b => b.isSingleton

instance : Render Interval where
  render
    | bottom => bottomMark
    | range b => render b
  report
    | bottom => .text bottomMark
    | range b => report b

/-! ## Lattice -/

instance : AbstractLattice Interval where
  top := range .infinite
  bottom := bottom
  isTop
    | bottom => false
    | range b => b.isInfinite
  isBottom
    | bottom => true
    | range _ => false
  properJoin
    | range a, range b => range (a.hull b)
    | _, _ => bottom
  properMeet
    | range a, range b => ofBounds (max a.low b.low) (min a.high b.high)
    | _, _ => bottom
  properWiden
    | range a, range b => range (a.widen b)
    | _, _ => bottom
  properLe
    | range a, range b => b.includes a
    | bottom, _ => true
    | _, bottom => false

/-! ## Evaluation -/

/-- The interval of an operator on one operand. -/
def unary (op : UnaryOp) (v : Interval) : Interval :=
  match op, v with
  | .neg, range b => if isTop v then top else range (b * .singleton (.finite (-1)))
  | .strlen, _ => ofBounds 0 .posInf
  | _, _ => top

/-- The interval of an operator on two operands. A quotient by zero does not arise, and zero times
or over anything else is zero. -/
def binary (opts : Options) (op : BinaryOp) (v w : Interval) : Interval :=
  if op != .div && (isTop v || isTop w) then top
  else
    match v, w with
    | range a, range b =>
      match op with
      | .add => range (a + b)
      | .sub => range (a - b)
      | .mul => if a.isZero || b.isZero then singleton 0 else range (a * b)
      | .div =>
        if b.isZero then bottom
        else if a.isZero then singleton 0
        else if isTop v || isTop w then top
        else range (a.div opts.divisionRounding b)
      | _ => top
    | _, _ => bottom

/-! ## Verdicts -/

/-- Whether every integer of `a` equals every integer of `b`. -/
def equals (a b : Bounds) : Verdict :=
  if isBottom (meet (range a) (range b)) then .notSatisfied
  else if a.isSingleton && a == b then .satisfied
  else .unknown

/-- Whether every integer of `a` differs from every integer of `b`. -/
def differs (a b : Bounds) : Verdict :=
  if isBottom (meet (range a) (range b)) then .satisfied else .unknown

/-- Whether every integer of `a` is below every integer of `b`. -/
def below (a b : Bounds) : Verdict :=
  if isBottom (meet (range a) (range b)) then .ofBool (decide (a.high < b.low)) else .unknown

/-- Whether every integer of `a` is at most every integer of `b`. They may share one bound. -/
def atMost (a b : Bounds) : Verdict :=
  let common := meet (range a) (range b)
  if isBottom common then .ofBool (decide (a.high ≤ b.low))
  else if common.isSingleton && a.high == b.low then .satisfied
  else .unknown

/-- The verdict on an operator on two operands. -/
def judge (op : BinaryOp) (v w : Interval) : Verdict :=
  if isTop v || isTop w then .unknown
  else
    match v, w with
    | range a, range b =>
      match op with
      | .eq => equals a b
      | .ne => differs a b
      | .lt => below a b
      | .le => atMost a b
      | .gt => atMost b a
      | .ge => below b a
      | _ => .unknown
    | _, _ => .bottom

/-- A greater operand is judged as if the operands were swapped and compared by `≤`. -/
theorem judge_gt (v w : Interval) : judge .gt v w = judge .le w v := by
  cases v <;> cases w <;> simp [judge, or_comm]

theorem judge_ge (v w : Interval) : judge .ge v w = judge .lt w v := by
  cases v <;> cases w <;> simp [judge, or_comm]

/-! ## Refinement -/

/-- Binds an identifier to what the comparison of it with a value leaves. -/
def refine (op : BinaryOp) (id : Identifier) (v : Interval) (env : ValueEnv Interval) :
    ValueEnv Interval :=
  match v with
  | bottom => AbstractLattice.bottom
  | range b =>
    match op with
    | .eq => env.put id v
    | .ge => if b.low = .negInf then env else env.put id (ofBounds b.low .posInf)
    | .gt => if b.low = .negInf then env else env.put id (ofBounds (b.low + 1) .posInf)
    | .le => env.put id (ofBounds .negInf b.high)
    | .lt => env.put id (if b.low = .negInf then v else ofBounds .negInf (b.high - 1))
    | _ => env

/-- Refines the identifier on one side of a comparison by the value of the other side. -/
def assumeComparison (eval : ValueEnv Interval → ValueExpr → Interval) (op : BinaryOp)
    (l r : ValueExpr) (env : ValueEnv Interval) : ValueEnv Interval :=
  match l.identifier?, r.identifier? with
  | some id, _ => refine op id (eval env r) env
  | none, some id => refine op.converse id (eval env l) env
  | none, none => env

instance : ValueDomain Interval where
  evalConstant
    | .int n, _ => singleton n
    | _, _ => top
  evalUnary := unary
  evalBinary := binary
  satisfiesBinary := judge
  assumeBinary := assumeComparison

end Interval

end Overapprox
