import Overapprox.Domain.Basic
import Overapprox.Ty.Supertype

/-!
# The domain of runtime types

An abstract value is the set of the runtime types that a concrete value may have; top means that
nothing is known and the empty set that there is no value. Where an operator does not fit any of
the types of its operand there is no result either. An untyped operand fits everywhere.

* `InferredTypes.admits_top`: a value about which nothing is known admits every kind of type.
-/

namespace Overapprox

open AbstractLattice

/-- The runtime types that a value may have. -/
inductive InferredTypes where
  | top
  | types (s : TypeSet)
deriving DecidableEq

namespace InferredTypes

/-- The types that are listed; none when nothing is known. -/
def runtimeTypes : InferredTypes → TypeSet
  | top => .empty
  | types s => s

/-- A value of one type. -/
def singleton (t : Ty) : InferredTypes := types (.singleton t)

instance : Render InferredTypes where
  render
    | top => topMark
    | types s => if s.isEmpty then bottomMark else render s
  report
    | top => .text topMark
    | types s => if s.isEmpty then .text bottomMark else report s

instance : AbstractLattice InferredTypes where
  top := top
  bottom := types .empty
  isTop
    | top => true
    | types _ => false
  isBottom
    | top => false
    | types s => s.isEmpty
  properJoin a b := types (a.runtimeTypes.union b.runtimeTypes)
  properMeet a b := types (a.runtimeTypes.inter b.runtimeTypes)
  properLe a b := a.runtimeTypes.subset b.runtimeTypes

/-- Whether a value may be of a kind of types. -/
def admits (p : Ty → Bool) : InferredTypes → Bool
  | top => true
  | types s => s.toList.any fun t => decide (t = .untyped) || p t

/-- The given type, if a value may be of a kind of types. -/
def ofKind (p : Ty → Bool) (result : Ty) (v : InferredTypes) : InferredTypes :=
  if v.admits p then singleton result else AbstractLattice.bottom

/-- Whether arithmetic may be done on values of a type. -/
def fitsArithmetic (t : Ty) : Bool := t.isNumeric || decide (t = .untyped)

/-- Whether values of a type are truth values. -/
def isBool (t : Ty) : Bool := decide (t = .bool)

/-- Whether values of a type are texts. -/
def isText (t : Ty) : Bool := decide (t = .string)

/-- The common supertypes of the types of two sets on which arithmetic may be done. -/
def supertypes (s t : TypeSet) : TypeSet :=
  .ofList ((s.toList.filter fitsArithmetic).flatMap fun a =>
    (t.toList.filter fitsArithmetic).map fun b => a.supertype b)

/-- The types of an operator on one operand. -/
def unary (op : UnaryOp) (v : InferredTypes) : InferredTypes :=
  match op, v with
  | .not, v => v.ofKind isBool .bool
  | .strlen, v => v.ofKind isText .int32
  | .neg, top => top
  | .neg, types s => types (s.filter fitsArithmetic)

/-- The types of an operator on two operands. -/
def binary (op : BinaryOp) (v w : InferredTypes) : InferredTypes :=
  if op.isArithmetic then
    match v, w with
    | types s, types t => types (supertypes s t)
    | _, _ => top
  else if op.isLogical then
    if v.admits isBool && w.admits isBool then singleton .bool else AbstractLattice.bottom
  else if op.isComparison then singleton .bool
  else if v.admits isText && w.admits isText then singleton .string
  else AbstractLattice.bottom

instance : ValueDomain InferredTypes where
  evalIdentifier id bound :=
    if isTop bound || isBottom bound then types id.runtimeTypes else bound
  evalNull := singleton .null
  evalConstant _ t := singleton t
  evalAny t := types t.instances
  evalUnary := unary
  evalBinary _ := binary
  evalTernary _ v _ _ := v.ofKind isText .string
  tracks _ := true

/-- Where no types are known, a value may be of any kind. -/
theorem admits_top (p : Ty → Bool) : top.admits p = true := rfl

end InferredTypes

end Overapprox
