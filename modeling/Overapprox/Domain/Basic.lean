import Overapprox.Env.Basic
import Overapprox.Expr.Negation
import Overapprox.Options
import Overapprox.Verdict

/-!
# Non-relational domains

A domain of abstract values says what single operations do: evaluate an operator on abstract
operands, judge it, and refine an environment by a condition. What it does not say stays as
imprecise as possible: an evaluation gives top, a judgement `unknown`, and a condition changes
nothing. `eval`, `satisfies` and `assume` walk through expressions and ask the domain.

* `ValueDomain.assume_not`: a negation is assumed through its negation normal form, unless it is in
  that form already.
-/

namespace Overapprox

open AbstractLattice

/-- Whether values of these types may be something else than pointers and heap objects. Nothing is
known about values of no type. -/
def TypeSet.hasPlainValues (ts : TypeSet) : Bool :=
  ts.isEmpty || ts.toList.any fun t => !t.isPointer && !t.isInMemory

/-- Abstract values of single identifiers, and what operations do to them. -/
class ValueDomain (δ : Type) [BEq δ] extends AbstractLattice δ where
  /-- The value of an identifier, given what it is bound to. -/
  evalIdentifier : Identifier → δ → δ := fun _ bound => bound
  /-- The value of the null constant. -/
  evalNull : δ := top
  /-- The value of any other constant of a static type. -/
  evalConstant : Constant → Ty → δ := fun _ _ => top
  /-- The value of an unknown expression of a static type. -/
  evalAny : Ty → δ := fun _ => top
  /-- The value of an operator on one operand. -/
  evalUnary : UnaryOp → δ → δ := fun _ _ => top
  /-- The value of an operator on two operands. -/
  evalBinary : Options → BinaryOp → δ → δ → δ := fun _ _ _ _ => top
  /-- The value of an operator on three operands. -/
  evalTernary : TernaryOp → δ → δ → δ → δ := fun _ _ _ _ => top
  /-- Whether an abstract value is true. -/
  satisfiesValue : δ → Verdict := fun _ => .unknown
  /-- Whether the null constant is true. -/
  satisfiesNull : Verdict := .unknown
  /-- Whether any other constant is true. -/
  satisfiesConstant : Constant → Verdict := fun _ => .unknown
  /-- Whether an operator other than a negation is true of one operand. -/
  satisfiesUnary : UnaryOp → δ → Verdict := fun _ _ => .unknown
  /-- Whether an operator other than a connective is true of two operands. -/
  satisfiesBinary : BinaryOp → δ → δ → Verdict := fun _ _ _ => .unknown
  /-- Whether an operator is true of three operands. -/
  satisfiesTernary : TernaryOp → δ → δ → δ → Verdict := fun _ _ _ _ => .unknown
  /-- Refines an environment by an operator on one expression. The first argument evaluates. -/
  assumeUnary : (ValueEnv δ → ValueExpr → δ) → UnaryOp → ValueExpr → ValueEnv δ → ValueEnv δ :=
    fun _ _ _ env => env
  /-- Refines an environment by an operator, not a connective, on two expressions. -/
  assumeBinary : (ValueEnv δ → ValueExpr → δ) → BinaryOp → ValueExpr → ValueExpr → ValueEnv δ →
    ValueEnv δ := fun _ _ _ _ env => env
  /-- Refines an environment by an operator on three expressions. -/
  assumeTernary : (ValueEnv δ → ValueExpr → δ) → TernaryOp → ValueExpr → ValueExpr → ValueExpr →
    ValueEnv δ → ValueEnv δ := fun _ _ _ _ _ env => env
  /-- Whether an identifier is bound at all; by default, unless it only holds pointers and heap
  objects. -/
  tracks : Identifier → Bool := fun id => id.runtimeTypes.hasPlainValues

namespace ValueDomain

variable {δ : Type} [BEq δ] [ValueDomain δ]

/-! ## Evaluation -/

/-- The value of an expression. An operand without a value leaves none to the whole. -/
def eval (opts : Options) (env : ValueEnv δ) : ValueExpr → δ
  | .ident id _ => evalIdentifier id (env.get id)
  | .const .null _ => evalNull
  | .const c a => evalConstant c a.type
  | .any a => evalAny a.type
  | .skip _ => bottom
  | .unary op e _ =>
    let v := eval opts env e
    if isBottom v then v else evalUnary op v
  | .binary op l r _ =>
    let v := eval opts env l
    let w := eval opts env r
    if isBottom v then v
    else if isBottom w then w
    else evalBinary opts op v w
  | .ternary op l m r _ =>
    let u := eval opts env l
    let v := eval opts env m
    let w := eval opts env r
    if isBottom u || isBottom v || isBottom w then bottom else evalTernary op u v w

/-! ## Verdicts -/

/-- The verdict on a condition. Connectives and negations combine the verdicts of their operands;
everything else is judged by the values of the operands. -/
def satisfies (opts : Options) (env : ValueEnv δ) : ValueExpr → Verdict
  | .ident id _ => satisfiesValue (env.get id)
  | .const .null _ => satisfiesNull δ
  | .const c _ => satisfiesConstant δ c
  | .any _ => .unknown
  | .skip _ => .unknown
  | .unary .not e _ => (satisfies opts env e).negate
  | .unary op e _ =>
    let v := eval opts env e
    if isBottom v then .bottom else satisfiesUnary op v
  | .binary .and l r _ => (satisfies opts env l).and (satisfies opts env r)
  | .binary .or l r _ => (satisfies opts env l).or (satisfies opts env r)
  | .binary op l r _ =>
    let v := eval opts env l
    let w := eval opts env r
    if isBottom v || isBottom w then .bottom else satisfiesBinary op v w
  | .ternary op l m r _ =>
    let u := eval opts env l
    let v := eval opts env m
    let w := eval opts env r
    if isBottom u || isBottom v || isBottom w then .bottom else satisfiesTernary op u v w

/-! ## Refinement -/

/-- Refines an environment by a condition, with `atNegation` for its negations: by both operands of
a conjunction in turn, and by either operand of a disjunction. -/
def assumeWith (opts : Options) (atNegation : ValueExpr → ValueEnv δ → ValueEnv δ) :
    ValueExpr → ValueEnv δ → ValueEnv δ
  | .unary .not e a, env => atNegation (.unary .not e a) env
  | .unary op e _, env => assumeUnary (eval opts) op e env
  | .binary .and l r _, env => assumeWith opts atNegation r (assumeWith opts atNegation l env)
  | .binary .or l r _, env =>
    join (assumeWith opts atNegation l env) (assumeWith opts atNegation r env)
  | .binary op l r _, env => assumeBinary (eval opts) op l r env
  | .ternary op l m r _, env => assumeTernary (eval opts) op l m r env
  | .ident .., env => env
  | .const .., env => env
  | .any _, env => env
  | .skip _, env => env

/-- Refines an environment by a negation in normal form. -/
def assumeNegation (opts : Options) : ValueExpr → ValueEnv δ → ValueEnv δ
  | .unary op e _, env => assumeUnary (eval opts) op e env
  | _, env => env

/-- Refines an environment by a condition in negation normal form. -/
def assumeNormal (opts : Options) : ValueExpr → ValueEnv δ → ValueEnv δ :=
  assumeWith opts (assumeNegation opts)

/-- Refines an environment by a condition. Every negation in it is brought into normal form. -/
def assume (opts : Options) : ValueExpr → ValueEnv δ → ValueEnv δ :=
  assumeWith opts fun e env =>
    let normal := e.removeNegations
    if normal == e then assumeNegation opts e env else assumeNormal opts normal env

/-- A negation in normal form is left to the domain. Every other one is replaced by its normal form.
-/
theorem assume_not (opts : Options) (e : ValueExpr) (a : Annotation) (env : ValueEnv δ) :
    assume opts (.unary .not e a) env =
      if (ValueExpr.unary .not e a).removeNegations == .unary .not e a then
        assumeUnary (eval opts) .not e env
      else assumeNormal opts (ValueExpr.unary .not e a).removeNegations env := by
  simp [assume, assumeWith, assumeNegation]

end ValueDomain

/-- Whether value domains can evaluate an expression; not, if it only gives pointers and heap
objects. -/
def ValueExpr.hasPlainValues (e : ValueExpr) : Bool := e.runtimeTypes.hasPlainValues

end Overapprox
