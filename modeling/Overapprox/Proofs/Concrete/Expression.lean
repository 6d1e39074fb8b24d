import Overapprox.Expr.Value

/-!
# What value expressions denote

A valuation gives every identifier an integer. Under it an expression may denote several integers,
one or none: what is not arithmetic on integers is left open, and a division by zero, a statement
and everything around them denote nothing.

* `Valuation`: the concrete stores.
* `Denotes`: the integers that an expression may denote.
-/

namespace Overapprox

/-- A concrete store. Identifiers that are equal up to annotations have one value. -/
structure Valuation where
  value : Identifier → Int
  value_eq_of_beq : ∀ {i j : Identifier}, (i == j) = true → value i = value j

namespace Valuation

instance : CoeFun Valuation fun _ => Identifier → Int := ⟨value⟩

/-- Every identifier has the same value. -/
def constant (n : Int) : Valuation := ⟨fun _ => n, fun _ => rfl⟩

end Valuation

/-- The integer variable of a name. -/
def intVar (name : String) : Identifier := .var name { type := .int32 }

/-- The comparison of an identifier with an integer. -/
def compareInt (op : BinaryOp) (id : Identifier) (n : Int) : ValueExpr :=
  .binary op (.ofIdentifier id) (.const (.int n) { type := .int32 }) { type := .bool }

/-- The integers that a constant may denote: itself, or anything where it is no integer. -/
def Constant.Gives : Constant → Int → Prop
  | int m, n => n = m
  | _, _ => True

/-- The results that an operator may have on an integer. -/
def UnaryOp.Gives : UnaryOp → Int → Int → Prop
  | neg, m, n => n = -m
  | strlen, _, n => 0 ≤ n
  | not, _, _ => True

/-- The results that an operator may have on two integers. Quotients are truncated. -/
def BinaryOp.Gives : BinaryOp → Int → Int → Int → Prop
  | add, l, r, n => n = l + r
  | sub, l, r, n => n = l - r
  | mul, l, r, n => n = l * r
  | div, l, r, n => r ≠ 0 ∧ n = l.tdiv r
  | _, _, _, _ => True

/-- The integers that an expression may denote under a valuation. Operators are strict. -/
inductive Denotes (s : Valuation) : ValueExpr → Int → Prop where
  | const {c : Constant} {n : Int} (a : Annotation) : c.Gives n → Denotes s (.const c a) n
  | ident (id : Identifier) (a : Annotation) : Denotes s (.ident id a) (s id)
  | any (a : Annotation) (n : Int) : Denotes s (.any a) n
  | unary {op : UnaryOp} {e : ValueExpr} {m n : Int} (a : Annotation) :
    Denotes s e m → op.Gives m n → Denotes s (.unary op e a) n
  | binary {op : BinaryOp} {l r : ValueExpr} {i j n : Int} (a : Annotation) :
    Denotes s l i → Denotes s r j → op.Gives i j n → Denotes s (.binary op l r a) n
  | ternary {l m r : ValueExpr} {i j k : Int} (op : TernaryOp) (a : Annotation) (n : Int) :
    Denotes s l i → Denotes s m j → Denotes s r k → Denotes s (.ternary op l m r a) n

end Overapprox
