import Overapprox.Order.Atom
import Overapprox.Report

/-!
# Operators and constants

* `BinaryOp.negate?_negate?`: negating a comparison twice gives it back.
* `BinaryOp.isComparison_iff`: exactly the comparisons have a negation.
-/

namespace Overapprox

/-- Operators on one operand, in their order. -/
inductive UnaryOp where
  | neg
  | not
  | strlen
deriving DecidableEq, Repr

/-- Operators on two operands, in their order. -/
inductive BinaryOp where
  | add | sub | mul | div | rem
  | eq | ne | lt | le | gt | ge
  | and | or
  | concat
deriving DecidableEq, Repr

/-- Operators on three operands, in their order. -/
inductive TernaryOp where
  /-- The left text with every occurrence of the middle one replaced by the right one. -/
  | replace
  /-- The part of the left text between two positions. -/
  | substring
deriving DecidableEq, Repr

/-- A literal, in the order of its kinds. -/
inductive Constant where
  | null
  | bool (b : Bool)
  | int (n : Int)
  | str (s : String)
deriving DecidableEq, Repr

namespace UnaryOp

/-- The symbol of an operator. -/
def symbol : UnaryOp → String
  | neg => "-"
  | not => "!"
  | strlen => "strlen"

/-- The text of an operation, given that of its operand. -/
def apply (op : UnaryOp) (e : String) : String :=
  match op with
  | strlen => "strlen(" ++ e ++ ")"
  | op => op.symbol ++ e

end UnaryOp

namespace BinaryOp

/-- The symbol of an operator. -/
def symbol : BinaryOp → String
  | add => "+"
  | sub => "-"
  | mul => "*"
  | div => "/"
  | rem => "%"
  | eq => "=="
  | ne => "!="
  | lt => "<"
  | le => "<="
  | gt => ">"
  | ge => ">="
  | and => "&&"
  | or => "||"
  | concat => "strcat"

/-- The text of an operation, given those of its operands. -/
def apply (op : BinaryOp) (l r : String) : String :=
  match op with
  | concat => "strcat(" ++ l ++ ", " ++ r ++ ")"
  | op => "(" ++ l ++ " " ++ op.symbol ++ " " ++ r ++ ")"

/-- Whether the result says how two values compare. -/
def isComparison : BinaryOp → Bool
  | eq | ne | lt | le | gt | ge => true
  | _ => false

/-- Whether the operands and the result are numbers. -/
def isArithmetic : BinaryOp → Bool
  | add | sub | mul | div | rem => true
  | _ => false

/-- Whether the operands and the result are truth values. -/
def isLogical : BinaryOp → Bool
  | and | or => true
  | _ => false

/-- The comparison that holds exactly when another one does not. -/
def negate? : BinaryOp → Option BinaryOp
  | eq => some ne
  | ne => some eq
  | lt => some ge
  | ge => some lt
  | le => some gt
  | gt => some le
  | _ => none

/-- The comparison of the same operands in the other order. -/
def converse : BinaryOp → BinaryOp
  | lt => gt
  | le => ge
  | gt => lt
  | ge => le
  | op => op

/-- The connective that a negation turns a connective into. -/
def dual : BinaryOp → BinaryOp
  | and => or
  | _ => and

/-- The opposite of the opposite of a comparison is the comparison. -/
theorem negate?_negate? {op op' : BinaryOp} (h : op.negate? = some op') :
    op'.negate? = some op := by
  cases op <;> cases h <;> rfl

/-- The comparisons are the operators that have an opposite. -/
theorem isComparison_iff {op : BinaryOp} : op.isComparison = true ↔ op.negate?.isSome = true := by
  cases op <;> decide

end BinaryOp

namespace TernaryOp

/-- The symbol of an operator. -/
def symbol : TernaryOp → String
  | replace => "strreplace"
  | substring => "strsub"

/-- The text of an operation, given those of its operands. -/
def apply (op : TernaryOp) (l m r : String) : String :=
  op.symbol ++ "(" ++ l ++ ", " ++ m ++ ", " ++ r ++ ")"

end TernaryOp

namespace Constant

/-- By kind, then by value. -/
def key : Constant → List Atom
  | null => [.number 0]
  | bool b => [.number 1, .number b.toNat]
  | int n => [.number 2, .number n]
  | str s => [.number 3, .text s]

/-- The literal. A text stands between quotes as it is. -/
def text : Constant → String
  | null => "null"
  | bool b => if b then "true" else "false"
  | int n => toString n
  | str s => "\"" ++ s ++ "\""

end Constant

end Overapprox
