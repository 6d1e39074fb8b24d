import Overapprox.Error
import Overapprox.Lattice.Powerset

/-!
# Rewriting symbolic expressions

A symbolic expression may denote several value expressions, one for every way in which its heap
expressions resolve. What does not mention the heap is rewritten to itself, operators to every
combination of what their operands are rewritten to, and the heap expressions as the rewriter says.

* `Rewriter.rewrite_ident`, `Rewriter.rewrite_const`: leaves are rewritten to themselves.
-/

namespace Overapprox

/-- The value expressions that a symbolic expression may denote. -/
abbrev Choices := Powerset ValueExpr

/-- How the four kinds of heap expressions are resolved, given what their operands denote. -/
structure Rewriter where
  /-- What a child of one of the containers denotes. -/
  child : SymExpr → Choices → Choices → Outcome Choices
  /-- What a fresh heap block denotes. -/
  alloc : SymExpr → Outcome Choices
  /-- What the address of one of the operands denotes. -/
  ref : SymExpr → Choices → Outcome Choices
  /-- What one of the operands points to. -/
  deref : SymExpr → Choices → Outcome Choices

namespace Rewriter

/-- The value expressions that an expression may denote. -/
def rewrite (rw : Rewriter) : SymExpr → Outcome Choices
  | .const c a => return .singleton (.const c a)
  | .ident id a => return .singleton (.ident id a)
  | .any a => return .singleton (.any a)
  | .skip a => return .singleton (.skip a)
  | .unary op e a => do
    let es ← rw.rewrite e
    return .ofList (es.toList.map (.unary op · a))
  | .binary op l r a => do
    let ls ← rw.rewrite l
    let rs ← rw.rewrite r
    return .ofList (ls.toList.flatMap fun l => rs.toList.map (.binary op l · a))
  | .ternary op l m r a => do
    let ls ← rw.rewrite l
    let ms ← rw.rewrite m
    let rs ← rw.rewrite r
    return .ofList (ls.toList.flatMap fun l => ms.toList.flatMap fun m =>
      rs.toList.map (.ternary op l m · a))
  | .child c e a => do
    let cs ← rw.rewrite c
    let es ← rw.rewrite e
    rw.child (.child c e a) cs es
  | .alloc a => rw.alloc (.alloc a)
  | .ref e a => do
    let es ← rw.rewrite e
    rw.ref (.ref e a) es
  | .deref e a => do
    let es ← rw.rewrite e
    rw.deref (.deref e a) es

/-- No rewriter changes an identifier. -/
theorem rewrite_ident (rw : Rewriter) (id : Identifier) (a : Annotation) :
    rw.rewrite (.ident id a) = .ok (.singleton (.ident id a)) := rfl

theorem rewrite_const (rw : Rewriter) (c : Constant) (a : Annotation) :
    rw.rewrite (.const c a) = .ok (.singleton (.const c a)) := rfl

end Rewriter

end Overapprox
