import Overapprox.Expr.Operator
import Overapprox.Identifier

/-!
# Value expressions

Expressions that do not mention the heap, the only ones that value and type domains see. Every
node carries annotations; equality and order look at the static types of the nodes, and at no
runtime types or locations.

* `ValueExpr.popScope?_pushScope`: popping the token that was pushed gives the expression back.
-/

namespace Overapprox

/-- An expression over identifiers and constants. -/
inductive ValueExpr where
  | const (c : Constant) (note : Annotation)
  | ident (id : Identifier) (note : Annotation)
  /-- Any value of the static type. -/
  | any (note : Annotation)
  /-- No value, as of a statement. -/
  | skip (note : Annotation)
  | unary (op : UnaryOp) (e : ValueExpr) (note : Annotation)
  | binary (op : BinaryOp) (l r : ValueExpr) (note : Annotation)
  | ternary (op : TernaryOp) (l m r : ValueExpr) (note : Annotation)
deriving DecidableEq

namespace ValueExpr

/-- The annotations of the root. -/
def note : ValueExpr → Annotation
  | const _ a | ident _ a | any a | skip a | unary _ _ a | binary _ _ _ a | ternary _ _ _ _ a => a

/-- The expression that reads an identifier, annotated like it. -/
def ofIdentifier (id : Identifier) : ValueExpr := ident id id.note

/-- The identifier that an expression reads. -/
def identifier? : ValueExpr → Option Identifier
  | ident id _ => some id
  | _ => none

/-- The inferred runtime types; every instance of the static type where none were inferred. -/
def runtimeTypes (e : ValueExpr) : TypeSet := e.note.runtimeTypes

/-- Replaces the annotations of the root. -/
def withNote (e : ValueExpr) (a : Annotation) : ValueExpr :=
  match e with
  | const c _ => const c a
  | ident id _ => ident id a
  | any _ => any a
  | skip _ => skip a
  | unary op e _ => unary op e a
  | binary op l r _ => binary op l r a
  | ternary op l m r _ => ternary op l m r a

/-- Records inferred runtime types, also on the identifier that the expression reads. -/
def withRuntimeTypes (e : ValueExpr) (ts : TypeSet) : ValueExpr :=
  match e with
  | ident id a => ident (id.withRuntimeTypes ts) { a with runtimeTypes? := some ts }
  | e => e.withNote { e.note with runtimeTypes? := some ts }

/-! ## Equality and order -/

/-- Whether two expressions have one shape, equal leaves and one static type at every node. -/
def same : ValueExpr → ValueExpr → Bool
  | const c a, const d b => c == d && a.type == b.type
  | ident i a, ident j b => i == j && a.type == b.type
  | any a, any b => a.type == b.type
  | skip a, skip b => a.type == b.type
  | unary o e a, unary p f b => o == p && e.same f && a.type == b.type
  | binary o l r a, binary p l' r' b => o == p && l.same l' && r.same r' && a.type == b.type
  | ternary o l m r a, ternary p l' m' r' b =>
    o == p && l.same l' && m.same m' && r.same r' && a.type == b.type
  | _, _ => false

instance : BEq ValueExpr := ⟨same⟩

/-- By kind, then by operator and operands from the left, then by static type. -/
def key : ValueExpr → List Atom
  | const c a => .number 0 :: (c.key ++ a.type.key)
  | ident id a => .number 1 :: (id.key ++ a.type.key)
  | any a => .number 2 :: a.type.key
  | skip a => .number 3 :: a.type.key
  | unary op e a => .number 4 :: .number op.ctorIdx :: (e.key ++ a.type.key)
  | binary op l r a => .number 5 :: .number op.ctorIdx :: (l.key ++ r.key ++ a.type.key)
  | ternary op l m r a =>
    .number 6 :: .number op.ctorIdx :: (l.key ++ m.key ++ r.key ++ a.type.key)

instance : SortKey ValueExpr := ⟨key⟩

instance : Ord ValueExpr := SortKey.toOrd ValueExpr

instance : Std.TransOrd ValueExpr := SortKey.transCmp

/-! ## Text -/

/-- The expression with parentheses around every operation on two operands. -/
def text : ValueExpr → String
  | const c _ => c.text
  | ident id _ => id.text
  | any _ => "PUSHANY"
  | skip _ => "SKIP"
  | unary op e _ => op.apply e.text
  | binary op l r _ => op.apply l.text r.text
  | ternary op l m r _ => op.apply l.text m.text r.text

instance : Render ValueExpr := ⟨text, fun e => .text e.text⟩

/-! ## Scopes -/

/-- Replaces the identifiers. -/
def mapIdentifiers (f : Identifier → Identifier) : ValueExpr → ValueExpr
  | ident id a => ident (f id) a
  | unary op e a => unary op (e.mapIdentifiers f) a
  | binary op l r a => binary op (l.mapIdentifiers f) (r.mapIdentifiers f) a
  | ternary op l m r a =>
    ternary op (l.mapIdentifiers f) (m.mapIdentifiers f) (r.mapIdentifiers f) a
  | e => e

/-- Replaces the identifiers, if there is a replacement for each of them. -/
def mapIdentifiers? (f : Identifier → Option Identifier) : ValueExpr → Option ValueExpr
  | ident id a => (f id).map (ident · a)
  | unary op e a => do return unary op (← e.mapIdentifiers? f) a
  | binary op l r a => do return binary op (← l.mapIdentifiers? f) (← r.mapIdentifiers? f) a
  | ternary op l m r a => do
    return ternary op (← l.mapIdentifiers? f) (← m.mapIdentifiers? f) (← r.mapIdentifiers? f) a
  | e => some e

/-- Hides the identifiers behind a call. -/
def pushScope (token : ScopeToken) (e : ValueExpr) : ValueExpr :=
  e.mapIdentifiers (Identifier.pushScope token)

/-- Shows again what was hidden behind a call, if every identifier survives. -/
def popScope? (token : ScopeToken) (e : ValueExpr) : Option ValueExpr :=
  e.mapIdentifiers? (Identifier.popScope? token)

/-- An expression that was hidden behind a call is shown again unchanged. -/
theorem popScope?_pushScope (token : ScopeToken) (e : ValueExpr) :
    (e.pushScope token).popScope? token = some e := by
  unfold popScope? pushScope
  induction e <;> simp_all [mapIdentifiers, mapIdentifiers?, Identifier.popScope?_pushScope]

end ValueExpr

end Overapprox
