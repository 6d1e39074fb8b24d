import Overapprox.Expr.Value

/-!
# Symbolic expressions

The expressions of the analysed program, which may allocate on the heap, take addresses, follow
pointers and access the children of what a pointer points to. Value expressions are the symbolic
ones without these four kinds.

* `SymExpr.popScope?_pushScope`: popping the token that was pushed gives the expression back.
* `SymExpr.note_ofValue`: a value expression keeps its annotations.
-/

namespace Overapprox

/-- An expression that may refer to the heap. -/
inductive SymExpr where
  | const (c : Constant) (note : Annotation)
  | ident (id : Identifier) (note : Annotation)
  /-- Any value of the static type. -/
  | any (note : Annotation)
  /-- No value, as of a statement. -/
  | skip (note : Annotation)
  | unary (op : UnaryOp) (e : SymExpr) (note : Annotation)
  | binary (op : BinaryOp) (l r : SymExpr) (note : Annotation)
  | ternary (op : TernaryOp) (l m r : SymExpr) (note : Annotation)
  /-- A child of what the container points to. -/
  | child (container child : SymExpr) (note : Annotation)
  /-- A fresh heap block of the static type. -/
  | alloc (note : Annotation)
  /-- The address of the location that the operand denotes. -/
  | ref (e : SymExpr) (note : Annotation)
  /-- The location that the operand points to. -/
  | deref (e : SymExpr) (note : Annotation)
deriving DecidableEq

namespace SymExpr

/-- The annotations of the root. -/
def note : SymExpr → Annotation
  | const _ a | ident _ a | any a | skip a | unary _ _ a | binary _ _ _ a | ternary _ _ _ _ a
  | child _ _ a | alloc a | ref _ a | deref _ a => a

/-- The expression that reads an identifier, annotated like it. -/
def ofIdentifier (id : Identifier) : SymExpr := ident id id.note

/-- The identifier that an expression reads. -/
def identifier? : SymExpr → Option Identifier
  | ident id _ => some id
  | _ => none

/-- Whether an expression has no value. -/
def isSkip : SymExpr → Bool
  | skip _ => true
  | _ => false

/-- The inferred runtime types; every instance of the static type where none were inferred. -/
def runtimeTypes (e : SymExpr) : TypeSet := e.note.runtimeTypes

/-- Replaces the annotations of the root. -/
def withNote (e : SymExpr) (a : Annotation) : SymExpr :=
  match e with
  | const c _ => const c a
  | ident id _ => ident id a
  | any _ => any a
  | skip _ => skip a
  | unary op e _ => unary op e a
  | binary op l r _ => binary op l r a
  | ternary op l m r _ => ternary op l m r a
  | child c e _ => child c e a
  | alloc _ => alloc a
  | ref e _ => ref e a
  | deref e _ => deref e a

/-- Records inferred runtime types, also on the identifier that the expression reads. -/
def withRuntimeTypes (e : SymExpr) (ts : TypeSet) : SymExpr :=
  match e with
  | ident id a => ident (id.withRuntimeTypes ts) { a with runtimeTypes? := some ts }
  | e => e.withNote { e.note with runtimeTypes? := some ts }

/-- A value expression as a symbolic one. -/
def ofValue : ValueExpr → SymExpr
  | .const c a => const c a
  | .ident id a => ident id a
  | .any a => any a
  | .skip a => skip a
  | .unary op e a => unary op (ofValue e) a
  | .binary op l r a => binary op (ofValue l) (ofValue r) a
  | .ternary op l m r a => ternary op (ofValue l) (ofValue m) (ofValue r) a

/-! ## Equality and order -/

/-- Whether two expressions have one shape, equal leaves and one static type at every node. -/
def same : SymExpr → SymExpr → Bool
  | const c a, const d b => c == d && a.type == b.type
  | ident i a, ident j b => i == j && a.type == b.type
  | any a, any b => a.type == b.type
  | skip a, skip b => a.type == b.type
  | unary o e a, unary p f b => o == p && e.same f && a.type == b.type
  | binary o l r a, binary p l' r' b => o == p && l.same l' && r.same r' && a.type == b.type
  | ternary o l m r a, ternary p l' m' r' b =>
    o == p && l.same l' && m.same m' && r.same r' && a.type == b.type
  | child c e a, child d f b => c.same d && e.same f && a.type == b.type
  | alloc a, alloc b => a.type == b.type
  | ref e a, ref f b => e.same f && a.type == b.type
  | deref e a, deref f b => e.same f && a.type == b.type
  | _, _ => false

instance : BEq SymExpr := ⟨same⟩

/-- By kind, then by operator and operands from the left, then by static type. -/
def key : SymExpr → List Atom
  | const c a => .number 0 :: (c.key ++ a.type.key)
  | ident id a => .number 1 :: (id.key ++ a.type.key)
  | any a => .number 2 :: a.type.key
  | skip a => .number 3 :: a.type.key
  | unary op e a => .number 4 :: .number op.ctorIdx :: (e.key ++ a.type.key)
  | binary op l r a => .number 5 :: .number op.ctorIdx :: (l.key ++ r.key ++ a.type.key)
  | ternary op l m r a =>
    .number 6 :: .number op.ctorIdx :: (l.key ++ m.key ++ r.key ++ a.type.key)
  | child c e a => .number 7 :: (c.key ++ e.key ++ a.type.key)
  | alloc a => .number 8 :: a.type.key
  | ref e a => .number 9 :: (e.key ++ a.type.key)
  | deref e a => .number 10 :: (e.key ++ a.type.key)

instance : SortKey SymExpr := ⟨key⟩

instance : Ord SymExpr := SortKey.toOrd SymExpr

instance : Std.TransOrd SymExpr := SortKey.transCmp

/-! ## Text -/

/-- The expression with parentheses around every operation on two operands. -/
def text : SymExpr → String
  | const c _ => c.text
  | ident id _ => id.text
  | any _ => "PUSHANY"
  | skip _ => "SKIP"
  | unary op e _ => op.apply e.text
  | binary op l r _ => op.apply l.text r.text
  | ternary op l m r _ => op.apply l.text m.text r.text
  | child c e _ => c.text ++ "->" ++ e.text
  | alloc _ => "new"
  | ref e _ => "&" ++ e.text
  | deref e _ => "*" ++ e.text

instance : Render SymExpr := ⟨text, fun e => .text e.text⟩

/-! ## Scopes -/

/-- Replaces the identifiers. -/
def mapIdentifiers (f : Identifier → Identifier) : SymExpr → SymExpr
  | ident id a => ident (f id) a
  | unary op e a => unary op (e.mapIdentifiers f) a
  | binary op l r a => binary op (l.mapIdentifiers f) (r.mapIdentifiers f) a
  | ternary op l m r a =>
    ternary op (l.mapIdentifiers f) (m.mapIdentifiers f) (r.mapIdentifiers f) a
  | child c e a => child (c.mapIdentifiers f) (e.mapIdentifiers f) a
  | ref e a => ref (e.mapIdentifiers f) a
  | deref e a => deref (e.mapIdentifiers f) a
  | e => e

/-- Replaces the identifiers, if there is a replacement for each of them. -/
def mapIdentifiers? (f : Identifier → Option Identifier) : SymExpr → Option SymExpr
  | ident id a => (f id).map (ident · a)
  | unary op e a => do return unary op (← e.mapIdentifiers? f) a
  | binary op l r a => do return binary op (← l.mapIdentifiers? f) (← r.mapIdentifiers? f) a
  | ternary op l m r a => do
    return ternary op (← l.mapIdentifiers? f) (← m.mapIdentifiers? f) (← r.mapIdentifiers? f) a
  | child c e a => do return child (← c.mapIdentifiers? f) (← e.mapIdentifiers? f) a
  | ref e a => do return ref (← e.mapIdentifiers? f) a
  | deref e a => do return deref (← e.mapIdentifiers? f) a
  | e => some e

/-- Hides the identifiers behind a call. -/
def pushScope (token : ScopeToken) (e : SymExpr) : SymExpr :=
  e.mapIdentifiers (Identifier.pushScope token)

/-- Shows again what was hidden behind a call, if every identifier survives. -/
def popScope? (token : ScopeToken) (e : SymExpr) : Option SymExpr :=
  e.mapIdentifiers? (Identifier.popScope? token)

/-- An expression that was hidden behind a call is shown again unchanged. -/
theorem popScope?_pushScope (token : ScopeToken) (e : SymExpr) :
    (e.pushScope token).popScope? token = some e := by
  unfold popScope? pushScope
  induction e <;> simp_all [mapIdentifiers, mapIdentifiers?, Identifier.popScope?_pushScope]

theorem note_ofValue (e : ValueExpr) : (ofValue e).note = e.note := by cases e <;> rfl

end SymExpr

end Overapprox
