import Overapprox.Expr.Negation
import Overapprox.Proofs.Order.Identity

/-!
# The identifiers that an expression reads

An expression mentions the identifiers at its leaves, up to annotations. The target of a pointer is
part of the name of the pointer and is not read with it.

* `ValueExpr.mentions`, `SymExpr.mentions`: whether an identifier is read.
* `ValueExpr.mentions_withRuntimeTypes`: annotations do not matter.
* `ValueExpr.mentions_removeNegations`: a normal form reads what the expression reads.
* `ValueExpr.targets`: the identifiers that a condition refines, which it reads.
-/

namespace Overapprox

namespace Identifier

/-- Annotating an identifier with other types does not change which identifier it is. -/
theorem withRuntimeTypes_beq (id : Identifier) (ts : TypeSet) (x : Identifier) :
    (id.withRuntimeTypes ts == x) = (id == x) := by
  cases id <;> cases x <;> rfl

@[simp] theorem runtimeTypes_withRuntimeTypes (id : Identifier) (ts : TypeSet) :
    (id.withRuntimeTypes ts).runtimeTypes = ts := by
  cases id <;> rfl

@[simp] theorem isWeak_withRuntimeTypes (id : Identifier) (ts : TypeSet) :
    (id.withRuntimeTypes ts).isWeak = id.isWeak := by
  cases id <;> rfl

theorem isWeak_eq_of_beq {a b : Identifier} (h : (a == b) = true) : a.isWeak = b.isWeak := by
  change a.same b = true at h
  induction a generalizing b with
  | heap v n _ =>
    cases b with
    | heap w m _ => exact eq_of_beq (Bool.and_eq_true_iff.1 h).1
    | _ => cases h
  | outOfScope s i _ ih =>
    cases b with
    | outOfScope t j _ => exact ih (b := j) (Bool.and_eq_true_iff.1 h).2
    | _ => cases h
  | var | pointer => cases b <;> first | rfl | cases h

/-- Whether an identifier is a location that summarizes others, in no scope of a call. -/
def isSummary : Identifier → Bool
  | heap weak _ _ => weak
  | _ => false

theorem isSummary_eq_false_of_isWeak {x : Identifier} (h : x.isWeak = false) :
    x.isSummary = false := by
  cases x with
  | heap => exact h
  | _ => rfl

theorem isSummary_eq_of_beq {a b : Identifier} (h : (a == b) = true) :
    a.isSummary = b.isSummary := by
  change a.same b = true at h
  cases a with
  | heap v n _ =>
    cases b with
    | heap w m _ => exact eq_of_beq (Bool.and_eq_true_iff.1 h).1
    | _ => cases h
  | _ => cases b <;> first | rfl | cases h

theorem isPointer_eq_of_beq {a b : Identifier} (h : (a == b) = true) :
    a.isPointer = b.isPointer := by
  change a.same b = true at h
  cases a <;> cases b <;> first | rfl | cases h

end Identifier

/-- Whether an expression reads an identifier. -/
def ValueExpr.mentions (x : Identifier) : ValueExpr → Bool
  | .const .. => false
  | .ident id _ => id == x
  | .any _ => false
  | .skip _ => false
  | .unary _ e _ => e.mentions x
  | .binary _ l r _ => l.mentions x || r.mentions x
  | .ternary _ l m r _ => l.mentions x || m.mentions x || r.mentions x

/-- Expressions mention equal identifiers alike. -/
theorem ValueExpr.mentions_congr {x y : Identifier} (h : (x == y) = true) (e : ValueExpr) :
    e.mentions x = e.mentions y := by
  induction e with
  | const | any | skip => rfl
  | ident id a => exact BEq.congr_right h
  | unary op e a ih => exact ih
  | binary op l r a ihl ihr => rw [mentions, ihl, ihr, mentions]
  | ternary op l m r a ihl ihm ihr => rw [mentions, ihl, ihm, ihr, mentions]

theorem ValueExpr.mentions_withRuntimeTypes (x : Identifier) (e : ValueExpr) (ts : TypeSet) :
    (e.withRuntimeTypes ts).mentions x = e.mentions x := by
  cases e with
  | ident id a => exact id.withRuntimeTypes_beq ts x
  | _ => rfl

/-- By induction on the expression, for its normal form and that of its negation together. -/
theorem ValueExpr.mentions_removeNegations (x : Identifier) (e : ValueExpr) :
    e.removeNegations.mentions x = e.mentions x ∧
      ∀ a, (e.negation a).mentions x = e.mentions x := by
  induction e with
  | const | ident | any | skip | ternary => exact ⟨rfl, fun _ => rfl⟩
  | unary op e b ih =>
    cases op with
    | not => exact ⟨ih.2 b, fun _ => ih.1⟩
    | neg | strlen => exact ⟨rfl, fun _ => rfl⟩
  | binary op l r b ihl ihr =>
    refine ⟨?_, fun a => ?_⟩
    · rw [removeNegations]
      split
      · rw [mentions, ihl.1, ihr.1, mentions]
      · rfl
    · rw [negation]
      split
      · rfl
      · split
        · rw [mentions, ihl.2, ihr.2, mentions]
        · rfl

/-- Whether a comparison refines an operand: every one does but `!=`. -/
def BinaryOp.refines : BinaryOp → Bool
  | eq | lt | le | gt | ge => true
  | _ => false

theorem BinaryOp.refines_converse (op : BinaryOp) : op.converse.refines = op.refines := by
  cases op <;> rfl

/-- The identifiers that a condition in normal form refines: of every comparison that refines an
operand the left one, or the right one where the left one is no identifier. -/
def ValueExpr.compared : ValueExpr → List Identifier
  | .binary op l r _ =>
    if op.isLogical then l.compared ++ r.compared
    else if op.refines then (l.identifier?.or r.identifier?).toList
    else []
  | _ => []

/-- The identifiers that a condition refines once its negations are removed. -/
def ValueExpr.targets (e : ValueExpr) : List Identifier := e.removeNegations.compared

theorem ValueExpr.mentions_identifier {x : Identifier} {e : ValueExpr}
    (h : e.identifier? = some x) : e.mentions x = true := by
  cases e with
  | ident i a =>
    cases h
    exact BEq.refl _
  | _ => cases h

/-- A condition only compares identifiers that it mentions. -/
theorem ValueExpr.mentions_of_mem_compared {x : Identifier} {e : ValueExpr} (h : x ∈ e.compared) :
    e.mentions x = true := by
  induction e with
  | const | ident | any | skip | unary | ternary => cases h
  | binary op l r a ihl ihr =>
    rw [mentions, Bool.or_eq_true]
    rw [compared] at h
    split at h
    · exact (List.mem_append.1 h).imp ihl ihr
    · split at h
      · rw [Option.mem_toList, Option.or_eq_some_iff] at h
        exact h.imp mentions_identifier fun h => mentions_identifier h.2
      · cases h

/-- A condition only refines identifiers that it mentions. -/
theorem ValueExpr.mentions_of_mem_targets {x : Identifier} {e : ValueExpr} (h : x ∈ e.targets) :
    e.mentions x = true := by
  rw [← (mentions_removeNegations x e).1]
  exact mentions_of_mem_compared h

@[simp] theorem ValueExpr.runtimeTypes_withRuntimeTypes (e : ValueExpr) (ts : TypeSet) :
    (e.withRuntimeTypes ts).runtimeTypes = ts := by
  cases e <;> rfl

/-- Whether an expression reads an identifier. -/
def SymExpr.mentions (x : Identifier) : SymExpr → Bool
  | .const .. => false
  | .ident id _ => id == x
  | .any _ => false
  | .skip _ => false
  | .unary _ e _ => e.mentions x
  | .binary _ l r _ => l.mentions x || r.mentions x
  | .ternary _ l m r _ => l.mentions x || m.mentions x || r.mentions x
  | .child c e _ => c.mentions x || e.mentions x
  | .alloc _ => false
  | .ref e _ => e.mentions x
  | .deref e _ => e.mentions x

end Overapprox
