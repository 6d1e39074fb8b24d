import Overapprox.Domain.Basic
import Overapprox.Proofs.Expr.Negation

/-!
# Assuming a condition ends

A negation that is not in normal form yet is assumed by starting again with its normal form, which
may be a larger expression. It is not done twice: no part of a normal form restarts. So the size of
the normal form, increased as long as a restart is still to come, falls with every call.

* `ValueDomain.assume_eq_assumeNormal`: a condition is assumed through its normal form.
* `AssumeCalls`, `acc_assumeCalls`: the calls for the parts of a condition and for its normal form,
  of which there is no infinite chain.
* `ValueDomain.Assumes`, `ValueDomain.assumes_iff`: every condition has a run, and what it gives.
* `removeNegations_sound_and_assume_ends`: the removal of negations and the runs that use it.
-/

namespace Overapprox

open AbstractLattice

/-! ## Through the normal form -/

namespace ValueDomain

variable {δ : Type} [BEq δ] [ValueDomain δ] {opts : Options}

/-- By induction on the condition. A negation that is in normal form already stays as it is. -/
theorem assume_eq_assumeNormal (opts : Options) (e : ValueExpr) (env : ValueEnv δ) :
    assume opts e env = assumeNormal opts e.removeNegations env := by
  induction e generalizing env with
  | const | ident | any | skip | ternary => rfl
  | unary op e a =>
    cases op with
    | neg | strlen => rfl
    | not =>
      rw [assume_not]
      split
      case isTrue hnormal =>
        rw [ValueExpr.removeNegations_of_isNormal (ValueExpr.removeNegations_beq_iff.1 hnormal)]
        rfl
      case isFalse => rfl
  | binary op l r a ihl ihr =>
    cases op with
    | and =>
      show assume opts r (assume opts l env) = _
      rw [ihr, ihl]
      rfl
    | or =>
      show join (assume opts l env) (assume opts r env) = _
      rw [ihr, ihl]
      rfl
    | _ => rfl

/-- A condition may be brought into negation normal form before it is assumed. -/
theorem assume_removeNegations (opts : Options) (e : ValueExpr) (env : ValueEnv δ) :
    assume opts e.removeNegations env = assume opts e env := by
  rw [assume_eq_assumeNormal, assume_eq_assumeNormal, ValueExpr.removeNegations_removeNegations]

theorem assume_not_of_isNormal {e : ValueExpr} {a : Annotation}
    (h : ((ValueExpr.unary .not e a).removeNegations == .unary .not e a) = true)
    (env : ValueEnv δ) :
    assume opts (.unary .not e a) env = assumeUnary (eval opts) .not e env := by
  rw [assume_not, if_pos h]

end ValueDomain

/-! ## Calls -/

/-- What is assumed in order to assume a condition: the normal form of a negation that is not in
normal form, and the operands of a connective. -/
inductive AssumeCalls : ValueExpr → ValueExpr → Prop where
  | restart {e : ValueExpr} {a : Annotation} :
    ((ValueExpr.unary .not e a).removeNegations == .unary .not e a) = false →
      AssumeCalls (ValueExpr.unary .not e a).removeNegations (.unary .not e a)
  | left {op : BinaryOp} (l r : ValueExpr) (a : Annotation) :
    op.isLogical = true → AssumeCalls l (.binary op l r a)
  | right {op : BinaryOp} (l r : ValueExpr) (a : Annotation) :
    op.isLogical = true → AssumeCalls r (.binary op l r a)

/-- The number of nodes of an expression. -/
def ValueExpr.size : ValueExpr → Nat
  | .const .. | .ident .. | .any _ | .skip _ => 1
  | .unary _ e _ => e.size + 1
  | .binary _ l r _ => l.size + r.size + 1
  | .ternary _ l m r _ => l.size + m.size + r.size + 1

/-- The size of the normal form, and as long as a restart may come also that of the expression. -/
def ValueExpr.assumeSize (e : ValueExpr) : Nat :=
  e.removeNegations.size + if e.removeNegations = e then 0 else e.size

theorem ValueExpr.assumeSize_removeNegations (e : ValueExpr) :
    e.removeNegations.assumeSize = e.removeNegations.size := by
  rw [assumeSize, removeNegations_removeNegations, if_pos rfl, Nat.add_zero]

theorem ValueExpr.assumeSize_operands {op : BinaryOp} (hop : op.isLogical = true)
    (l r : ValueExpr) (a : Annotation) :
    l.assumeSize < (binary op l r a).assumeSize ∧ r.assumeSize < (binary op l r a).assumeSize := by
  have hnormal : (binary op l r a).removeNegations =
      binary op l.removeNegations r.removeNegations a := by
    rw [removeNegations, if_pos hop]
  have hparts : binary op l.removeNegations r.removeNegations a = binary op l r a ↔
      l.removeNegations = l ∧ r.removeNegations = r := by
    simp only [binary.injEq, true_and, and_true]
  simp only [assumeSize, hnormal, hparts, size]
  by_cases hl : l.removeNegations = l <;> by_cases hr : r.removeNegations = r <;>
    simp only [hl, hr, and_self, and_false, false_and, if_true, if_false] <;> omega

/-- Assuming a condition only leads to assuming smaller ones, negation normal forms included. -/
theorem AssumeCalls.assumeSize_lt {callee caller : ValueExpr} (h : AssumeCalls callee caller) :
    callee.assumeSize < caller.assumeSize := by
  cases h with
  | @restart e a hrestart =>
    have hne : (ValueExpr.unary .not e a).removeNegations ≠ .unary .not e a := by
      intro heq
      rw [heq, BEq.refl] at hrestart
      cases hrestart
    rw [ValueExpr.assumeSize_removeNegations, ValueExpr.assumeSize, if_neg hne,
      ValueExpr.size]
    omega
  | left _ _ _ hop => exact (ValueExpr.assumeSize_operands hop _ _ _).1
  | right _ _ _ hop => exact (ValueExpr.assumeSize_operands hop _ _ _).2

theorem acc_assumeCalls (e : ValueExpr) : Acc AssumeCalls e :=
  (Subrelation.wf AssumeCalls.assumeSize_lt (measure ValueExpr.assumeSize).wf).apply e

/-! ## Runs -/

namespace ValueDomain

variable {δ : Type} [BEq δ] [ValueDomain δ] {opts : Options} {e : ValueExpr}
  {env env' : ValueEnv δ}

/-- A run that assumes a condition in an environment and ends with another one. -/
inductive Assumes (opts : Options) : ValueExpr → ValueEnv δ → ValueEnv δ → Prop where
  | restart {e : ValueExpr} {a : Annotation} {env env' : ValueEnv δ} :
    ((ValueExpr.unary .not e a).removeNegations == .unary .not e a) = false →
      Assumes opts (ValueExpr.unary .not e a).removeNegations env env' →
      Assumes opts (.unary .not e a) env env'
  | not {e : ValueExpr} {a : Annotation} (env : ValueEnv δ) :
    ((ValueExpr.unary .not e a).removeNegations == .unary .not e a) = true →
      Assumes opts (.unary .not e a) env (assumeUnary (eval opts) .not e env)
  | unary {op : UnaryOp} (e : ValueExpr) (a : Annotation) (env : ValueEnv δ) :
    op ≠ .not → Assumes opts (.unary op e a) env (assumeUnary (eval opts) op e env)
  | and {l r : ValueExpr} (a : Annotation) {env mid env' : ValueEnv δ} :
    Assumes opts l env mid → Assumes opts r mid env' → Assumes opts (.binary .and l r a) env env'
  | or {l r : ValueExpr} (a : Annotation) {env left right : ValueEnv δ} :
    Assumes opts l env left → Assumes opts r env right →
      Assumes opts (.binary .or l r a) env (join left right)
  | binary {op : BinaryOp} (l r : ValueExpr) (a : Annotation) (env : ValueEnv δ) :
    op.isLogical = false →
      Assumes opts (.binary op l r a) env (assumeBinary (eval opts) op l r env)
  | ternary (op : TernaryOp) (l m r : ValueExpr) (a : Annotation) (env : ValueEnv δ) :
    Assumes opts (.ternary op l m r a) env (assumeTernary (eval opts) op l m r env)
  | const (c : Constant) (a : Annotation) (env : ValueEnv δ) : Assumes opts (.const c a) env env
  | ident (x : Identifier) (a : Annotation) (env : ValueEnv δ) : Assumes opts (.ident x a) env env
  | any (a : Annotation) (env : ValueEnv δ) : Assumes opts (.any a) env env
  | skip (a : Annotation) (env : ValueEnv δ) : Assumes opts (.skip a) env env

/-- Following the recursion by its rules gives what the recursion computes. -/
theorem Assumes.eq_assume (h : Assumes opts e env env') : env' = assume opts e env := by
  induction h with
  | restart _ _ ih => rw [ih, assume_removeNegations]
  | not env hnormal => rw [assume_not_of_isNormal hnormal]
  | @unary op _ _ _ hop =>
    cases op with
    | not => exact absurd rfl hop
    | neg | strlen => rfl
  | and _ _ _ ihl ihr =>
    rw [ihr, ihl]
    rfl
  | or _ _ _ ihl ihr =>
    rw [ihr, ihl]
    rfl
  | @binary op _ _ _ _ hop => cases op <;> first | rfl | cases hop
  | ternary | const | ident | any | skip => rfl

/-- By induction on the calls. -/
theorem assumes_assume (opts : Options) (e : ValueExpr) (env : ValueEnv δ) :
    Assumes opts e env (assume opts e env) := by
  induction acc_assumeCalls e generalizing env with
  | intro e _ ih =>
    cases e with
    | const c a => exact .const c a env
    | ident x a => exact .ident x a env
    | any a => exact .any a env
    | skip a => exact .skip a env
    | ternary op l m r a => exact .ternary op l m r a env
    | unary op e a =>
      cases op with
      | neg | strlen => exact .unary e a env nofun
      | not =>
        cases h : (ValueExpr.unary .not e a).removeNegations == .unary .not e a with
        | true =>
          rw [assume_not_of_isNormal h]
          exact .not env h
        | false =>
          -- The normal form is assumed instead, which is a call of its own.
          rw [← assume_removeNegations]
          exact .restart h (ih _ (.restart h) env)
    | binary op l r a =>
      cases op with
      | and => exact .and a (ih l (.left l r a rfl) env) (ih r (.right l r a rfl) _)
      | or => exact .or a (ih l (.left l r a rfl) env) (ih r (.right l r a rfl) env)
      | _ => exact .binary l r a env rfl

/-- Every condition has a run, with one result. -/
theorem assumes_iff : Assumes opts e env env' ↔ env' = assume opts e env := by
  constructor
  · exact Assumes.eq_assume
  · rintro rfl
    exact assumes_assume opts e env

end ValueDomain

/-! ## The removal of negations -/

/-- The steps that remove the negations of a condition end with its normal form. What the condition
may be under a store the normal form may be too, and nothing else; a normal form is left as it is,
and no conjunct or disjunct of it negates a comparison, a connective or a negation. In every domain
the calls that assume a condition end, and with them its only run. -/
theorem removeNegations_sound_and_assume_ends (e : ValueExpr) :
    (∀ n, e.Removes n ↔ n = e.removeNegations) ∧
    (∀ (s : Valuation) (truth : ValueExpr → Bool → Prop) (b : Bool),
      CanBe (AtomIs s truth) e b ↔ CanBe (AtomIs s truth) e.removeNegations b) ∧
    e.removeNegations.removeNegations = e.removeNegations ∧
    (∀ f a, (ValueExpr.unary .not f a).JunctOf e.removeNegations →
      f.isComparison = false ∧ f.isConnective = false) ∧
    Acc AssumeCalls e ∧
    ∀ (δ : Type) [BEq δ] [ValueDomain δ] (opts : Options) (env env' : ValueEnv δ),
      ValueDomain.Assumes opts e env env' ↔ env' = ValueDomain.assume opts e env := by
  refine ⟨fun _ => ValueExpr.removes_iff, fun s truth b => (canBe_removeNegations_iff e b).symm,
    ValueExpr.removeNegations_removeNegations e, ValueExpr.isNormal_removeNegations e,
    acc_assumeCalls e, ?_⟩
  intro δ _ _ opts env env'
  exact ValueDomain.assumes_iff

end Overapprox
