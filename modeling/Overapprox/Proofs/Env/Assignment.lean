import Overapprox.Proofs.Expr.Mentions
import Overapprox.Proofs.Lattice.States

/-!
# Assignments to identifiers

An assignment of plain values binds the identifier. What a strong identifier is bound to then comes
from the expression alone, so it is the same whether or not the old binding was forgotten before,
provided the expression does not read the identifier.

* `ValueEnv.eval_congr`: evaluating where the identifiers that are read have the same values.
* `ValueEnv.get_bind`, `ValueEnv.get_bind_of_ne`: reading after a value was bound.
* `ValueEnv.get_assign`: the value of a strong identifier after an assignment.
* `TypeEnv.runtimeTypes_assign_forget`: the types that are inferred for an assignment.
-/

namespace Overapprox

open AbstractLattice
open scoped LawfulLattice

variable {opts : Options} {x : Identifier} {e : ValueExpr}

theorem Identifier.compare_withRuntimeTypes (id : Identifier) (ts : TypeSet) :
    compare (id.withRuntimeTypes ts) id = .eq :=
  Std.LawfulBEqOrd.compare_eq_iff_beq.2 ((id.withRuntimeTypes_beq ts id).trans (BEq.refl id))

namespace ValueEnv

variable {δ : Type} [BEq δ] [ValueDomain δ] {env : ValueEnv δ}

theorem isBottom_forget (env : ValueEnv δ) (x : Identifier) :
    isBottom (env.forget x) = isBottom env := by
  obtain ⟨f⟩ := env
  cases f <;> rfl

theorem get_forget_self (hne : isBottom env = false) : (env.forget x).get x = top :=
  Pointwise.get_forget_self x (function_ne_bottom hne)

theorem get_put_of_eq (env : ValueEnv δ) {x y : Identifier} (h : compare y x = .eq) (v : δ) :
    (env.put x v).get y = v :=
  (Pointwise.get_congr _ h).trans (get_put_self env x v)

/-- Binding an identifier leaves the values of the others alone, unless no state is left. -/
theorem get_bind_of_ne {id other : Identifier} {v : δ} (h : compare other id ≠ .eq)
    (hne : isBottom env = false) (hbind : isBottom (env.bind id v) = false) :
    (env.bind id v).get other = env.get other := by
  unfold bind at hbind ⊢
  generalize (if id.isWeak && env.function.contains id then join (env.get id) v else v) = u
    at hbind ⊢
  dsimp only at hbind ⊢
  split at hbind
  case isTrue => cases hbind
  case isFalse hu =>
    rw [if_neg hu]
    exact get_put_of_ne u h (function_ne_bottom hne)

/-- The value of an expression depends on nothing but the values of what it reads. -/
theorem eval_congr {a b : ValueEnv δ} (h : ∀ x, e.mentions x = true → a.get x = b.get x) :
    ValueDomain.eval opts a e = ValueDomain.eval opts b e := by
  induction e with
  | const c _ => cases c <;> rfl
  | any | skip => rfl
  | ident id _ => rw [ValueDomain.eval, h id (BEq.refl id), ValueDomain.eval]
  | unary op e _ ih => rw [ValueDomain.eval, ih h, ValueDomain.eval]
  | binary op l r _ ihl ihr =>
    have hl := ihl fun x hx => h x (by rw [ValueExpr.mentions, hx, Bool.true_or])
    have hr := ihr fun x hx => h x (by rw [ValueExpr.mentions, hx, Bool.or_true])
    rw [ValueDomain.eval, hl, hr, ValueDomain.eval]
  | ternary op l m r _ ihl ihm ihr =>
    have hl := ihl fun x hx => h x (by rw [ValueExpr.mentions, hx, Bool.true_or, Bool.true_or])
    have hm := ihm fun x hx => h x (by rw [ValueExpr.mentions, hx, Bool.or_true, Bool.true_or])
    have hr := ihr fun x hx => h x (by rw [ValueExpr.mentions, hx, Bool.or_true])
    rw [ValueDomain.eval, hl, hm, hr, ValueDomain.eval]

/-- Forgetting an identifier does not change the value of an expression that does not read it. -/
theorem eval_forget (h : e.mentions x = false) (env : ValueEnv δ) :
    ValueDomain.eval opts (env.forget x) e = ValueDomain.eval opts env e := by
  refine eval_congr fun y hy => Pointwise.get_forget_of_ne _ fun heq => ?_
  have hsame := ValueExpr.mentions_congr (Std.LawfulBEqOrd.compare_eq_iff_beq.1 heq) e
  rw [h, hy] at hsame
  cases hsame

end ValueEnv

/-! ## Intervals -/

namespace Interval

/-- Whether the assignment of an expression to an identifier is followed: either side may have other
values than pointers and heap objects. -/
def follows (id : Identifier) (e : ValueExpr) : Bool :=
  ValueDomain.tracks Interval id && e.hasPlainValues

theorem follows_withRuntimeTypes (id : Identifier) (e : ValueExpr) (ts : TypeSet) :
    follows (id.withRuntimeTypes ts) (e.withRuntimeTypes ts) = ts.hasPlainValues := by
  show ((id.withRuntimeTypes ts).runtimeTypes.hasPlainValues &&
    (e.withRuntimeTypes ts).runtimeTypes.hasPlainValues) = _
  rw [id.runtimeTypes_withRuntimeTypes, e.runtimeTypes_withRuntimeTypes, Bool.and_self]

theorem eq_bottom_of_isBottom {v : Interval} (h : isBottom v = true) : v = bottom := by
  cases v with
  | bottom => rfl
  | range => cases h

/-- Intervals are evaluated without a look at types. -/
theorem eval_withRuntimeTypes (env : ValueEnv Interval) (e : ValueExpr) (ts : TypeSet) :
    ValueDomain.eval opts env (e.withRuntimeTypes ts) = ValueDomain.eval opts env e := by
  cases e with
  | ident id a =>
    exact Pointwise.get_congr env.function (id.compare_withRuntimeTypes ts)
  | const c a => cases c <;> rfl
  | _ => rfl

end Interval

namespace ValueEnv

variable {env : ValueEnv Interval}

theorem get_bind (env : ValueEnv Interval) (id : Identifier) (v : Interval) :
    (env.bind id v).get id =
      if id.isWeak && env.function.contains id then join (env.get id) v else v := by
  unfold bind
  generalize (if id.isWeak && env.function.contains id then join (env.get id) v else v) = u
  dsimp only
  split
  case isTrue hbottom =>
    rw [Interval.eq_bottom_of_isBottom hbottom]
    rfl
  case isFalse => exact get_put_self env id u

/-- An assignment binds the value of the expression, or it is ignored. -/
theorem assign_eq (hne : isBottom env = false) (id : Identifier) (e : ValueExpr) :
    env.assign opts id e =
      if Interval.follows id e then env.bind id (ValueDomain.eval opts env e) else env := by
  rw [assign, hne, Bool.false_or, ← Bool.not_and, ← Interval.follows]
  cases Interval.follows id e <;> rfl

/-- A strong identifier has the value that is assigned to it, unless the assignment is ignored. -/
theorem get_assign (hne : isBottom env = false) (hx : x.isWeak = false) (e : ValueExpr) :
    (env.assign opts x e).get x =
      if Interval.follows x e then ValueDomain.eval opts env e else env.get x := by
  rw [assign_eq hne]
  split
  · rw [get_bind, hx, Bool.false_and, if_neg Bool.false_ne_true]
  · rfl

end ValueEnv

/-! ## Types -/

namespace TypeEnv

/-- The types that are inferred for an assignment do not depend on those of the identifier. -/
theorem runtimeTypes_assign_forget (h : e.mentions x = false) (t : TypeEnv) :
    ((t.forget x).assign opts x e).runtimeTypes = (t.assign opts x e).runtimeTypes := by
  have hbottom : isBottom (t.forget x) = isBottom t := t.env.isBottom_forget x
  rw [assign, assign, hbottom]
  split
  · rfl
  · exact congrArg InferredTypes.runtimeTypes (ValueEnv.eval_forget h t.env)

end TypeEnv

end Overapprox
