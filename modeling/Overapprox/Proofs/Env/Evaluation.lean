import Overapprox.Proofs.Lattice.States

/-!
# Evaluation in larger environments

Where the operators of a domain keep the order, the value of an expression grows with the values of
the identifiers that occur in it. A domain may give an identifier another value than the one it is
bound to, so the identifiers are compared by the values that they are given.

* `ValueExpr.OccursIn`: the parts of an expression.
* `ValueDomain.isBottom_eval_of_occursIn`: a part without a value leaves none to the whole.
* `ValueDomain.MonotoneOperators`: operators that keep the order.
* `ValueDomain.MonotoneOperators.eval_le_eval`: the comparison of two environments.
-/

namespace Overapprox

open AbstractLattice
open scoped LawfulLattice

/-! ## Parts of expressions -/

/-- `p` is an expression or a part of it. -/
inductive ValueExpr.OccursIn (p : ValueExpr) : ValueExpr → Prop where
  | self : OccursIn p p
  | operand {op e a} : OccursIn p e → OccursIn p (.unary op e a)
  | left {op l r a} : OccursIn p l → OccursIn p (.binary op l r a)
  | right {op l r a} : OccursIn p r → OccursIn p (.binary op l r a)
  | first {op l m r a} : OccursIn p l → OccursIn p (.ternary op l m r a)
  | second {op l m r a} : OccursIn p m → OccursIn p (.ternary op l m r a)
  | third {op l m r a} : OccursIn p r → OccursIn p (.ternary op l m r a)

theorem ValueExpr.OccursIn.trans {p q e : ValueExpr} (hpq : p.OccursIn q) (hqe : q.OccursIn e) :
    p.OccursIn e := by
  induction hqe with
  | self => exact hpq
  | operand _ ih => exact .operand ih
  | left _ ih => exact .left ih
  | right _ ih => exact .right ih
  | first _ ih => exact .first ih
  | second _ ih => exact .second ih
  | third _ ih => exact .third ih

/-! ## Operators -/

namespace ValueDomain

variable {δ : Type} [BEq δ] [ValueDomain δ]

/-- The operators keep the order of operands that have values. -/
structure MonotoneOperators (δ : Type) [BEq δ] [ValueDomain δ] (opts : Options) : Prop where
  unary {v v' : δ} (op : UnaryOp) : v ≤ v' → isBottom v = false →
    evalUnary op v ≤ evalUnary op v'
  binary {v v' w w' : δ} (op : BinaryOp) : v ≤ v' → w ≤ w' → isBottom v = false →
    isBottom w = false → evalBinary opts op v w ≤ evalBinary opts op v' w'
  ternary {u u' v v' w w' : δ} (op : TernaryOp) : u ≤ u' → v ≤ v' → w ≤ w' →
    isBottom u = false → isBottom v = false → isBottom w = false →
    evalTernary op u v w ≤ evalTernary op u' v' w'

variable [LawfulLattice δ] {opts : Options} {a b : ValueEnv δ}

/-- Operators are strict: a part without a value leaves none to the whole expression. -/
theorem isBottom_eval_of_occursIn {p e : ValueExpr} (hocc : p.OccursIn e)
    (hp : isBottom (eval opts a p) = true) : isBottom (eval opts a e) = true := by
  induction hocc with
  | self => exact hp
  | operand _ ih => rwa [eval, if_pos ih]
  | left _ ih => rwa [eval, if_pos ih]
  | right _ ih =>
    rw [eval, if_pos ih]
    split
    case isTrue hl => exact hl
    case isFalse => exact ih
  | first _ ih | second _ ih | third _ ih =>
    rw [eval, if_pos (by simp [ih])]
    exact LawfulLattice.isBottom_bottom

/-- By induction on the expression. An operand without a value leaves none to the smaller result,
and what has a value in the smaller environment has one in the larger. -/
theorem MonotoneOperators.eval_le_eval (hops : MonotoneOperators δ opts) {e : ValueExpr}
    (h : ∀ x note, (ValueExpr.ident x note).OccursIn e →
      evalIdentifier x (a.get x) ≤ evalIdentifier x (b.get x)) :
    eval opts a e ≤ eval opts b e := by
  induction e with
  | const c _ => cases c <;> exact le_rfl
  | any | skip => exact le_rfl
  | ident x note => exact h x note .self
  | unary op e _ ih =>
    have he := ih fun x note hx => h x note (.operand hx)
    rw [eval, eval]
    split
    case isTrue hbottom => exact le_of_isBottom hbottom
    case isFalse hne =>
      rw [Bool.not_eq_true] at hne
      have hne' := LawfulLattice.isBottom_eq_false_of_le he hne
      rw [if_neg (Bool.eq_false_iff.1 hne')]
      exact hops.unary op he hne
  | binary op l r _ ihl ihr =>
    have hl := ihl fun x note hx => h x note (.left hx)
    have hr := ihr fun x note hx => h x note (.right hx)
    rw [eval, eval]
    split
    case isTrue hbottom => exact le_of_isBottom hbottom
    case isFalse hlne =>
      split
      case isTrue hbottom => exact le_of_isBottom hbottom
      case isFalse hrne =>
        rw [Bool.not_eq_true] at hlne hrne
        have hlne' := LawfulLattice.isBottom_eq_false_of_le hl hlne
        have hrne' := LawfulLattice.isBottom_eq_false_of_le hr hrne
        rw [if_neg (Bool.eq_false_iff.1 hlne'), if_neg (Bool.eq_false_iff.1 hrne')]
        exact hops.binary op hl hr hlne hrne
  | ternary op l m r _ ihl ihm ihr =>
    have hl := ihl fun x note hx => h x note (.first hx)
    have hm := ihm fun x note hx => h x note (.second hx)
    have hr := ihr fun x note hx => h x note (.third hx)
    rw [eval, eval]
    split
    case isTrue => exact le_of_isBottom LawfulLattice.isBottom_bottom
    case isFalse hne =>
      -- The three operands are tested at once, unlike those of a binary operator.
      simp only [Bool.or_eq_true, not_or, Bool.not_eq_true] at hne
      obtain ⟨⟨hlne, hmne⟩, hrne⟩ := hne
      have hlne' := LawfulLattice.isBottom_eq_false_of_le hl hlne
      have hmne' := LawfulLattice.isBottom_eq_false_of_le hm hmne
      have hrne' := LawfulLattice.isBottom_eq_false_of_le hr hrne
      rw [hlne', hmne', hrne', Bool.or_self, Bool.or_self, if_neg Bool.false_ne_true]
      exact hops.ternary op hl hm hr hlne hmne hrne

end ValueDomain

end Overapprox
