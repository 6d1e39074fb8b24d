import Overapprox.Proofs.Lattice.Joins
import Overapprox.Proofs.Lattice.States

/-!
# Environments where a condition holds

An environment judges a condition before the condition refines it, so the verdict tells what is left
of the environment where the condition holds. The types of identifiers never decide a condition,
and no condition refines them; they only tell that an operand has no type at all.

* `ValueEnv.assume_cases`: what is left.
* `ValueEnv.assume_of_satisfied`, `ValueEnv.isBottom_assume`, `ValueEnv.assume_of_unknown`: what is
  left for every verdict.
* `ValueDomain.LeavesOpen`: domains that judge nothing and refine nothing, such as type sets.
* `ValueDomain.LeavesOpen.satisfies_cases`, `ValueDomain.LeavesOpen.assume_eq_or_isBottom`: they
  decide no condition, and leave an environment as it is or nothing of it.
* `TypeEnv.assume_of_unknown`, `TypeEnv.isBottom_assume`, `TypeEnv.assume_le`: so an environment of
  types is left as it is, or nothing is left of it.
-/

namespace Overapprox

open AbstractLattice
open scoped LawfulLattice

variable {opts : Options} {e : ValueExpr}

/-! ## Value environments -/

namespace ValueEnv

variable {δ : Type} [BEq δ] [ValueDomain δ] {env : ValueEnv δ}

/-- The verdict of an environment that is not bottom is that of its domain. -/
theorem satisfies_of_not_isBottom (h : isBottom env = false) :
    env.satisfies opts e = ValueDomain.satisfies opts env e := by
  rw [satisfies, h]
  rfl

theorem isBottom_eq_false_of_satisfies (h : env.satisfies opts e ≠ .bottom) :
    isBottom env = false := by
  rw [Bool.eq_false_iff]
  exact fun hbottom => h (if_pos hbottom)

theorem assume_of_satisfied (h : env.satisfies opts e = .satisfied) :
    env.assume opts e = env := by
  unfold assume
  split
  case isTrue => rfl
  case isFalse hne =>
    rw [satisfies_of_not_isBottom (Bool.eq_false_iff.2 hne)] at h
    rw [h]

/-- Nothing is left of an environment where the condition does not hold in any state. -/
theorem isBottom_assume
    (h : env.satisfies opts e = .notSatisfied ∨ env.satisfies opts e = .bottom) :
    isBottom (env.assume opts e) = true := by
  unfold assume
  split
  case isTrue hbottom => exact hbottom
  case isFalse hne =>
    rw [satisfies_of_not_isBottom (Bool.eq_false_iff.2 hne)] at h
    rcases h with h | h
    · rw [h]
      rfl
    · rw [h]
      rfl

theorem assume_of_isBottom (h : isBottom env = true) : env.assume opts e = env := if_pos h

theorem assume_of_unknown (h : env.satisfies opts e = .unknown) :
    env.assume opts e = meet (ValueDomain.assume opts e env) env := by
  have hne : isBottom env = false :=
    isBottom_eq_false_of_satisfies fun hbottom => nomatch h.symm.trans hbottom
  rw [satisfies_of_not_isBottom hne] at h
  rw [assume, hne, h]
  rfl

/-- A condition that leaves something is satisfied or open. -/
theorem satisfied_or_unknown (h : isBottom (env.assume opts e) = false) :
    env.satisfies opts e = .satisfied ∨ env.satisfies opts e = .unknown := by
  cases hverdict : env.satisfies opts e with
  | satisfied => exact .inl rfl
  | unknown => exact .inr rfl
  | notSatisfied => exact absurd (isBottom_assume (.inl hverdict)) (Bool.eq_false_iff.1 h)
  | bottom => exact absurd (isBottom_assume (.inr hverdict)) (Bool.eq_false_iff.1 h)

/-- What is left of an environment is all of it, nothing, or what the condition refines. -/
theorem assume_cases {p : ValueEnv δ → Prop} (all : p env) (nothing : p bottom)
    (refined : isBottom env = false → env.satisfies opts e = .unknown →
      p (meet (ValueDomain.assume opts e env) env)) : p (env.assume opts e) := by
  unfold assume
  split
  case isTrue => exact all
  case isFalse hne =>
    rw [Bool.not_eq_true] at hne
    split
    case h_1 | h_2 => exact nothing
    case h_3 => exact all
    case h_4 h => exact refined hne ((satisfies_of_not_isBottom hne).trans h)

/-- Refining an environment by a condition never adds anything. -/
theorem assume_le [LawfulLattice δ] (opts : Options) (env : ValueEnv δ) (e : ValueExpr) :
    env.assume opts e ≤ env :=
  assume_cases (p := (· ≤ env)) le_rfl (le_of_isBottom rfl)
    fun _ _ => LawfulLattice.meet_le_right _ _

end ValueEnv

/-! ## Domains that leave conditions open -/

namespace ValueDomain

/-- The domain judges no node and refines nothing by one, as it is by default. -/
structure LeavesOpen (δ : Type) [BEq δ] [ValueDomain δ] : Prop where
  value (v : δ) : satisfiesValue v = .unknown
  null : satisfiesNull δ = .unknown
  const (c : Constant) : satisfiesConstant δ c = .unknown
  unary (op : UnaryOp) (v : δ) : satisfiesUnary op v = .unknown
  binary (op : BinaryOp) (v w : δ) : satisfiesBinary op v w = .unknown
  ternary (op : TernaryOp) (u v w : δ) : satisfiesTernary op u v w = .unknown
  refineUnary (eval : ValueEnv δ → ValueExpr → δ) (op : UnaryOp) (e : ValueExpr)
    (env : ValueEnv δ) : assumeUnary eval op e env = env
  refineBinary (eval : ValueEnv δ → ValueExpr → δ) (op : BinaryOp) (l r : ValueExpr)
    (env : ValueEnv δ) : assumeBinary eval op l r env = env
  refineTernary (eval : ValueEnv δ → ValueExpr → δ) (op : TernaryOp) (l m r : ValueExpr)
    (env : ValueEnv δ) : assumeTernary eval op l m r env = env

namespace LeavesOpen

variable {δ : Type} [BEq δ] [ValueDomain δ]

/-- A condition is left open unless an operand has no value. -/
theorem open_unless {v : Verdict} (hv : v = .unknown) (c : Bool) :
    (if c then .bottom else v) = .unknown ∨ (if c then .bottom else v) = Verdict.bottom := by
  cases c with
  | false => exact .inl hv
  | true => exact .inr rfl

/-- By induction on the condition, since connectives keep verdicts open. -/
theorem satisfies_cases (h : LeavesOpen δ) (opts : Options) (env : ValueEnv δ) (e : ValueExpr) :
    satisfies opts env e = .unknown ∨ satisfies opts env e = .bottom := by
  induction e with
  | const c a =>
    cases c with
    | null => exact .inl h.null
    | bool | int | str => exact .inl (h.const _)
  | ident => exact .inl (h.value _)
  | any | skip => exact .inl rfl
  | unary op e a ih =>
    cases op with
    | not => rcases ih with h | h <;> simp [satisfies, h, Verdict.negate]
    | neg | strlen => exact open_unless (h.unary _ _) _
  | binary op l r a ihl ihr =>
    cases op with
    | and =>
      rcases ihl with hl | hl <;> rcases ihr with hr | hr <;>
        simp [satisfies, hl, hr, Verdict.and]
    | or =>
      rcases ihl with hl | hl <;> rcases ihr with hr | hr <;>
        simp [satisfies, hl, hr, Verdict.or]
    | _ => exact open_unless (h.binary _ _ _) _
  | ternary op l m r a => exact open_unless (h.ternary _ _ _ _) _

/-- By induction on the condition. Both operands of a disjunction leave the environment as it is,
and so does their join. -/
theorem assumeWith_eq [ReflBEq δ] (h : LeavesOpen δ)
    {atNegation : ValueExpr → ValueEnv δ → ValueEnv δ}
    (hneg : ∀ e env, atNegation e env = env) (e : ValueExpr) (env : ValueEnv δ) :
    assumeWith opts atNegation e env = env := by
  induction e generalizing env with
  | const | ident | any | skip => rfl
  | ternary op l m r a => exact h.refineTernary _ op l m r env
  | unary op e a =>
    cases op with
    | not => exact hneg _ env
    | neg | strlen => exact h.refineUnary _ _ e env
  | binary op l r a ihl ihr =>
    cases op with
    | and => rw [assumeWith, ihl, ihr]
    | or =>
      rw [assumeWith, ihl, ihr]
      exact join_self env
    | _ => exact h.refineBinary _ _ l r env

/-- Refinement by any condition, negations and connectives included, changes nothing. -/
theorem assume_eq [ReflBEq δ] (h : LeavesOpen δ) (opts : Options) (e : ValueExpr)
    (env : ValueEnv δ) : assume opts e env = env := by
  have hnegation (e : ValueExpr) (env : ValueEnv δ) : assumeNegation opts e env = env := by
    cases e with
    | unary op e a => exact h.refineUnary _ op e env
    | _ => rfl
  refine h.assumeWith_eq (fun e env => ?_) e env
  dsimp only
  split
  · exact hnegation e env
  · exact h.assumeWith_eq hnegation _ env

/-- An open condition leaves an environment as it is. -/
theorem assume_of_unknown [ReflBEq δ] (h : LeavesOpen δ) {env : ValueEnv δ}
    (hopen : env.satisfies opts e = .unknown) : env.assume opts e = env := by
  rw [ValueEnv.assume_of_unknown hopen, h.assume_eq, meet_self]

/-- A condition leaves an environment as it is, or it leaves nothing. -/
theorem assume_eq_or_isBottom [ReflBEq δ] (h : LeavesOpen δ) (opts : Options) (env : ValueEnv δ)
    (e : ValueExpr) : env.assume opts e = env ∨ isBottom (env.assume opts e) = true :=
  ValueEnv.assume_cases (p := fun env' => env' = env ∨ isBottom env' = true) (.inl rfl) (.inr rfl)
    fun _ _ => .inl (by rw [h.assume_eq, meet_self])

end LeavesOpen

end ValueDomain

/-! ## Type sets -/

namespace InferredTypes

/-- Type sets say nothing about conditions. -/
theorem leavesOpen : ValueDomain.LeavesOpen InferredTypes where
  value _ := rfl
  null := rfl
  const _ := rfl
  unary _ _ := rfl
  binary _ _ _ := rfl
  ternary _ _ _ _ := rfl
  refineUnary _ _ _ _ := rfl
  refineBinary _ _ _ _ _ := rfl
  refineTernary _ _ _ _ _ _ := rfl

end InferredTypes

/-! ## Type environments -/

namespace TypeEnv

variable {t : TypeEnv}

/-- No condition is decided by types. It only has no verdict where an operand has no type. -/
theorem satisfies_cases (opts : Options) (t : TypeEnv) (e : ValueExpr) :
    t.satisfies opts e = .unknown ∨ t.satisfies opts e = .bottom := by
  unfold satisfies ValueEnv.satisfies
  split
  · exact .inr rfl
  · exact InferredTypes.leavesOpen.satisfies_cases opts t.env e

theorem assume_of_unknown (h : t.satisfies opts e = .unknown) : t.assume opts e = t := by
  have hne : isBottom t.env = false :=
    ValueEnv.isBottom_eq_false_of_satisfies fun hbottom => nomatch h.symm.trans hbottom
  rw [assume, InferredTypes.leavesOpen.assume_of_unknown h, if_neg (Bool.eq_false_iff.1 hne)]

theorem isBottom_assume (h : t.satisfies opts e = .bottom) : isBottom (t.assume opts e) = true := by
  have hbottom : isBottom (t.env.assume opts e) = true := ValueEnv.isBottom_assume (.inr h)
  rw [assume, if_pos hbottom]
  rfl

/-- A condition adds no types. -/
theorem assume_le (opts : Options) (t : TypeEnv) (e : ValueExpr) : t.assume opts e ≤ t := by
  rcases satisfies_cases opts t e with h | h
  · exact (assume_of_unknown h).le
  · exact le_of_isBottom (isBottom_assume h)

end TypeEnv

end Overapprox
