import Overapprox.Proofs.Env.Assumption
import Overapprox.Proofs.Expr.Mentions
import Overapprox.Proofs.Interval.Regular

/-!
# What a condition may do to an environment

A condition that is assumed binds the identifiers that it refines, to what a comparison with a value
of the environment leaves of them. It empties the environment where there is no such value, and
joins what the operands of a disjunction leave. What these steps keep, every condition keeps.

* `Interval.refine_cases`: what the comparison of an identifier with a value may do.
* `Interval.assumeNormal_invariant`, `Interval.assume_invariant`: what every condition keeps.
-/

namespace Overapprox

open AbstractLattice

namespace Interval

variable {opts : Options} {env : ValueEnv Interval} {x : Identifier} {op : BinaryOp}
  {v : Interval} {e l r : ValueExpr}

/-- The comparison with a value empties every environment, does nothing, or binds the identifier.
What it is bound to is not bottom, and regular where the value is. -/
theorem refine_cases {p : (ValueEnv Interval → ValueEnv Interval) → Prop}
    (empty : p fun _ => AbstractLattice.bottom) (same : p fun env => env)
    (put : op.refines = true → ∀ w, isBottom v = false → isBottom w = false →
      (v.IsRegular → w.IsRegular) → p fun env => env.put x w) :
    p (refine op x v) := by
  cases v with
  | bottom => exact empty
  | range b =>
    have hput (hop : op.refines = true) {low high : Extended} (f : Int → Int) (hle : low ≤ high)
        (hf : ∀ n, b.contains (.finite n) = true → low ≤ .finite (f n) ∧ .finite (f n) ≤ high) :
        p fun env => env.put x (ofBounds low high) := by
      refine put hop _ rfl (by rw [ofBounds_of_le hle]; rfl) fun hregular => ?_
      obtain ⟨n, hn⟩ := isRegular_iff.1 hregular
      exact isRegular_of_mem (mem_ofBounds.2 (hf n (mem_range.1 hn)))
    -- A lower bound of the value that restricts nothing leaves the environment as it is.
    have hlower (hop : op.refines = true) {low : Extended} (f : Int → Int)
        (hf : ∀ n, b.contains (.finite n) = true → low ≤ .finite (f n))
        (heq : ∀ env, refine op x (range b) env =
          if b.low = .negInf then env else env.put x (ofBounds low .posInf)) :
        p (refine op x (range b)) := by
      rw [funext heq]
      by_cases hlow : b.low = .negInf
      · simp only [if_pos hlow]
        exact same
      · simp only [if_neg hlow]
        exact hput hop f (Extended.le_posInf _) fun n hn => ⟨hf n hn, Extended.le_posInf _⟩
    cases op with
    | eq => exact put rfl _ rfl rfl id
    | ge => exact hlower rfl (fun n => n) (fun n hn => (Bounds.contains_iff.1 hn).1) fun _ => rfl
    | gt =>
      refine hlower rfl (· + 1) (fun n hn => ?_) fun _ => rfl
      exact Extended.add_le_add (Bounds.contains_iff.1 hn).1 (Extended.le_refl 1)
    | le =>
      exact hput rfl (fun n => n) (Extended.negInf_le _) fun n hn =>
        ⟨Extended.negInf_le _, (Bounds.contains_iff.1 hn).2⟩
    | lt =>
      show p fun env =>
        env.put x (if b.low = .negInf then range b else ofBounds .negInf (b.high - 1))
      split
      · exact put rfl _ rfl rfl id
      · refine hput rfl (· - 1) (Extended.negInf_le _) fun n hn => ⟨Extended.negInf_le _, ?_⟩
        exact Extended.sub_le_sub (Bounds.contains_iff.1 hn).2 (Extended.le_refl 1)
    | ne | add | sub | mul | div | rem | and | or | concat => exact same

/-- A comparison refines the identifier on one side, if there is one, by the value of the other
side. -/
theorem assumeComparison_eq (opts : Options) (op : BinaryOp) (l r : ValueExpr) :
    (∀ env, assumeComparison (ValueDomain.eval opts) op l r env = env) ∨
    ∃ side x e, side.refines = op.refines ∧ l.identifier?.or r.identifier? = some x ∧
      (e = l ∨ e = r) ∧ ∀ env, assumeComparison (ValueDomain.eval opts) op l r env =
        refine side x (ValueDomain.eval opts env e) env := by
  unfold assumeComparison
  cases hl : l.identifier? with
  | some x => exact .inr ⟨op, x, r, rfl, rfl, .inr rfl, fun _ => rfl⟩
  | none =>
    cases hr : r.identifier? with
    | some x =>
      exact .inr ⟨op.converse, x, l, op.refines_converse, rfl, .inl rfl, fun _ => rfl⟩
    | none => exact .inl fun _ => rfl

/-- What a comparison does to an environment: it empties it, does nothing, or binds the operand that
it refines. -/
theorem assumeComparison_cases {p : ValueEnv Interval → Prop} (empty : p AbstractLattice.bottom)
    (same : p env)
    (put : op.refines = true → ∀ x (e : ValueExpr) w, l.identifier?.or r.identifier? = some x →
      isBottom (ValueDomain.eval opts env e) = false → isBottom w = false →
      ((ValueDomain.eval opts env e).IsRegular → w.IsRegular) → p (env.put x w)) :
    p (assumeComparison (ValueDomain.eval opts) op l r env) := by
  obtain hsame | ⟨side, x, e, hside, hx, -, heq⟩ := assumeComparison_eq opts op l r
  · rw [hsame]
    exact same
  · rw [heq]
    exact refine_cases (p := fun f => p (f env)) empty same fun hrefines w hne hw hregular =>
      put (hside ▸ hrefines) x e w hx hne hw hregular

/-- What is kept where an identifier of some kind is bound to what a comparison with a value leaves
of it, and where environments are joined. -/
structure AssumeInvariant (opts : Options) (binds : Identifier → Prop)
    (p : ValueEnv Interval → Prop) : Prop where
  bottom : p AbstractLattice.bottom
  join {a b : ValueEnv Interval} : p a → p b → p (join a b)
  put {env : ValueEnv Interval} {x : Identifier} {e : ValueExpr} {w : Interval} : p env → binds x →
    isBottom (ValueDomain.eval opts env e) = false → isBottom w = false →
    ((ValueDomain.eval opts env e).IsRegular → w.IsRegular) → p (env.put x w)

variable {binds : Identifier → Prop} {p : ValueEnv Interval → Prop}

/-- By induction on the condition, whose right operand is assumed where the left one already is. -/
theorem assumeNormal_invariant (hp : AssumeInvariant opts binds p)
    (he : ∀ x ∈ e.compared, binds x) (henv : p env) : p (ValueDomain.assumeNormal opts e env) := by
  induction e generalizing env with
  | const | ident | any | skip | ternary => exact henv
  | unary op e note => cases op <;> exact henv
  | binary op l r note ihl ihr =>
    have hconnective (hop : op.isLogical = true) :
        (∀ x ∈ l.compared, binds x) ∧ ∀ x ∈ r.compared, binds x := by
      rw [ValueExpr.compared, if_pos hop] at he
      exact ⟨fun x hx => he x (List.mem_append_left _ hx),
        fun x hx => he x (List.mem_append_right _ hx)⟩
    have hcomparison (hop : op.isLogical = false) :
        p (assumeComparison (ValueDomain.eval opts) op l r env) := by
      refine assumeComparison_cases hp.bottom henv fun hrefines x _ w hx hne hw hregular => ?_
      refine hp.put henv (he x ?_) hne hw hregular
      rw [ValueExpr.compared, hop, if_neg Bool.false_ne_true, if_pos hrefines, hx]
      exact List.mem_singleton_self x
    cases op with
    | and => exact ihr (hconnective rfl).2 (ihl (hconnective rfl).1 henv)
    | or => exact hp.join (ihl (hconnective rfl).1 henv) (ihr (hconnective rfl).2 henv)
    | _ => exact hcomparison rfl

/-- What every refinement of a single identifier keeps, a condition keeps. -/
theorem assume_invariant (hp : AssumeInvariant opts binds p) (he : ∀ x ∈ e.targets, binds x)
    (henv : p env) : p (ValueDomain.assume opts e env) := by
  rw [ValueDomain.assume_eq_assumeNormal]
  exact assumeNormal_invariant hp he henv

end Interval

end Overapprox
