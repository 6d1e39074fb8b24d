import Overapprox.Proofs.Env.Frame

/-!
# Environments that agree on what is read

Two environments agree on some identifiers when these have the same values in both, and nothing is
left of one only where nothing is left of the other. A condition that reads no other identifiers is
judged alike in both, and what it leaves of them agrees as well: every comparison does the same to
both.

* `ValueEnv.Agree`: agreement on the identifiers of some kind.
* `ValueEnv.satisfies_congr`: the verdict on a condition.
* `ValueEnv.Agree.assume`: the environments where a condition holds.
-/

namespace Overapprox

open AbstractLattice
open scoped LawfulLattice

namespace ValueEnv

variable {opts : Options} {e l r : ValueExpr}

/-- The verdict on a condition depends on nothing but the values of what it reads. -/
theorem satisfies_congr {δ : Type} [BEq δ] [ValueDomain δ] {a b : ValueEnv δ}
    (h : ∀ x, e.mentions x = true → a.get x = b.get x) :
    ValueDomain.satisfies opts a e = ValueDomain.satisfies opts b e := by
  induction e with
  | const c _ => cases c <;> rfl
  | any | skip => rfl
  | ident id _ => rw [ValueDomain.satisfies, h id (BEq.refl id), ValueDomain.satisfies]
  | unary op e _ ih =>
    have heval : ValueDomain.eval opts a e = ValueDomain.eval opts b e := eval_congr h
    cases op with
    | not => rw [ValueDomain.satisfies, ih h, ValueDomain.satisfies]
    | neg | strlen => simp only [ValueDomain.satisfies, heval]
  | binary op l r _ ihl ihr =>
    have hl (x : Identifier) (hx : l.mentions x = true) : a.get x = b.get x :=
      h x (by rw [ValueExpr.mentions, hx, Bool.true_or])
    have hr (x : Identifier) (hx : r.mentions x = true) : a.get x = b.get x :=
      h x (by rw [ValueExpr.mentions, hx, Bool.or_true])
    cases op with
    | and | or => rw [ValueDomain.satisfies, ihl hl, ihr hr, ValueDomain.satisfies]
    | _ => simp only [ValueDomain.satisfies, eval_congr hl, eval_congr hr]
  | ternary op l m r _ =>
    have hl (x : Identifier) (hx : l.mentions x = true) : a.get x = b.get x :=
      h x (by rw [ValueExpr.mentions, hx, Bool.true_or, Bool.true_or])
    have hm (x : Identifier) (hx : m.mentions x = true) : a.get x = b.get x :=
      h x (by rw [ValueExpr.mentions, hx, Bool.or_true, Bool.true_or])
    have hr (x : Identifier) (hx : r.mentions x = true) : a.get x = b.get x :=
      h x (by rw [ValueExpr.mentions, hx, Bool.or_true])
    simp only [ValueDomain.satisfies, eval_congr hl, eval_congr hm, eval_congr hr]

/-! ## Joins -/

theorem isBottom_join (a b : ValueEnv Interval) :
    isBottom (join a b) = (isBottom a && isBottom b) := by
  rw [Bool.eq_iff_iff, Bool.and_eq_true]
  constructor
  · intro h
    exact ⟨LawfulLattice.isBottom_of_le (LawfulLattice.le_join_left a b) h,
      LawfulLattice.isBottom_of_le (LawfulLattice.le_join_right a b) h⟩
  · rintro ⟨ha, hb⟩
    rwa [join_of_isBottom_right hb]

/-- At every identifier a join has the join of the values, also where one environment is bottom. -/
theorem get_join (a b : ValueEnv Interval) (x : Identifier) :
    (join a b).get x = join (a.get x) (b.get x) := by
  refine Interval.eq_of_le_of_ge ?_ ?_
  · exact get_join_le_iff.2 ⟨LawfulLattice.le_join_left _ _, LawfulLattice.le_join_right _ _⟩
  · exact LawfulLattice.join_le_iff.2 (get_join_le_iff.1 le_rfl)

/-! ## Agreement -/

/-- The identifiers of some kind have the same values in two environments, and one of them is bottom
only with the other. -/
structure Agree (reads : Identifier → Prop) (a b : ValueEnv Interval) : Prop where
  isBottom_eq : isBottom a = isBottom b
  get_eq {x : Identifier} : reads x → a.get x = b.get x

namespace Agree

variable {reads : Identifier → Prop} {a b a' b' : ValueEnv Interval}

theorem refl (a : ValueEnv Interval) : Agree reads a a := ⟨rfl, fun _ => rfl⟩

theorem put (h : Agree reads a b) (x : Identifier) (v : Interval) :
    Agree reads (a.put x v) (b.put x v) := by
  cases hb : isBottom b with
  | true =>
    rw [eq_of_isBottom (h.isBottom_eq.trans hb) hb]
    exact .refl _
  | false =>
    refine ⟨rfl, fun {y} hy => ?_⟩
    by_cases hyx : compare y x = .eq
    · exact (get_put_of_eq a hyx v).trans (get_put_of_eq b hyx v).symm
    · have ha : isBottom a = false := h.isBottom_eq.trans hb
      rw [get_put_of_ne v hyx (function_ne_bottom ha), get_put_of_ne v hyx (function_ne_bottom hb)]
      exact h.get_eq hy

/-- Joins agree where their operands do. -/
theorem join (h : Agree reads a b) (h' : Agree reads a' b') :
    Agree reads (join a a') (join b b') := by
  refine ⟨?_, fun {x} hx => ?_⟩
  · rw [isBottom_join, isBottom_join, h.isBottom_eq, h'.isBottom_eq]
  · rw [get_join, get_join, h.get_eq hx, h'.get_eq hx]

theorem assumeComparison {op : BinaryOp} (h : Agree reads a b)
    (hl : ∀ x, l.mentions x = true → reads x) (hr : ∀ x, r.mentions x = true → reads x) :
    Agree reads (Interval.assumeComparison (ValueDomain.eval opts) op l r a)
      (Interval.assumeComparison (ValueDomain.eval opts) op l r b) := by
  obtain hsame | ⟨side, x, e, -, -, he, heq⟩ := Interval.assumeComparison_eq opts op l r
  · rw [hsame, hsame]
    exact h
  · have heval : ValueDomain.eval opts a e = ValueDomain.eval opts b e := by
      refine eval_congr fun y hy => h.get_eq ?_
      rcases he with rfl | rfl
      · exact hl y hy
      · exact hr y hy
    rw [heq, heq, heval]
    exact Interval.refine_cases (p := fun f => Agree reads (f a) (f b)) (.refl _) h
      fun _ w _ _ _ => h.put x w

/-- By induction on the condition, whose right operand is assumed where the left one already is. -/
theorem assumeNormal (h : Agree reads a b) (he : ∀ x, e.mentions x = true → reads x) :
    Agree reads (ValueDomain.assumeNormal opts e a) (ValueDomain.assumeNormal opts e b) := by
  induction e generalizing a b with
  | const | ident | any | skip | ternary => exact h
  | unary op e _ => cases op <;> exact h
  | binary op l r _ ihl ihr =>
    have hl (x : Identifier) (hx : l.mentions x = true) : reads x :=
      he x (by rw [ValueExpr.mentions, hx, Bool.true_or])
    have hr (x : Identifier) (hx : r.mentions x = true) : reads x :=
      he x (by rw [ValueExpr.mentions, hx, Bool.or_true])
    cases op with
    | and => exact ihr (ihl h hl) hr
    | or => exact (ihl h hl).join (ihr h hr)
    | _ => exact h.assumeComparison hl hr

/-- Environments that agree on what a condition reads agree after the condition too. -/
theorem assume (h : Agree reads a b) (he : ∀ x, e.mentions x = true → reads x) :
    Agree reads (ValueDomain.assume opts e a) (ValueDomain.assume opts e b) := by
  rw [ValueDomain.assume_eq_assumeNormal, ValueDomain.assume_eq_assumeNormal]
  refine h.assumeNormal fun x hx => he x ?_
  rwa [(ValueExpr.mentions_removeNegations x e).1] at hx

end Agree

end ValueEnv

end Overapprox
