import Overapprox.Proofs.Interval.Membership

/-!
# Evaluation covers what expressions denote

* `Interval.mem_unary`, `Interval.mem_binary`: the operators on intervals cover their results.
* `Interval.mem_eval`: an expression only denotes integers of its interval.
* `Interval.eval_contains_of_denotes`: where it denotes one, the interval is not bottom.
-/

namespace Overapprox

open AbstractLattice

namespace Interval

variable {v w : Interval} {m n k : Int}

/-- Every result of an operator on a member is in the value of the operator. -/
theorem mem_unary {op : UnaryOp} (hm : m ∈ v) (h : op.Gives m n) : n ∈ unary op v := by
  obtain ⟨a, rfl, hm⟩ := hm
  cases op with
  | neg =>
    show n ∈ if isTop (range a) then top else range (a * .singleton (.finite (-1)))
    split
    · exact mem_top n
    · have hone : (Bounds.singleton (.finite (-1))).contains (.finite (-1)) = true :=
        Bounds.contains_low _
      have hmul := Bounds.contains_mul hm hone
      rw [Int.mul_neg_one] at hmul
      cases h
      exact mem_range.2 hmul
  | not => exact mem_top n
  | strlen => exact mem_ofBounds.2 ⟨Extended.zero_le_finite.2 h, Extended.le_posInf _⟩

theorem eq_zero_of_isZero {b : Bounds} (hb : b.isZero = true) (hn : b.contains (.finite n) = true) :
    n = 0 := by
  rw [Bounds.isZero, Bool.and_eq_true, beq_iff_eq, beq_iff_eq] at hb
  rw [Bounds.contains_iff, hb.1, hb.2] at hn
  obtain ⟨hlow, hhigh⟩ := hn
  rw [Extended.zero_le_finite] at hlow
  rw [Extended.finite_le_zero] at hhigh
  omega

/-- A product of two intervals one of which is zero. -/
theorem mem_mul {a b : Bounds} (hm : a.contains (.finite m) = true)
    (hn : b.contains (.finite n) = true) :
    m * n ∈ if a.isZero || b.isZero then singleton 0 else range (a * b) := by
  split
  case isTrue hzero =>
    rw [mem_singleton, Int.mul_eq_zero]
    rw [Bool.or_eq_true] at hzero
    exact hzero.imp (eq_zero_of_isZero · hm) (eq_zero_of_isZero · hn)
  case isFalse => exact mem_range.2 (Bounds.contains_mul hm hn)

/-- A quotient of two intervals, by something other than zero. -/
theorem mem_div (rounding : DivisionRounding) {a b : Bounds}
    (hm : a.contains (.finite m) = true) (hn : b.contains (.finite n) = true) (hne : n ≠ 0) :
    m.tdiv n ∈
      if b.isZero then bottom
      else if a.isZero then singleton 0
      else if isTop (range a) || isTop (range b) then top
      else range (a.div rounding b) := by
  split
  case isTrue hzero => exact absurd (eq_zero_of_isZero hzero hn) hne
  case isFalse =>
    split
    case isTrue hzero =>
      rw [eq_zero_of_isZero hzero hm, Int.zero_tdiv]
      exact mem_singleton.2 rfl
    case isFalse =>
      split
      · exact mem_top _
      · exact mem_range.2 (Bounds.contains_div rounding hm hn)

/-- Every result of an operator on members of two values is in the value of the operator. -/
theorem mem_binary (opts : Options) {op : BinaryOp} (hm : m ∈ v) (hn : n ∈ w)
    (h : op.Gives m n k) : k ∈ binary opts op v w := by
  obtain ⟨a, rfl, hm⟩ := hm
  obtain ⟨b, rfl, hn⟩ := hn
  unfold binary
  split
  case isTrue => exact mem_top k
  case isFalse =>
    cases op with
    | add =>
      cases h
      exact mem_range.2 (Bounds.contains_add hm hn)
    | sub =>
      cases h
      exact mem_range.2 (Bounds.contains_sub hm hn)
    | mul =>
      cases h
      exact mem_mul hm hn
    | div =>
      obtain ⟨hne, rfl⟩ := h
      exact mem_div opts.divisionRounding hm hn hne
    | rem | eq | ne | lt | le | gt | ge | and | or | concat => exact mem_top k

/-! ## Expressions -/

variable (opts : Options) {env : ValueEnv Interval} {s : Valuation} {e : ValueExpr}

/-- By induction on what the expression denotes: the operands are covered, so none of them is
bottom and the operator is evaluated. -/
theorem mem_eval (hs : s ∈ env) (h : Denotes s e n) : n ∈ ValueDomain.eval opts env e := by
  induction h with
  | @const c n a h =>
    cases c with
    | int m => exact mem_singleton.2 h
    | null | bool | str => exact mem_top n
  | ident id a => exact hs id
  | any a n => exact mem_top n
  | unary a _ h ih =>
    rw [ValueDomain.eval, if_neg (Bool.eq_false_iff.1 (isBottom_eq_false_of_mem ih))]
    exact mem_unary ih h
  | binary a _ _ h ihl ihr =>
    rw [ValueDomain.eval, if_neg (Bool.eq_false_iff.1 (isBottom_eq_false_of_mem ihl)),
      if_neg (Bool.eq_false_iff.1 (isBottom_eq_false_of_mem ihr))]
    exact mem_binary opts ihl ihr h
  | ternary op a n _ _ _ ihl ihm ihr =>
    rw [ValueDomain.eval, isBottom_eq_false_of_mem ihl, isBottom_eq_false_of_mem ihm,
      isBottom_eq_false_of_mem ihr]
    exact mem_top n

/-- Every integer that an expression denotes lies within the bounds of its interval, which are
there. -/
theorem eval_contains_of_denotes (hs : s ∈ env) (h : Denotes s e n) :
    ∃ b, ValueDomain.eval opts env e = range b ∧ b.low ≤ .finite n ∧ .finite n ≤ b.high := by
  obtain ⟨b, hb, hn⟩ := mem_eval opts hs h
  exact ⟨b, hb, Bounds.contains_iff.1 hn⟩

/-- A non-negative variable over three. -/
theorem eval_contains_of_denotes_quotient :
    ∃ b, ValueDomain.eval {} ((∅ : ValueEnv Interval).put (intVar "x") (ofBounds 0 .posInf))
        (.binary .div (.ofIdentifier (intVar "x")) (.const (.int 3) { type := .int32 })
          { type := .int32 }) = range b ∧
      b.low ≤ .finite 2 ∧ .finite 2 ≤ b.high :=
  eval_contains_of_denotes (s := .constant 7) {}
    (ValueEnv.mem_put (ValueEnv.mem_empty _) (mem_ofBounds.2 ⟨by decide, by decide⟩))
    (.binary _ (.ident _ _) (.const _ rfl) ⟨by decide, by decide⟩)

end Interval

end Overapprox
