import Overapprox.Number.Bounds
import Overapprox.Proofs.Number.Extended

/-!
# Interval arithmetic covers the results

An interval that an operation makes of two intervals contains the result for every two integers of
theirs. The four corners suffice for products and quotients, since both operations stay between
their values at the ends of an interval in each operand.

* `contains_add`, `contains_sub`, `contains_mul`: the exact operations.
* `contains_div`: truncated quotients, under both roundings of the corners.
-/

namespace Overapprox

namespace Bounds

/-- The numbers of a range are those of the interval between its bounds. -/
theorem contains_iff {b : Bounds} {n : Extended} :
    b.contains n = true ↔ n ∈ Set.Icc b.low b.high := by
  simp [contains]

variable {a b : Bounds} {m n : Int}

theorem contains_add (hm : a.contains (.finite m) = true) (hn : b.contains (.finite n) = true) :
    (a + b).contains (.finite (m + n)) = true := by
  obtain ⟨hmlow, hmhigh⟩ := contains_iff.1 hm
  obtain ⟨hnlow, hnhigh⟩ := contains_iff.1 hn
  exact contains_iff.2 ⟨Extended.add_le_add hmlow hnlow, Extended.add_le_add hmhigh hnhigh⟩

theorem contains_sub (hm : a.contains (.finite m) = true) (hn : b.contains (.finite n) = true) :
    (a - b).contains (.finite (m - n)) = true := by
  obtain ⟨hmlow, hmhigh⟩ := contains_iff.1 hm
  obtain ⟨hnlow, hnhigh⟩ := contains_iff.1 hn
  exact contains_iff.2 ⟨Extended.sub_le_sub hmlow hnhigh, Extended.sub_le_sub hmhigh hnlow⟩

/-! ## Corners -/

/-- An operation that stays between its values at the ends, in each operand, stays between its
values at the four corners. -/
theorem mem_ofCorners {f : Extended → Extended → Extended} {x y : Extended}
    (hleft : f x y ∈ Set.uIcc (f a.low y) (f a.high y))
    (hright : ∀ c, f c y ∈ Set.uIcc (f c b.low) (f c b.high)) :
    (ofCorners f f a b (Extended.le_refl _)).contains (f x y) = true := by
  obtain ⟨hlow, hhigh⟩ := hleft
  obtain ⟨hlowlow, hlowhigh⟩ := hright a.low
  obtain ⟨hhighlow, hhighhigh⟩ := hright a.high
  exact contains_iff.2 ⟨(min_le_min hlowlow hhighlow).trans hlow,
    hhigh.trans (max_le_max hlowhigh hhighhigh)⟩

/-- Every product of members lies between two products of bounds, infinite ones included. -/
theorem mul_mem {x y : Extended} (hx : a.contains x = true) (hy : b.contains y = true) :
    (a * b).contains (x * y) = true := by
  rw [contains_iff] at hx hy
  have hleft : x * y ∈ Set.uIcc (a.low * y) (a.high * y) := by
    simpa only [Extended.mul_comm y] using Extended.mul_mem_uIcc y hx
  exact mem_ofCorners (f := (· * ·)) hleft fun c => Extended.mul_mem_uIcc c hy

theorem contains_mul (hm : a.contains (.finite m) = true) (hn : b.contains (.finite n) = true) :
    (a * b).contains (.finite (m * n)) = true :=
  mul_mem hm hn

/-- Without zero an interval lies on one side of it. -/
theorem pos_or_neg_of_not_contains_zero (h0 : b.contains 0 = false) : 0 < b.low ∨ b.high < 0 := by
  by_contra hcon
  rw [not_or, not_lt, not_lt] at hcon
  rw [contains_iff.2 hcon] at h0
  cases h0

/-- Every quotient lies between two quotients of bounds, where the range of divisors leaves zero
out. -/
theorem quotient_mem (r : QuotientRounding) {x y : Extended} (hx : a.contains x = true)
    (hy : b.contains y = true) (h0 : b.contains 0 = false) :
    (ofCorners (.quotient r) (.quotient r) a b (Extended.le_refl _)).contains
      (.quotient r x y) = true := by
  have hne : y ≠ 0 := by
    rintro rfl
    rw [hy] at h0
    cases h0
  have hside := pos_or_neg_of_not_contains_zero h0
  rw [contains_iff] at hx hy
  exact mem_ofCorners (f := Extended.quotient r) (Extended.quotient_mem_uIcc_left hne hx)
    fun c => Extended.quotient_mem_uIcc_right c hside hy

theorem fdiv_le_tdiv (m n : Int) : m.fdiv n ≤ m.tdiv n := by
  rw [Int.fdiv_eq_tdiv]
  grind

theorem tdiv_le_neg_fdiv_neg (m n : Int) : m.tdiv n ≤ -((-m).fdiv n) := by
  have h := fdiv_le_tdiv (-m) n
  rw [Int.neg_tdiv] at h
  omega

/-- The quotient that is rounded down is the least of the rounded ones, that rounded up the
greatest. -/
theorem roundedQuotient_bounds (r : QuotientRounding) (m n : Int) :
    m.fdiv n ≤ Extended.roundedQuotient r m n ∧
      Extended.roundedQuotient r m n ≤ -((-m).fdiv n) := by
  cases r with
  | down => exact ⟨Int.le_refl _, Extended.fdiv_le_neg_neg_fdiv m n⟩
  | up => exact ⟨Extended.fdiv_le_neg_neg_fdiv m n, Int.le_refl _⟩
  | towardZero => exact ⟨fdiv_le_tdiv m n, tdiv_le_neg_fdiv_neg m n⟩

/-- Quotients by zero apart, the quotient of two intervals contains the truncated quotients. -/
theorem contains_div (r : DivisionRounding) (hm : a.contains (.finite m) = true)
    (hn : b.contains (.finite n) = true) : (a.div r b).contains (.finite (m.tdiv n)) = true := by
  unfold div
  split
  case isTrue => simp [contains, infinite]
  case isFalse h0 =>
    rw [Bool.not_eq_true] at h0
    cases r with
    | towardZero => exact quotient_mem .towardZero hm hn h0
    | outward =>
      -- The lower corners are rounded down and the upper ones up, so both roundings are needed.
      obtain ⟨hdown, -⟩ := contains_iff.1 (quotient_mem .down hm hn h0)
      obtain ⟨-, hup⟩ := contains_iff.1 (quotient_mem .up hm hn h0)
      have hlow := Extended.finite_le_finite.2 (fdiv_le_tdiv m n)
      have hhigh := Extended.finite_le_finite.2 (tdiv_le_neg_fdiv_neg m n)
      exact contains_iff.2 ⟨hdown.trans hlow, hhigh.trans hup⟩

end Bounds

end Overapprox
