import Mathlib.Algebra.Order.Field.Basic
import Mathlib.Algebra.Order.Field.Rat
import Mathlib.Algebra.Order.Ring.Cast
import Overapprox.Proofs.Interval.Monotone
import Overapprox.Proofs.Interval.Regular
import Overapprox.Proofs.Number.Limits

/-!
# Interval arithmetic is the best abstraction

The interval that an operation makes of two intervals is the smallest one that covers the results
for the integers of the two. Covering is known already. For the other half, every corner of the
result is a result or a limit of results, so that it lies in every interval that covers these. The
exception are quotients of two infinities, which are limits of quotients by a single divisor. Under
outward rounding the rational quotients are covered: an interval covers one of them when it contains
the integers to which it can be rounded.

* `Bounds.isLimit_of_contains`: the integers of an interval approach whatever lies in it.
* `Bounds.contains_quotient`: a quotient of numbers lies where those of integers do.
* `Bounds.IsBest`: the smallest interval that covers some rational numbers.
* `Bounds.arithmetic_isBest`: sums, differences, products and quotients.
-/

namespace Overapprox

/-! ## Rational numbers between bounds -/

namespace Extended

/-- Whether a number is at most a rational one. -/
def LeRat : Extended → ℚ → Prop
  | negInf, _ => True
  | finite n, q => (n : ℚ) ≤ q
  | posInf, _ => False

/-- Whether a number is at least a rational one. -/
def GeRat : Extended → ℚ → Prop
  | negInf, _ => False
  | finite n, q => q ≤ (n : ℚ)
  | posInf, _ => True

variable {x : Extended} {q : ℚ} {m n : Int}

theorem geRat_iff_neg : x.GeRat q ↔ (-x).LeRat (-q) := by
  cases x with
  | negInf | posInf => exact Iff.rfl
  | finite n =>
    show q ≤ (n : ℚ) ↔ ((-n : Int) : ℚ) ≤ -q
    rw [Int.cast_neg]
    exact ⟨neg_le_neg, le_of_neg_le_neg⟩

theorem leRat_intCast : x.LeRat n ↔ x ≤ finite n := by
  cases x with
  | negInf => exact iff_of_true trivial (negInf_le _)
  | finite m =>
    rw [finite_le_finite]
    exact Int.cast_le
  | posInf => exact iff_of_false id (not_posInf_le_finite n)

theorem geRat_intCast : x.GeRat n ↔ finite n ≤ x := by
  rw [geRat_iff_neg, ← Int.cast_neg, leRat_intCast, ← neg_finite, neg_le_neg_iff]

/-- An integer is below a quotient exactly when it is below the quotient rounded down. -/
theorem intCast_le_div_iff {c : Int} (hn : n ≠ 0) : (c : ℚ) ≤ m / n ↔ c ≤ m.fdiv n := by
  have hpos {m n : Int} (hn : 0 < n) : (c : ℚ) ≤ m / n ↔ c ≤ m.fdiv n := by
    rw [Int.fdiv_eq_ediv_of_nonneg m hn.le, Int.le_ediv_iff_mul_le hn,
      le_div_iff₀ (Int.cast_pos.2 hn), ← Int.cast_mul, Int.cast_le]
  rcases lt_or_gt_of_ne hn with hneg | hn
  · rw [← Int.neg_fdiv_neg, ← hpos (Int.neg_pos.2 hneg), Int.cast_neg, Int.cast_neg, neg_div_neg_eq]
  · exact hpos hn

/-- A number is below a quotient exactly when it is below the quotient rounded down. -/
theorem leRat_div (hn : n ≠ 0) : x.LeRat (m / n) ↔ x ≤ finite (m.fdiv n) := by
  cases x with
  | negInf => exact iff_of_true trivial (negInf_le _)
  | finite c =>
    rw [finite_le_finite]
    exact intCast_le_div_iff hn
  | posInf => exact iff_of_false id (not_posInf_le_finite _)

theorem geRat_div (hn : n ≠ 0) : x.GeRat (m / n) ↔ finite (-((-m).fdiv n)) ≤ x := by
  rw [geRat_iff_neg, ← neg_div, ← Int.cast_neg, leRat_div hn, ← neg_finite, ← neg_le_neg_iff,
    neg_neg]

end Extended

/-! ## Numbers in intervals -/

namespace Bounds

variable {a b c d : Bounds} {x y z : Extended} {f : Int → Int → Int}

/-- The integers between the bounds. -/
def integers (b : Bounds) : Set Int := {n | b.contains (.finite n) = true}

/-- Integers of an interval that has some approach everything in it. -/
theorem isLimit_of_contains (hlow : b.low ≠ .posInf) (hhigh : b.high ≠ .negInf)
    (hx : b.contains x = true) : Extended.IsLimit b.integers x := by
  obtain ⟨hxlow, hxhigh⟩ := contains_iff.1 hx
  cases x with
  | finite n => exact Extended.isLimit_of_mem hx
  | negInf =>
    have hb : b.low = .negInf := le_antisymm hxlow (Extended.negInf_le _)
    intro k
    cases hhigh' : b.high with
    | negInf => exact absurd hhigh' hhigh
    | finite h =>
      -- As far down as asked for, but not above the other bound.
      refine ⟨min h (-k), contains_iff.2 ⟨?_, ?_⟩, min_le_right h (-k)⟩
      · rw [hb]
        exact Extended.negInf_le _
      · rw [hhigh', Extended.finite_le_finite]
        exact min_le_left h (-k)
    | posInf =>
      refine ⟨-k, contains_iff.2 ⟨?_, ?_⟩, le_refl (-k)⟩
      · rw [hb]
        exact Extended.negInf_le _
      · rw [hhigh']
        exact Extended.le_posInf _
  | posInf =>
    have hb : b.high = .posInf := le_antisymm (Extended.le_posInf _) hxhigh
    intro k
    cases hlow' : b.low with
    | posInf => exact absurd hlow' hlow
    | finite l =>
      refine ⟨max l k, contains_iff.2 ⟨?_, ?_⟩, le_max_right l k⟩
      · rw [hlow', Extended.finite_le_finite]
        exact le_max_left l k
      · rw [hb]
        exact Extended.le_posInf _
    | negInf =>
      refine ⟨k, contains_iff.2 ⟨?_, ?_⟩, le_refl k⟩
      · rw [hlow']
        exact Extended.negInf_le _
      · rw [hb]
        exact Extended.le_posInf _

/-- An interval contains what its integers approach. -/
theorem contains_of_isLimit (hx : Extended.IsLimit d.integers x) : d.contains x = true := by
  cases x with
  | finite n =>
    obtain ⟨m, hm, rfl⟩ := hx 0
    exact hm
  | negInf =>
    refine contains_iff.2 ⟨?_, Extended.negInf_le _⟩
    cases hlow : d.low with
    | negInf => exact le_rfl
    | finite l =>
      -- No integer of the interval lies below a finite bound, but one near the limit would.
      obtain ⟨n, hn, hnear⟩ := hx (1 - l)
      have hle := (contains_iff.1 hn).1
      rw [hlow, Extended.finite_le_finite] at hle
      change n ≤ -(1 - l) at hnear
      omega
    | posInf =>
      obtain ⟨n, hn, -⟩ := hx 0
      have hle := (contains_iff.1 hn).1
      rw [hlow] at hle
      exact absurd hle (Extended.not_posInf_le_finite n)
  | posInf =>
    refine contains_iff.2 ⟨Extended.le_posInf _, ?_⟩
    cases hhigh : d.high with
    | posInf => exact le_rfl
    | finite h =>
      obtain ⟨n, hn, hnear⟩ := hx (h + 1)
      have hle := (contains_iff.1 hn).2
      rw [hhigh, Extended.finite_le_finite] at hle
      change h + 1 ≤ n at hnear
      omega
    | negInf =>
      obtain ⟨n, hn, -⟩ := hx 0
      have hle := (contains_iff.1 hn).2
      rw [hhigh] at hle
      exact absurd hle (Extended.not_finite_le_negInf n)

theorem includes_of_contains (hlow : d.contains c.low = true) (hhigh : d.contains c.high = true) :
    d.includes c = true :=
  includes_iff.2 ⟨(contains_iff.1 hlow).1, (contains_iff.1 hhigh).2⟩

/-! ## Quotients -/

/-- Numbers of a range that leaves zero out have the same sign. -/
theorem sign_eq_sign (h0 : b.contains 0 = false) (hx : b.contains x = true)
    (hy : b.contains y = true) : x.sign = y.sign := by
  rw [contains_iff] at hx hy
  rcases pos_or_neg_of_not_contains_zero h0 with hlow | hhigh
  · rw [Extended.sign_eq_one (hlow.trans_le hx.1), Extended.sign_eq_one (hlow.trans_le hy.1)]
  · rw [Extended.sign_eq_neg_one (hx.2.trans_lt hhigh),
      Extended.sign_eq_neg_one (hy.2.trans_lt hhigh)]

/-- Where the rounded and the truncated quotients of all integers lie, those of all numbers do. A
quotient of an infinite number is a limit of quotients by one divisor. -/
theorem contains_quotient {r : QuotientRounding} (ha : a.low ≠ .posInf) (ha' : a.high ≠ .negInf)
    (hb : b.low ≠ .posInf) (hb' : b.high ≠ .negInf) (h0 : b.contains 0 = false)
    (hd : ∀ m ∈ a.integers, ∀ n ∈ b.integers, Extended.roundedQuotient r m n ∈ d.integers ∧
      m.tdiv n ∈ d.integers)
    (hx : a.contains x = true) (hy : b.contains y = true) :
    d.contains (.quotient r x y) = true := by
  have hxlimit := isLimit_of_contains ha ha' hx
  have hylimit := isLimit_of_contains hb hb' hy
  cases hxfinite : x.isFinite with
  | true =>
    cases x with
    | negInf | posInf => cases hxfinite
    | finite m =>
      cases hyfinite : y.isFinite with
      | true =>
        cases y with
        | negInf | posInf => cases hyfinite
        | finite n => exact (hd m hx n hy).1
      | false =>
        rw [Extended.quotient_finite_infinite r m hyfinite]
        exact contains_of_isLimit ((Extended.tends_tdiv_infinite m hyfinite).isLimit hxlimit hylimit
          fun m hm n hn => (hd m hm n hn).2)
  | false =>
    -- Over an infinite number only the sign of the divisor counts, so any integer of the divisors
    -- stands in for `y`.
    obtain ⟨n, hn, -⟩ := hylimit 0
    have hne : n ≠ 0 := by
      rintro rfl
      cases h0.symm.trans hn
    have hquotient : Extended.quotient r x y = .infinityOf (x.sign * n.sign) := by
      rw [Extended.quotient_of_infinite r hxfinite, sign_eq_sign h0 hy hn]
      rfl
    rw [hquotient]
    exact contains_of_isLimit ((Extended.tends_infinite_tdiv hne hxfinite).isLimit hxlimit
      (Extended.isLimit_of_mem hn) fun m hm n hn => (hd m hm n hn).2)

/-! ## The smallest interval -/

/-- The rational number lies between the bounds. -/
def Covers (c : Bounds) (q : ℚ) : Prop := c.low.LeRat q ∧ c.high.GeRat q

/-- The interval covers some rational numbers, and lies in every interval that does. -/
structure IsBest (c : Bounds) (S : Set ℚ) : Prop where
  covers : ∀ q ∈ S, c.Covers q
  least : ∀ d : Bounds, (∀ q ∈ S, d.Covers q) → d.includes c = true

/-- What an operation gives for the integers of two intervals. -/
def results (f : Int → Int → ℚ) (a b : Bounds) : Set ℚ :=
  {q | ∃ m ∈ a.integers, ∃ n ∈ b.integers, q = f m n}

theorem covers_intCast {n : Int} : c.Covers n ↔ n ∈ c.integers := by
  rw [Covers, Extended.leRat_intCast, Extended.geRat_intCast]
  exact contains_iff.symm

theorem covers_div {m n : Int} (hn : n ≠ 0) : c.Covers (m / n) ↔
    c.low ≤ .finite (m.fdiv n) ∧ .finite (-((-m).fdiv n)) ≤ c.high := by
  rw [Covers, Extended.leRat_div hn, Extended.geRat_div hn]

/-- A property of all results is one of all pairs of operands. -/
theorem forall_results_iff {f : Int → Int → ℚ} {p : ℚ → Prop} :
    (∀ q ∈ results f a b, p q) ↔ ∀ m ∈ a.integers, ∀ n ∈ b.integers, p (f m n) := by
  constructor
  · exact fun h m hm n hn => h _ ⟨m, hm, n, hn, rfl⟩
  · rintro h q ⟨m, hm, n, hn, rfl⟩
    exact h m hm n hn

/-- Where the results are integers, the smallest interval is the smallest that contains them. -/
theorem isBest_of_contains
    (hcovers : ∀ m ∈ a.integers, ∀ n ∈ b.integers, f m n ∈ c.integers)
    (hleast : ∀ d : Bounds, (∀ m ∈ a.integers, ∀ n ∈ b.integers, f m n ∈ d.integers) →
      d.includes c = true) :
    c.IsBest (results (fun m n => f m n) a b) := by
  constructor
  · rw [forall_results_iff]
    exact fun m hm n hn => covers_intCast.2 (hcovers m hm n hn)
  · intro d hd
    rw [forall_results_iff] at hd
    exact hleast d fun m hm n hn => covers_intCast.1 (hd m hm n hn)

section

variable (ha : a.low ≠ .posInf) (ha' : a.high ≠ .negInf) (hb : b.low ≠ .posInf)
  (hb' : b.high ≠ .negInf)

include ha ha' hb hb'

/-- A range that contains all results contains what the results come close to. -/
theorem contains_of_tends (hd : ∀ m ∈ a.integers, ∀ n ∈ b.integers, f m n ∈ d.integers)
    (hf : Extended.Tends f x y z) (hx : a.contains x = true) (hy : b.contains y = true) :
    d.contains z = true :=
  contains_of_isLimit <|
    hf.isLimit (isLimit_of_contains ha ha' hx) (isLimit_of_contains hb hb' hy) hd

/-- Operands whose results tend to the two bounds make the smallest interval. -/
theorem isBest_of_tends {x' y' : Extended}
    (hcovers : ∀ m ∈ a.integers, ∀ n ∈ b.integers, f m n ∈ c.integers)
    (hlow : Extended.Tends f x y c.low) (hx : a.contains x = true) (hy : b.contains y = true)
    (hhigh : Extended.Tends f x' y' c.high) (hx' : a.contains x' = true)
    (hy' : b.contains y' = true) : c.IsBest (results (fun m n => f m n) a b) := by
  refine isBest_of_contains hcovers fun d hd => includes_of_contains ?_ ?_
  · exact contains_of_tends ha ha' hb hb' hd hlow hx hy
  · exact contains_of_tends ha ha' hb hb' hd hhigh hx' hy'

theorem summable : a.Summable b :=
  Interval.summable_of_isRegular (Interval.isRegular_range_iff.2 ⟨ha, ha'⟩)
    (Interval.isRegular_range_iff.2 ⟨hb, hb'⟩)

/-- The sum of two ranges is the smallest one around all sums of members. -/
theorem isBest_add : (a + b).IsBest (results (fun m n => (m + n : Int)) a b) := by
  have hsummable := summable ha ha' hb hb'
  exact isBest_of_tends ha ha' hb hb' (fun m hm n hn => contains_add hm hn)
    (Extended.tends_add hsummable.add_low) a.contains_low b.contains_low
    (Extended.tends_add hsummable.add_high) a.contains_high b.contains_high

theorem isBest_sub : (a - b).IsBest (results (fun m n => (m - n : Int)) a b) := by
  have hsummable := summable ha ha' hb hb'
  exact isBest_of_tends ha ha' hb hb' (fun m hm n hn => contains_sub hm hn)
    (Extended.tends_sub hsummable.sub_low) a.contains_low b.contains_high
    (Extended.tends_sub hsummable.sub_high) a.contains_high b.contains_low

/-- The product of two ranges is the smallest one around all products of members. -/
theorem isBest_mul : (a * b).IsBest (results (fun m n => (m * n : Int)) a b) := by
  refine isBest_of_contains (fun m hm n hn => contains_mul hm hn) fun d hd => ?_
  exact includes_ofCorners _ fun x y hx hy =>
    contains_iff.1 (contains_of_tends ha ha' hb hb' hd (Extended.tends_mul x y) hx hy)

/-- The truncated quotient is the smallest range around all quotients, where zero is no divisor. -/
theorem isBest_div_towardZero (h0 : b.contains 0 = false) :
    (a.div .towardZero b).IsBest (results (fun m n => m.tdiv n) a b) := by
  refine isBest_of_contains (fun m hm n hn => contains_div .towardZero hm hn) fun d hd => ?_
  unfold div
  rw [if_neg (Bool.eq_false_iff.1 h0)]
  exact includes_ofCorners _ fun x y hx hy => contains_iff.1
    (contains_quotient (r := .towardZero) ha ha' hb hb' h0
      (fun m hm n hn => ⟨hd m hm n hn, hd m hm n hn⟩) hx hy)

/-- The rounded quotients lie between the one that is rounded down and the one that is rounded up,
which lie in every interval that covers the rational one. -/
theorem isBest_div_outward (h0 : b.contains 0 = false) :
    (a.div .outward b).IsBest (results (fun m n => m / n) a b) := by
  have hne {n : Int} (hn : n ∈ b.integers) : n ≠ 0 := by
    rintro rfl
    cases h0.symm.trans hn
  unfold div
  rw [if_neg (Bool.eq_false_iff.1 h0)]
  constructor
  · rw [forall_results_iff]
    intro m hm n hn
    obtain ⟨hdown, -⟩ := contains_iff.1 (quotient_mem .down hm hn h0)
    obtain ⟨-, hup⟩ := contains_iff.1 (quotient_mem .up hm hn h0)
    exact (covers_div (hne hn)).2 ⟨hdown, hup⟩
  · intro d hd
    rw [forall_results_iff] at hd
    have hrounded (r : QuotientRounding) : ∀ m ∈ a.integers, ∀ n ∈ b.integers,
        Extended.roundedQuotient r m n ∈ d.integers := by
      intro m hm n hn
      obtain ⟨hlow, hhigh⟩ := (covers_div (hne hn)).1 (hd m hm n hn)
      obtain ⟨hdown, hup⟩ := roundedQuotient_bounds r m n
      exact contains_iff.2 ⟨hlow.trans (Extended.finite_le_finite.2 hdown),
        (Extended.finite_le_finite.2 hup).trans hhigh⟩
    -- The corners may be infinite, where they are limits of the rounded quotients.
    refine includes_ofCorners _ fun x y hx hy => ?_
    have hquotient (r : QuotientRounding) := contains_iff.1 <|
      contains_quotient (r := r) ha ha' hb hb' h0
        (fun m hm n hn => ⟨hrounded r m hm n hn, hrounded .towardZero m hm n hn⟩) hx hy
    exact ⟨(hquotient .down).1, (hquotient .up).2⟩

/-- Sums, differences and products are the smallest intervals that cover those of the integers. So
are quotients by an interval without zero: rounded toward zero for the truncated quotients, and
rounded outward for the rational ones. -/
theorem arithmetic_isBest :
    (a + b).IsBest (results (fun m n => (m + n : Int)) a b) ∧
    (a - b).IsBest (results (fun m n => (m - n : Int)) a b) ∧
    (a * b).IsBest (results (fun m n => (m * n : Int)) a b) ∧
    (b.contains 0 = false →
      (a.div .towardZero b).IsBest (results (fun m n => m.tdiv n) a b) ∧
      (a.div .outward b).IsBest (results (fun m n => m / n) a b) ∧
      (a.div .outward b).includes (a.div .towardZero b) = true) := by
  refine ⟨isBest_add ha ha' hb hb', isBest_sub ha ha' hb hb', isBest_mul ha ha' hb hb',
    fun h0 => ?_⟩
  have htowardZero := isBest_div_towardZero ha ha' hb hb' h0
  refine ⟨htowardZero, isBest_div_outward ha ha' hb hb' h0, htowardZero.least _ ?_⟩
  rw [forall_results_iff]
  exact fun m hm n hn => covers_intCast.2 (contains_div .outward hm hn)

end

/-- Two intervals without upper bounds, whose quotient is `-7 / 2` at its lower end. -/
theorem arithmetic_isBest_of_half_infinite :
    ∃ a b : Bounds, b.contains 0 = false ∧
      (a.div .towardZero b).low = .finite (-3) ∧ (a.div .outward b).low = .finite (-4) ∧
      (a * b).IsBest (results (fun m n => (m * n : Int)) a b) ∧
      (a.div .towardZero b).IsBest (results (fun m n => m.tdiv n) a b) ∧
      (a.div .outward b).IsBest (results (fun m n => m / n) a b) := by
  let a : Bounds := ⟨.finite (-7), .posInf, by decide⟩
  let b : Bounds := ⟨.finite 2, .posInf, by decide⟩
  have h := arithmetic_isBest (a := a) (b := b) (by decide) (by decide) (by decide) (by decide)
  have hdiv := h.2.2.2 (by decide)
  exact ⟨a, b, by decide, by decide, by decide, h.2.2.1, hdiv.1, hdiv.2.1⟩

end Bounds

end Overapprox
