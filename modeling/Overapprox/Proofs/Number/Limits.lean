import Overapprox.Proofs.Number.Extended

/-!
# Infinite bounds as limits

The results for infinite operands are those that the results for integers tend to, as far as these
tend to anything: a sum of opposite infinities does not, nor does a quotient of two infinities. So
a number that is approached in both operands by integers of some sets gives a result that the
results for the integers of the sets approach.

* `Extended.Near`, `Extended.Tends`: integers close to a number, results close to a result.
* `Extended.tends_add`, `Extended.tends_mul`, `Extended.tends_tdiv_infinite`,
  `Extended.tends_infinite_tdiv`: sums, products and truncated quotients.
* `Extended.Tends.isLimit`: results approach the result.
-/

namespace Overapprox

namespace Extended

variable {f : Int → Int → Int} {x y z : Extended} {k n : Int}

/-! ## Integers close to a number -/

/-- `n` is the number, or at least `k` away from zero on the side of an infinite one. -/
def Near (k : Int) : Extended → Int → Prop
  | negInf, n => n ≤ -k
  | finite m, n => n = m
  | posInf, n => k ≤ n

theorem near_neg : Near k (-x) n ↔ Near k x (-n) := by
  cases x with
  | negInf =>
    show k ≤ n ↔ -n ≤ -k
    omega
  | finite m =>
    show n = -m ↔ -n = m
    omega
  | posInf =>
    show n ≤ -k ↔ k ≤ -n
    omega

/-- Results for integers close enough to two numbers are as close as one likes to a third one. -/
def Tends (f : Int → Int → Int) (x y z : Extended) : Prop :=
  ∀ k, ∃ j, ∀ m n, Near j x m → Near j y n → Near k z (f m n)

namespace Tends

/-- Arguments that are exchanged tend to the same limit. -/
theorem swap (h : Tends f x y z) : Tends (fun m n => f n m) y x z := by
  intro k
  obtain ⟨j, hj⟩ := h k
  exact ⟨j, fun m n hm hn => hj n m hn hm⟩

theorem neg_right (h : Tends f x y z) (hf : ∀ m n, f m (-n) = -f m n) : Tends f x (-y) (-z) := by
  intro k
  obtain ⟨j, hj⟩ := h k
  refine ⟨j, fun m n hm hn => ?_⟩
  rw [near_neg] at hn ⊢
  rw [← hf]
  exact hj m (-n) hm hn

theorem neg_left (h : Tends f x y z) (hf : ∀ m n, f (-m) n = -f m n) : Tends f (-x) y (-z) :=
  (h.swap.neg_right fun m n => hf n m).swap

end Tends

/-- Only an integer itself is close to it, so there the result is exact. -/
theorem tends_finite (f : Int → Int → Int) (a b : Int) :
    Tends f (finite a) (finite b) (finite (f a b)) := by
  refine fun _ => ⟨0, ?_⟩
  rintro m n rfl rfl
  rfl

/-! ## Sums -/

/-- Sums come close to the sum, except where opposite infinities meet. -/
theorem tends_add (h : ¬ Opposite x y) : Tends (· + ·) x y (x + y) := by
  intro k
  cases x with
  | negInf =>
    cases y with
    | negInf =>
      exact ⟨max k 0, fun m n (hm : m ≤ -max k 0) (hn : n ≤ -max k 0) =>
        show m + n ≤ -k by omega⟩
    | finite b =>
      exact ⟨k + b, fun m n (hm : m ≤ -(k + b)) (hn : n = b) => show m + n ≤ -k by omega⟩
    | posInf => exact absurd (.inl ⟨rfl, rfl⟩) h
  | finite a =>
    cases y with
    | negInf =>
      exact ⟨k + a, fun m n (hm : m = a) (hn : n ≤ -(k + a)) => show m + n ≤ -k by omega⟩
    | finite b => exact tends_finite (· + ·) a b k
    | posInf =>
      exact ⟨k - a, fun m n (hm : m = a) (hn : k - a ≤ n) => show k ≤ m + n by omega⟩
  | posInf =>
    cases y with
    | negInf => exact absurd (.inr ⟨rfl, rfl⟩) h
    | finite b =>
      exact ⟨k - b, fun m n (hm : k - b ≤ m) (hn : n = b) => show k ≤ m + n by omega⟩
    | posInf =>
      exact ⟨max k 0, fun m n (hm : max k 0 ≤ m) (hn : max k 0 ≤ n) => show k ≤ m + n by omega⟩

theorem sub_eq_add_neg (x y : Extended) : x - y = x + -y := by
  cases x <;> cases y <;> rfl

theorem tends_sub (h : ¬ Opposite x (-y)) : Tends (· - ·) x y (x - y) := by
  intro k
  obtain ⟨j, hj⟩ := tends_add h k
  refine ⟨j, fun m n hm hn => ?_⟩
  have hn' : Near j (-y) (-n) := near_neg.2 (by rwa [Int.neg_neg])
  rw [sub_eq_add_neg]
  exact hj m (-n) hm hn'

/-! ## Products -/

/-- Positive factors make a large factor no smaller, and zero makes it zero. -/
theorem tends_mul_posInf_of_nonneg (hx : 0 ≤ x) : Tends (· * ·) x posInf (x * posInf) := by
  intro k
  cases x with
  | negInf => exact absurd hx (by decide)
  | finite a =>
    rcases eq_or_lt_of_le (zero_le_finite.1 hx) with rfl | ha
    · refine ⟨0, ?_⟩
      rintro m n rfl -
      exact Int.zero_mul n
    · refine ⟨max k 0, ?_⟩
      rintro m n rfl hn
      simp only [Near] at hn
      rw [mul_posInf_of_pos (zero_lt_finite.2 ha)]
      calc k ≤ 1 * n := by omega
        _ ≤ m * n := Int.mul_le_mul_of_nonneg_right ha (by omega)
  | posInf =>
    refine ⟨max k 1, fun m n hm hn => ?_⟩
    simp only [Near] at hm hn
    calc k ≤ 1 * n := by omega
      _ ≤ m * n := Int.mul_le_mul_of_nonneg_right (by omega) (by omega)

/-- The sign of a negative factor is moved out, so only the other factors are to be looked at. -/
theorem tends_mul_posInf (x : Extended) : Tends (· * ·) x posInf (x * posInf) := by
  rcases le_total 0 x with hx | hx
  · exact tends_mul_posInf_of_nonneg hx
  · have h := (tends_mul_posInf_of_nonneg (neg_nonneg_iff.2 hx)).neg_left Int.neg_mul
    rwa [neg_mul, neg_neg, neg_neg] at h

theorem mul_neg (x y : Extended) : x * -y = -(x * y) := by
  rw [mul_comm, neg_mul, mul_comm]

theorem tends_mul_negInf (x : Extended) : Tends (· * ·) x negInf (x * negInf) := by
  have h := (tends_mul_posInf x).neg_right Int.mul_neg
  rwa [← mul_neg, neg_posInf] at h

/-- Products come close to the product, zero times an infinity included. -/
theorem tends_mul (x y : Extended) : Tends (· * ·) x y (x * y) := by
  cases y with
  | negInf => exact tends_mul_negInf x
  | posInf => exact tends_mul_posInf x
  | finite b =>
    cases x with
    | finite a => exact tends_finite (· * ·) a b
    | negInf =>
      rw [mul_comm]
      simpa only [Int.mul_comm] using (tends_mul_negInf (finite b)).swap
    | posInf =>
      rw [mul_comm]
      simpa only [Int.mul_comm] using (tends_mul_posInf (finite b)).swap

/-! ## Quotients -/

theorem quotient_finite_infinite (r : QuotientRounding) (a : Int) (hy : y.isFinite = false) :
    quotient r (finite a) y = 0 := by
  cases y with
  | finite b => cases hy
  | negInf | posInf => rfl

theorem quotient_of_infinite (r : QuotientRounding) (hx : x.isFinite = false) :
    quotient r x y = infinityOf (x.sign * y.sign) := by
  cases x with
  | finite a => cases hx
  | negInf | posInf => rfl

/-- A dividend is nothing next to a large divisor. -/
theorem tends_tdiv_infinite (a : Int) (hy : y.isFinite = false) :
    Tends Int.tdiv (finite a) y 0 := by
  have hposInf : Tends Int.tdiv (finite a) posInf 0 := by
    refine fun _ => ⟨a.natAbs + 1, ?_⟩
    rintro m n rfl hn
    simp only [Near] at hn
    show m.tdiv n = 0
    rcases Int.le_total 0 m with hm | hm
    · exact Int.tdiv_eq_zero_of_lt hm (by omega)
    · have h := Int.tdiv_eq_zero_of_lt (a := -m) (b := n) (by omega) (by omega)
      rw [Int.neg_tdiv] at h
      omega
  cases y with
  | finite b => cases hy
  | posInf => exact hposInf
  | negInf => exact hposInf.neg_right fun m n => Int.tdiv_neg m n

/-- Large dividends have large quotients by one divisor. -/
theorem tends_infinite_tdiv {b : Int} (hb : b ≠ 0) (hx : x.isFinite = false) :
    Tends Int.tdiv x (finite b) (infinityOf (x.sign * b.sign)) := by
  have hpos {b : Int} (hb : 0 < b) : Tends Int.tdiv posInf (finite b) posInf := by
    refine fun k => ⟨max (k * b) 0, ?_⟩
    rintro m n hm rfl
    simp only [Near] at hm
    show k ≤ m.tdiv n
    rw [Int.tdiv_eq_ediv_of_nonneg (by omega), Int.le_ediv_iff_mul_le hb]
    omega
  have hposInf : Tends Int.tdiv posInf (finite b) (infinityOf b.sign) := by
    rcases lt_or_gt_of_ne hb with hneg | hb
    · have h := (hpos (Int.neg_pos.2 hneg)).neg_right fun m n => Int.tdiv_neg m n
      rw [infinityOf_of_neg (Int.sign_neg_iff.2 hneg)]
      rwa [neg_finite, Int.neg_neg] at h
    · rw [infinityOf_of_pos (Int.sign_pos_iff.2 hb)]
      exact hpos hb
  cases x with
  | finite a => cases hx
  | posInf => simpa only [sign, Int.one_mul] using hposInf
  | negInf =>
    have h := hposInf.neg_left fun m n => Int.neg_tdiv m n
    rwa [← infinityOf_neg, ← Int.neg_one_mul] at h

/-! ## Limits -/

/-- Integers of a set come as close to a number as one likes. -/
def IsLimit (S : Set Int) (x : Extended) : Prop := ∀ k, ∃ n ∈ S, Near k x n

theorem isLimit_of_mem {S : Set Int} (h : n ∈ S) : IsLimit S (finite n) :=
  fun _ => ⟨n, h, rfl⟩

/-- Members of two sets that come close to two numbers have results that come close to a third one.
-/
theorem Tends.isLimit {A B S : Set Int} (h : Tends f x y z) (hx : IsLimit A x) (hy : IsLimit B y)
    (hf : ∀ m ∈ A, ∀ n ∈ B, f m n ∈ S) : IsLimit S z := by
  intro k
  obtain ⟨j, hj⟩ := h k
  obtain ⟨m, hm, hmx⟩ := hx j
  obtain ⟨n, hn, hny⟩ := hy j
  exact ⟨f m n, hf m hm n hn, hj m n hmx hny⟩

end Extended

end Overapprox
