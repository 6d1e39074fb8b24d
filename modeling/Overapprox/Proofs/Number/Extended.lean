import Mathlib.Algebra.Order.Ring.Int
import Mathlib.Order.Interval.Set.UnorderedInterval
import Mathlib.Order.Monotone.Basic
import Overapprox.Number.Extended

/-!
# Arithmetic of extended integers is monotone

The extended integers are a linear order, and products and quotients grow or shrink with each
operand, depending on the sign of the other one. The negative signs are reduced to the positive
ones by the reflection `-a`.

* `mul_le_mul_left`, `mul_le_mul_left_of_nonpos`: a product by a number of a known sign.
* `quotient_le_quotient_left`: a quotient by a positive number grows with the dividend.
* `quotient_le_quotient_right`: a quotient of a number that is not negative shrinks as the positive
  divisor grows. An infinite divisor gives the limit, zero.
* `mul_mem_uIcc`, `quotient_mem_uIcc_left`, `quotient_mem_uIcc_right`: between the ends of an
  interval an operation stays between its values at the ends.
-/

namespace Overapprox

/-- The rounding that a reflection turns another one into. -/
def QuotientRounding.reflect : QuotientRounding → QuotientRounding
  | down => up
  | up => down
  | towardZero => towardZero

namespace Extended

/-! ## The linear order -/

theorem compare_finite (m n : Int) : compare (finite m) (finite n) = compare m n := by
  show compare [Atom.number 1, .number m] [Atom.number 1, .number n] = compare m n
  rw [List.compare_eq_compareLex, List.compareLex_cons_cons, List.compareLex_cons_cons,
    List.compareLex_nil_nil, Ordering.then_eq]
  have h : compare (Atom.number 1) (Atom.number 1) = .eq := Std.ReflOrd.compare_self
  rw [h]
  rfl

@[simp] theorem finite_lt_finite {m n : Int} : finite m < finite n ↔ m < n := by
  show ¬ finite n ≤ finite m ↔ m < n
  rw [finite_le_finite]
  omega

instance : LinearOrder Extended where
  le_refl := le_refl
  le_trans _ _ _ := le_trans
  le_antisymm _ _ := le_antisymm
  le_total := le_total
  lt_iff_le_not_ge a b := ⟨fun h => ⟨(le_total a b).resolve_right h, h⟩, And.right⟩
  toDecidableLE := inferInstance
  min_def _ _ := rfl
  max_def _ _ := rfl
  compare_eq_compareOfLessAndEq a b := by
    cases a with
    | finite m =>
      cases b with
      | finite n =>
        rw [compare_finite]
        simp [compare, compareOfLessAndEq]
      | _ => rfl
    | _ => cases b <;> rfl

theorem zero_eq : (0 : Extended) = finite 0 := rfl

@[simp] theorem zero_le_finite {n : Int} : 0 ≤ finite n ↔ 0 ≤ n := finite_le_finite

@[simp] theorem finite_le_zero {n : Int} : finite n ≤ 0 ↔ n ≤ 0 := finite_le_finite

@[simp] theorem zero_lt_finite {n : Int} : 0 < finite n ↔ 0 < n := finite_lt_finite

@[simp] theorem finite_add (m n : Int) : finite m + finite n = finite (m + n) := rfl

@[simp] theorem finite_sub (m n : Int) : finite m - finite n = finite (m - n) := rfl

@[simp] theorem finite_mul (m n : Int) : finite m * finite n = finite (m * n) := rfl

/-! ## Signs -/

theorem infinityOf_of_pos {s : Int} (h : 0 < s) : infinityOf s = posInf := by
  unfold infinityOf
  rw [if_pos h]

theorem infinityOf_of_neg {s : Int} (h : s < 0) : infinityOf s = negInf := by
  unfold infinityOf
  rw [if_neg (by omega), if_pos h]

@[simp] theorem infinityOf_zero : infinityOf 0 = 0 := rfl

/-- Infinities are ordered like their signs, with zero between them. -/
theorem infinityOf_mono {s t : Int} (h : s ≤ t) : infinityOf s ≤ infinityOf t := by
  rcases lt_trichotomy s 0 with hs | rfl | hs
  · rw [infinityOf_of_neg hs]
    exact negInf_le _
  · rcases eq_or_lt_of_le h with rfl | ht
    · exact le_refl _
    · rw [infinityOf_of_pos ht]
      exact le_posInf _
  · rw [infinityOf_of_pos (hs.trans_le h)]
    exact le_posInf _

theorem sign_mono {a b : Extended} (h : a ≤ b) : a.sign ≤ b.sign := by
  cases a <;> cases b <;> simp_all [sign] <;> grind

theorem sign_pos_of_pos {a : Extended} (h : 0 < a) : 0 < a.sign := by
  cases a with
  | negInf => exact absurd h (by decide)
  | finite n => exact Int.sign_pos_iff.2 (zero_lt_finite.1 h)
  | posInf => decide

theorem sign_eq_one {a : Extended} (h : 0 < a) : a.sign = 1 := by
  cases a with
  | negInf => exact absurd h (by decide)
  | finite n => exact Int.sign_eq_one_of_pos (zero_lt_finite.1 h)
  | posInf => rfl

theorem sign_eq_neg_one {a : Extended} (h : a < 0) : a.sign = -1 := by
  cases a with
  | negInf => rfl
  | finite n => exact Int.sign_eq_neg_one_of_neg (finite_lt_finite.1 h)
  | posInf => exact absurd h (by decide)

/-! ## Reflection -/

/-- The number on the other side of zero. -/
protected def neg : Extended → Extended
  | negInf => posInf
  | finite n => finite (-n)
  | posInf => negInf

instance : Neg Extended := ⟨Extended.neg⟩

@[simp] theorem neg_negInf : -negInf = posInf := rfl

@[simp] theorem neg_posInf : -posInf = negInf := rfl

@[simp] theorem neg_finite (n : Int) : -finite n = finite (-n) := rfl

@[simp] theorem neg_zero : -(0 : Extended) = 0 := rfl

@[simp] theorem neg_neg (a : Extended) : - -a = a := by
  cases a <;> simp

/-- Changing the sign turns the order around. -/
@[simp] theorem neg_le_neg_iff {a b : Extended} : -a ≤ -b ↔ b ≤ a := by
  cases a <;> cases b <;> simp

theorem neg_nonneg_iff {a : Extended} : 0 ≤ -a ↔ a ≤ 0 := by
  simpa using neg_le_neg_iff (a := 0) (b := a)

theorem neg_pos_iff {a : Extended} : 0 < -a ↔ a < 0 := by
  rw [lt_iff_not_ge, lt_iff_not_ge, not_iff_not]
  simpa using neg_le_neg_iff (a := a) (b := 0)

/-- The infinity of the opposite sign is the opposite infinity. -/
theorem infinityOf_neg (s : Int) : infinityOf (-s) = -infinityOf s := by
  rcases lt_trichotomy s 0 with hs | rfl | hs
  · rw [infinityOf_of_neg hs, infinityOf_of_pos (by omega), neg_negInf]
  · rfl
  · rw [infinityOf_of_pos hs, infinityOf_of_neg (by omega), neg_posInf]

theorem neg_eq_posInf_iff {n : Extended} : -n = posInf ↔ n = negInf := by cases n <;> simp

theorem neg_eq_negInf_iff {n : Extended} : -n = negInf ↔ n = posInf := by cases n <;> simp

/-! ## Sums -/

section Sums

variable {m n : Extended}

/-- One number is `-∞` and the other one `+∞`. -/
def Opposite (m n : Extended) : Prop := m = .negInf ∧ n = .posInf ∨ m = .posInf ∧ n = .negInf

/-- Two numbers of which neither is `+∞` are not opposite infinities. -/
theorem not_opposite_of_ne_posInf (hm : m ≠ .posInf) (hn : n ≠ .posInf) : ¬ Opposite m n := by
  rintro (⟨-, h⟩ | ⟨h, -⟩)
  · exact hn h
  · exact hm h

theorem not_opposite_of_ne_negInf (hm : m ≠ .negInf) (hn : n ≠ .negInf) : ¬ Opposite m n := by
  rintro (⟨h, -⟩ | ⟨-, h⟩)
  · exact hm h
  · exact hn h

end Sums

/-! ## Products -/

theorem mul_comm (a b : Extended) : a * b = b * a := by
  show a.mul b = b.mul a
  cases a <;> cases b <;> simp [Extended.mul, Int.mul_comm]

/-- A sign may be moved out of a product, also where a factor is infinite. -/
theorem neg_mul (a b : Extended) : -a * b = -(a * b) := by
  show (-a).mul b = -(a.mul b)
  cases a <;> cases b <;> simp [Extended.mul, sign, ← infinityOf_neg]

theorem zero_mul (a : Extended) : 0 * a = 0 := by
  show (finite 0).mul a = finite 0
  cases a <;> simp [Extended.mul, sign, zero_eq]

theorem mul_negInf_of_pos {c : Extended} (hc : 0 < c) : c * negInf = negInf := by
  have hs := sign_pos_of_pos hc
  show c.mul negInf = negInf
  cases c <;> exact infinityOf_of_neg (by change _ * (-1 : Int) < 0; omega)

theorem mul_posInf_of_pos {c : Extended} (hc : 0 < c) : c * posInf = posInf := by
  have hs := sign_pos_of_pos hc
  show c.mul posInf = posInf
  cases c <;> exact infinityOf_of_pos (by change 0 < _ * (1 : Int); omega)

/-- A product with an infinity only depends on the sign of the other factor. -/
theorem posInf_mul (a : Extended) : posInf * a = infinityOf a.sign := by
  show posInf.mul a = _
  cases a <;> simp [Extended.mul, sign]

/-- A product by a number that is not negative grows with the other factor. -/
theorem mul_le_mul_left {a b c : Extended} (hc : 0 ≤ c) (h : a ≤ b) : c * a ≤ c * b := by
  rcases eq_or_lt_of_le hc with rfl | hc
  · rw [zero_mul, zero_mul]
  cases a with
  | negInf =>
    rw [mul_negInf_of_pos hc]
    exact negInf_le _
  | posInf =>
    cases b <;> simp_all
  | finite m =>
    cases b with
    | negInf => simp at h
    | posInf =>
      rw [mul_posInf_of_pos hc]
      exact le_posInf _
    | finite n =>
      cases c with
      | negInf => exact absurd hc (by decide)
      | finite k =>
        rw [finite_mul, finite_mul, finite_le_finite]
        exact Int.mul_le_mul_of_nonneg_left (finite_le_finite.1 h) (zero_lt_finite.1 hc).le
      | posInf =>
        rw [posInf_mul, posInf_mul]
        exact infinityOf_mono (sign_mono h)

/-- A product by a number that is not positive shrinks with the other factor. -/
theorem mul_le_mul_left_of_nonpos {a b c : Extended} (hc : c ≤ 0) (h : a ≤ b) :
    c * b ≤ c * a := by
  have hneg := mul_le_mul_left (neg_nonneg_iff.2 hc) h
  rw [neg_mul, neg_mul] at hneg
  exact neg_le_neg_iff.1 hneg

/-! ## Quotients of integers -/

variable {r : QuotientRounding}

/-- Quotients of opposite numbers are opposite, when the direction of rounding is turned around too.
-/
theorem roundedQuotient_reflect (r : QuotientRounding) (a b : Int) :
    roundedQuotient r.reflect (-a) b = -roundedQuotient r a b := by
  cases r <;> simp [QuotientRounding.reflect, roundedQuotient]

/-- Changing both signs does not change a quotient, whatever the rounding. -/
theorem roundedQuotient_neg_neg (r : QuotientRounding) (a b : Int) :
    roundedQuotient r (-a) (-b) = roundedQuotient r a b := by
  cases r with
  | down => exact Int.neg_fdiv_neg a b
  | up => simpa [roundedQuotient] using Int.neg_fdiv_neg (-a) b
  | towardZero => exact Int.neg_tdiv_neg a b

theorem roundedQuotient_zero (r : QuotientRounding) (b : Int) : roundedQuotient r 0 b = 0 := by
  cases r <;> simp [roundedQuotient]

/-- A quotient by a positive divisor grows with its dividend, whatever the rounding. -/
theorem roundedQuotient_mono {a a' b : Int} (hb : 0 < b) (h : a ≤ a') :
    roundedQuotient r a b ≤ roundedQuotient r a' b := by
  cases r with
  | down =>
    simp only [roundedQuotient, Int.fdiv_eq_ediv_of_nonneg _ hb.le]
    exact Int.ediv_le_ediv hb h
  | up =>
    simp only [roundedQuotient, Int.fdiv_eq_ediv_of_nonneg _ hb.le]
    have := Int.ediv_le_ediv hb (Int.neg_le_neg h)
    omega
  | towardZero => exact Int.tdiv_le_tdiv hb h

/-- A floor quotient gets closer to zero, or stays, as the divisor grows. -/
theorem ediv_le_ediv_of_le {a d e : Int} (ha : 0 ≤ a) (hd : 0 < d) (h : d ≤ e) :
    a / e ≤ a / d := by
  have he : 0 < e := hd.trans_le h
  rw [Int.le_ediv_iff_mul_le hd]
  calc a / e * d ≤ a / e * e := Int.mul_le_mul_of_nonneg_left h (Int.ediv_nonneg ha he.le)
    _ ≤ a := Int.ediv_mul_le a he.ne'

theorem neg_ediv_le_neg_ediv_of_le {a d e : Int} (ha : 0 ≤ a) (hd : 0 < d) (h : d ≤ e) :
    -a / d ≤ -a / e := by
  have he : 0 < e := hd.trans_le h
  have hq : -a / d ≤ 0 := Int.ediv_nonpos_of_nonpos_of_neg (by omega) hd
  rw [Int.le_ediv_iff_mul_le he]
  calc -a / d * e ≤ -a / d * d := Int.mul_le_mul_of_nonpos_left hq h
    _ ≤ -a := Int.ediv_mul_le (-a) hd.ne'

/-- A quotient of a dividend that is not negative falls as its divisor grows. -/
theorem roundedQuotient_anti {a d e : Int} (ha : 0 ≤ a) (hd : 0 < d) (h : d ≤ e) :
    roundedQuotient r a e ≤ roundedQuotient r a d := by
  have he : 0 < e := hd.trans_le h
  cases r with
  | down =>
    simp only [roundedQuotient, Int.fdiv_eq_ediv_of_nonneg _ hd.le,
      Int.fdiv_eq_ediv_of_nonneg _ he.le]
    exact ediv_le_ediv_of_le ha hd h
  | up =>
    simp only [roundedQuotient, Int.fdiv_eq_ediv_of_nonneg _ hd.le,
      Int.fdiv_eq_ediv_of_nonneg _ he.le]
    exact Int.neg_le_neg (neg_ediv_le_neg_ediv_of_le ha hd h)
  | towardZero =>
    simp only [roundedQuotient, Int.tdiv_eq_ediv_of_nonneg ha]
    exact ediv_le_ediv_of_le ha hd h

/-! ## Quotients -/

/-- The same for extended numbers: opposite dividends have opposite quotients. -/
theorem quotient_reflect (r : QuotientRounding) (a b : Extended) :
    quotient r.reflect (-a) b = -quotient r a b := by
  cases a <;> cases b <;>
    simp [quotient, roundedQuotient_reflect, sign, ← infinityOf_neg]

theorem quotient_neg_neg (r : QuotientRounding) (a b : Extended) :
    quotient r (-a) (-b) = quotient r a b := by
  cases a <;> cases b <;> simp [quotient, roundedQuotient_neg_neg, sign]

theorem quotient_zero (r : QuotientRounding) (b : Extended) : quotient r 0 b = 0 := by
  cases b <;> simp [quotient, roundedQuotient_zero, zero_eq]

theorem quotient_negInf_of_pos {d : Extended} (hd : 0 < d) : quotient r negInf d = negInf := by
  have hs := sign_pos_of_pos hd
  cases d <;> exact infinityOf_of_neg (by change (-1 : Int) * _ < 0; omega)

theorem quotient_posInf_of_pos {d : Extended} (hd : 0 < d) : quotient r posInf d = posInf := by
  have hs := sign_pos_of_pos hd
  cases d <;> exact infinityOf_of_pos (by change 0 < (1 : Int) * _; omega)

/-- A quotient by a positive number grows with the dividend. -/
theorem quotient_le_quotient_left {a b d : Extended} (hd : 0 < d) (h : a ≤ b) :
    quotient r a d ≤ quotient r b d := by
  cases a with
  | negInf =>
    rw [quotient_negInf_of_pos hd]
    exact negInf_le _
  | posInf => cases b <;> simp_all
  | finite m =>
    cases b with
    | negInf => simp at h
    | posInf =>
      rw [quotient_posInf_of_pos hd]
      exact le_posInf _
    | finite n =>
      cases d with
      | finite k =>
        exact finite_le_finite.2
          (roundedQuotient_mono (zero_lt_finite.1 hd) (finite_le_finite.1 h))
      | _ => exact le_refl 0

theorem quotient_nonneg {a d : Extended} (ha : 0 ≤ a) (hd : 0 < d) : 0 ≤ quotient r a d := by
  simpa only [quotient_zero] using quotient_le_quotient_left (r := r) hd ha

/-- A quotient of a number that is not negative shrinks as the positive divisor grows. -/
theorem quotient_le_quotient_right {a d e : Extended} (ha : 0 ≤ a) (hd : 0 < d) (h : d ≤ e) :
    quotient r a e ≤ quotient r a d := by
  have he : 0 < e := hd.trans_le h
  cases a with
  | negInf => exact absurd ha (by decide)
  | posInf => rw [quotient_posInf_of_pos hd]; exact le_posInf _
  | finite m =>
    cases e with
    | negInf => exact absurd he (by decide)
    | posInf => exact quotient_nonneg ha hd
    | finite k =>
      cases d with
      | negInf => exact absurd hd (by decide)
      | posInf => simp at h
      | finite j =>
        exact finite_le_finite.2 (roundedQuotient_anti (zero_le_finite.1 ha)
          (zero_lt_finite.1 hd) (finite_le_finite.1 h))

/-! ## Values at the ends of an interval -/

/-- A function that only grows, or only shrinks, from `l` to `h` stays between its values there. -/
theorem mem_uIcc_of_monotoneOn_or_antitoneOn {f : Extended → Extended} {l h x : Extended}
    (hf : MonotoneOn f (Set.Icc l h) ∨ AntitoneOn f (Set.Icc l h)) (hx : x ∈ Set.Icc l h) :
    f x ∈ Set.uIcc (f l) (f h) := by
  have hl : l ∈ Set.Icc l h := ⟨le_refl l, le_trans hx.1 hx.2⟩
  have hh : h ∈ Set.Icc l h := ⟨le_trans hx.1 hx.2, le_refl h⟩
  rcases hf with hf | hf
  · exact Set.mem_uIcc.2 (.inl ⟨hf hl hx hx.1, hf hx hh hx.2⟩)
  · exact Set.mem_uIcc.2 (.inr ⟨hf hx hh hx.2, hf hl hx hx.1⟩)

/-- The multiples of what lies between two numbers lie between their multiples. -/
theorem mul_mem_uIcc (c : Extended) {l h x : Extended} (hx : x ∈ Set.Icc l h) :
    c * x ∈ Set.uIcc (c * l) (c * h) := by
  refine mem_uIcc_of_monotoneOn_or_antitoneOn ?_ hx
  rcases le_total 0 c with hc | hc
  · exact .inl fun _ _ _ _ hab => mul_le_mul_left hc hab
  · exact .inr fun _ _ _ _ hab => mul_le_mul_left_of_nonpos hc hab

theorem quotient_mem_uIcc_left {d : Extended} (hd : d ≠ 0) {l h x : Extended}
    (hx : x ∈ Set.Icc l h) : quotient r x d ∈ Set.uIcc (quotient r l d) (quotient r h d) := by
  refine mem_uIcc_of_monotoneOn_or_antitoneOn (f := (quotient r · d)) ?_ hx
  rcases lt_or_gt_of_ne hd with hd | hd
  · refine .inr fun a _ b _ hab => ?_
    show quotient r b d ≤ quotient r a d
    rw [← quotient_neg_neg r a, ← quotient_neg_neg r b]
    exact quotient_le_quotient_left (neg_pos_iff.2 hd) (neg_le_neg_iff.2 hab)
  · exact .inl fun _ _ _ _ hab => quotient_le_quotient_left hd hab

/-- The positive divisors, where the sign of the dividend decides between growing and shrinking. -/
theorem quotient_monotoneOn_or_antitoneOn (a : Extended) {l h : Extended} (hl : 0 < l) :
    MonotoneOn (quotient r a) (Set.Icc l h) ∨ AntitoneOn (quotient r a) (Set.Icc l h) := by
  rcases le_total 0 a with ha | ha
  · exact .inr fun d hd e _ hde => quotient_le_quotient_right ha (hl.trans_le hd.1) hde
  · refine .inl fun d hd e _ hde => neg_le_neg_iff.1 ?_
    rw [← quotient_reflect, ← quotient_reflect]
    exact quotient_le_quotient_right (neg_nonneg_iff.2 ha) (hl.trans_le hd.1) hde

/-- The quotients by what lies between two divisors lie between the quotients by those, where the
divisors have one sign. -/
theorem quotient_mem_uIcc_right (a : Extended) {l h x : Extended} (h0 : 0 < l ∨ h < 0)
    (hx : x ∈ Set.Icc l h) : quotient r a x ∈ Set.uIcc (quotient r a l) (quotient r a h) := by
  rcases h0 with hl | hh
  · exact mem_uIcc_of_monotoneOn_or_antitoneOn (quotient_monotoneOn_or_antitoneOn a hl) hx
  · have hneg : -x ∈ Set.Icc (-h) (-l) := ⟨neg_le_neg_iff.2 hx.2, neg_le_neg_iff.2 hx.1⟩
    have hmem := mem_uIcc_of_monotoneOn_or_antitoneOn
      (quotient_monotoneOn_or_antitoneOn (r := r) (-a) (neg_pos_iff.2 hh)) hneg
    rwa [quotient_neg_neg, quotient_neg_neg, quotient_neg_neg, Set.uIcc_comm] at hmem

end Extended

end Overapprox
