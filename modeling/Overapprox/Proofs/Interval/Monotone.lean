import Overapprox.Proofs.Env.Assignment
import Overapprox.Proofs.Env.Evaluation
import Overapprox.Proofs.Interval.Membership

/-!
# Evaluation and strong assignment are monotone

Larger operands never give a smaller result, whichever branches the two evaluations take: an operand
that is zero alone stays one or comes to lie among other integers, a divisor may grow to contain
zero, and an operand may grow to top. The corners of an interval are numbers of every interval that
includes it, so the results that are spanned by corners are ordered. The infinities need no care,
not even as the sum of opposite ones.

* `Bounds.includes_mul`, `Bounds.includes_div`: products and quotients of larger intervals.
* `Interval.unary_mono`, `Interval.binary_mono`: the operators, across all their branches.
* `ValueEnv.eval_mono`: evaluation in a larger environment.
* `ValueEnv.eval_and_assign_mono`: the same with the assignments to strong identifiers.
-/

namespace Overapprox

open AbstractLattice
open scoped LawfulLattice

/-! ## Bounds -/

namespace Bounds

variable {a a' b b' c : Bounds}

theorem contains_of_includes {x : Extended} (h : b.includes a = true) (hx : a.contains x = true) :
    b.contains x = true := by
  obtain ⟨hlow, hhigh⟩ := includes_iff.1 h
  obtain ⟨hxlow, hxhigh⟩ := contains_iff.1 hx
  exact contains_iff.2 ⟨hlow.trans hxlow, hxhigh.trans hhigh⟩

/-- Sums of larger ranges are larger. -/
theorem includes_add (ha : a'.includes a = true) (hb : b'.includes b = true) :
    (a' + b').includes (a + b) = true := by
  obtain ⟨halow, hahigh⟩ := includes_iff.1 ha
  obtain ⟨hblow, hbhigh⟩ := includes_iff.1 hb
  exact includes_iff.2 ⟨Extended.add_le_add halow hblow, Extended.add_le_add hahigh hbhigh⟩

theorem includes_sub (ha : a'.includes a = true) (hb : b'.includes b = true) :
    (a' - b').includes (a - b) = true := by
  obtain ⟨halow, hahigh⟩ := includes_iff.1 ha
  obtain ⟨hblow, hbhigh⟩ := includes_iff.1 hb
  exact includes_iff.2 ⟨Extended.sub_le_sub halow hbhigh, Extended.sub_le_sub hahigh hblow⟩

/-- An interval that is spanned by corners lies within every interval that they lie in. -/
theorem includes_ofCorners {lower upper : Extended → Extended → Extended}
    (h : lower a.low b.low ≤ upper a.low b.low)
    (hcorners : ∀ x y, a.contains x = true → b.contains y = true →
      c.low ≤ lower x y ∧ upper x y ≤ c.high) :
    c.includes (ofCorners lower upper a b h) = true := by
  have hll := hcorners _ _ a.contains_low b.contains_low
  have hlh := hcorners _ _ a.contains_low b.contains_high
  have hhl := hcorners _ _ a.contains_high b.contains_low
  have hhh := hcorners _ _ a.contains_high b.contains_high
  exact includes_iff.2 ⟨le_min (le_min hll.1 hlh.1) (le_min hhl.1 hhh.1),
    max_le (max_le hll.2 hlh.2) (max_le hhl.2 hhh.2)⟩

/-- Products of larger ranges are larger, since every corner lies in the larger product. -/
theorem includes_mul (ha : a'.includes a = true) (hb : b'.includes b = true) :
    (a' * b').includes (a * b) = true :=
  includes_ofCorners _ fun _ _ hx hy =>
    contains_iff.1 (mul_mem (contains_of_includes ha hx) (contains_of_includes hb hy))

/-- A divisor that grows to contain zero makes the quotient everything. -/
theorem includes_div (rounding : DivisionRounding) (ha : a'.includes a = true)
    (hb : b'.includes b = true) : (a'.div rounding b').includes (a.div rounding b) = true := by
  cases hzero : b'.contains 0 with
  | true =>
    have heverything : a'.div rounding b' = infinite := if_pos hzero
    rw [heverything]
    exact includes_of_isInfinite rfl _
  | false =>
    have hzero' : b.contains 0 = false :=
      Bool.eq_false_iff.2 fun h => Bool.eq_false_iff.1 hzero (contains_of_includes hb h)
    have hquotient (r : QuotientRounding) {x y : Extended} (hx : a.contains x = true)
        (hy : b.contains y = true) := contains_iff.1
      (quotient_mem r (contains_of_includes ha hx) (contains_of_includes hb hy) hzero)
    unfold div
    rw [if_neg (Bool.eq_false_iff.1 hzero), if_neg (Bool.eq_false_iff.1 hzero')]
    cases rounding with
    | towardZero => exact includes_ofCorners _ fun _ _ hx hy => hquotient .towardZero hx hy
    | outward =>
      exact includes_ofCorners _ fun _ _ hx hy =>
        ⟨(hquotient .down hx hy).1, (hquotient .up hx hy).2⟩

theorem contains_zero_div (rounding : DivisionRounding) (b : Bounds) (h : a.contains 0 = true) :
    (a.div rounding b).contains 0 = true := by
  cases hzero : b.contains 0 with
  | true =>
    have heverything : a.div rounding b = infinite := if_pos hzero
    rw [heverything]
    rfl
  | false =>
    have hquotient (r : QuotientRounding) := quotient_mem r h b.contains_low hzero
    simp only [Extended.quotient_zero] at hquotient
    unfold div
    rw [if_neg (Bool.eq_false_iff.1 hzero)]
    cases rounding with
    | towardZero => exact hquotient .towardZero
    | outward =>
      obtain ⟨hdown, -⟩ := contains_iff.1 (hquotient .down)
      obtain ⟨-, hup⟩ := contains_iff.1 (hquotient .up)
      exact contains_iff.2 ⟨hdown, hup⟩

theorem contains_zero_of_isZero (h : a.isZero = true) : a.contains 0 = true := by
  rw [isZero, Bool.and_eq_true, beq_iff_eq, beq_iff_eq] at h
  rw [contains_iff, h.1, h.2]
  exact ⟨le_rfl, le_rfl⟩

/-- Nothing but zero alone lies within zero alone. -/
theorem isZero_of_includes (h : b.includes a = true) (hb : b.isZero = true) : a.isZero = true := by
  rw [isZero, Bool.and_eq_true, beq_iff_eq, beq_iff_eq] at hb ⊢
  obtain ⟨hlow, hhigh⟩ := includes_iff.1 h
  rw [hb.1] at hlow
  rw [hb.2] at hhigh
  exact ⟨le_antisymm (a.low_le_high.trans hhigh) hlow, le_antisymm hhigh (hlow.trans a.low_le_high)⟩

end Bounds

/-! ## Intervals -/

namespace Interval

variable {opts : Options} {v v' w w' : Interval}

theorem range_le_range {a b : Bounds} : range a ≤ range b ↔ b.includes a = true := by
  rw [le_iff_included]
  exact included_range_iff

/-- Below a range that is not bottom there are only ranges that it includes. -/
theorem exists_range_of_le (h : v ≤ w) (hne : isBottom v = false) :
    ∃ a b, v = range a ∧ w = range b ∧ b.includes a = true := by
  rw [le_iff_included] at h
  cases h with
  | bottom => cases hne
  | range h => exact ⟨_, _, rfl, rfl, h⟩

/-- A result that is top for some operands, where a larger one is top for more of them. -/
theorem top_or_mono {t t' : Bool} (ht : t = true → t' = true) (h : v ≤ w) :
    (if t then top else v) ≤ if t' then top else w := by
  cases t' with
  | true => exact le_of_isTop rfl
  | false =>
    have ht' : t = false := Bool.eq_false_iff.2 fun h => Bool.false_ne_true (ht h)
    rw [ht']
    exact h

theorem le_top_or {t : Bool} (v : Interval) : v ≤ if t then top else v := by
  cases t with
  | true => exact le_of_isTop rfl
  | false => exact le_rfl

theorem isTop_of_includes {a b : Bounds} (h : b.includes a = true) (ha : isTop (range a) = true) :
    isTop (range b) = true :=
  Bounds.isInfinite_of_includes h ha

/-- Where an operand is top, so is the larger one. -/
theorem isTop_or_of_includes {a a' b b' : Bounds} (ha : a'.includes a = true)
    (hb : b'.includes b = true) (h : (isTop (range a) || isTop (range b)) = true) :
    (isTop (range a') || isTop (range b')) = true := by
  rw [Bool.or_eq_true] at h ⊢
  exact h.imp (isTop_of_includes ha) (isTop_of_includes hb)

theorem singleton_zero_le_range {b : Bounds} (h : b.contains 0 = true) : singleton 0 ≤ range b :=
  mem_iff_singleton_le.1 (mem_range.2 h)

/-! ### Operators -/

theorem unary_mono {op : UnaryOp} (h : v ≤ w) (hne : isBottom v = false) :
    unary op v ≤ unary op w := by
  obtain ⟨a, b, rfl, rfl, hab⟩ := exists_range_of_le h hne
  cases op with
  | neg =>
    exact top_or_mono (isTop_of_includes hab)
      (range_le_range.2 (Bounds.includes_mul hab (Bounds.includes_refl _)))
  | not | strlen => exact le_rfl

/-- A product with zero alone is zero alone, which lies among the products of larger operands. -/
theorem mul_mono {a a' b b' : Bounds} (ha : a'.includes a = true) (hb : b'.includes b = true) :
    (if a.isZero || b.isZero then singleton 0 else range (a * b)) ≤
      if a'.isZero || b'.isZero then singleton 0 else range (a' * b') := by
  cases hzero' : a'.isZero || b'.isZero with
  | true =>
    have hzero : (a.isZero || b.isZero) = true := by
      rw [Bool.or_eq_true] at hzero' ⊢
      exact hzero'.imp (Bounds.isZero_of_includes ha) (Bounds.isZero_of_includes hb)
    rw [hzero]
    exact le_rfl
  | false =>
    split
    case isTrue hzero =>
      refine singleton_zero_le_range ?_
      rcases Bool.or_eq_true_iff.1 hzero with hzero | hzero
      · have hmem := Bounds.mul_mem
          (Bounds.contains_of_includes ha (Bounds.contains_zero_of_isZero hzero))
          (Bounds.contains_of_includes hb b.contains_low)
        rwa [Extended.zero_mul] at hmem
      · have hmem := Bounds.mul_mem (Bounds.contains_of_includes ha a.contains_low)
          (Bounds.contains_of_includes hb (Bounds.contains_zero_of_isZero hzero))
        rwa [Extended.mul_comm, Extended.zero_mul] at hmem
    case isFalse => exact range_le_range.2 (Bounds.includes_mul ha hb)

/-- Zero alone over something else is zero alone, which lies among the quotients of larger operands
unless these are by zero alone. -/
theorem div_mono (rounding : DivisionRounding) {a a' b b' : Bounds} (ha : a'.includes a = true)
    (hb : b'.includes b = true) :
    (if b.isZero then bottom
      else if a.isZero then singleton 0
      else if isTop (range a) || isTop (range b) then top
      else range (a.div rounding b)) ≤
    if b'.isZero then bottom
      else if a'.isZero then singleton 0
      else if isTop (range a') || isTop (range b') then top
      else range (a'.div rounding b') := by
  cases hb0 : b.isZero with
  | true => exact le_of_isBottom rfl
  | false =>
    have hb0' : b'.isZero = false :=
      Bool.eq_false_iff.2 fun h => Bool.eq_false_iff.1 hb0 (Bounds.isZero_of_includes hb h)
    rw [hb0']
    cases ha0' : a'.isZero with
    | true =>
      rw [Bounds.isZero_of_includes ha ha0']
      exact le_rfl
    | false =>
      cases ha0 : a.isZero with
      | true =>
        have hmem : a'.contains 0 = true :=
          Bounds.contains_of_includes ha (Bounds.contains_zero_of_isZero ha0)
        -- Zero alone becomes a range around zero, whose quotients have zero among them.
        exact (singleton_zero_le_range (Bounds.contains_zero_div rounding b' hmem)).trans
          (le_top_or (range (a'.div rounding b')))
      | false =>
        exact top_or_mono (isTop_or_of_includes ha hb)
          (range_le_range.2 (Bounds.includes_div rounding ha hb))

/-- All operators on two operands keep the order of values. -/
theorem binary_mono (opts : Options) {op : BinaryOp} (hv : v ≤ v') (hw : w ≤ w')
    (hvne : isBottom v = false) (hwne : isBottom w = false) :
    binary opts op v w ≤ binary opts op v' w' := by
  obtain ⟨a, a', rfl, rfl, ha⟩ := exists_range_of_le hv hvne
  obtain ⟨b, b', rfl, rfl, hb⟩ := exists_range_of_le hw hwne
  have htop := isTop_or_of_includes ha hb
  cases op with
  | add => exact top_or_mono htop (range_le_range.2 (Bounds.includes_add ha hb))
  | sub => exact top_or_mono htop (range_le_range.2 (Bounds.includes_sub ha hb))
  | mul => exact top_or_mono htop (mul_mono ha hb)
  | div => exact div_mono opts.divisionRounding ha hb
  | rem | eq | ne | lt | le | gt | ge | and | or | concat => exact top_or_mono htop le_rfl

/-- Nothing is known of a value that has three operands, once they have values at all. -/
theorem monotoneOperators (opts : Options) : ValueDomain.MonotoneOperators Interval opts where
  unary _ hv hne := unary_mono hv hne
  binary _ hv hw hvne hwne := binary_mono opts hv hw hvne hwne
  ternary _ _ _ _ _ _ _ := le_rfl

end Interval

/-! ## Environments -/

namespace ValueEnv

variable {opts : Options} {a b : ValueEnv Interval}

/-- Larger environments give every expression a larger value. -/
theorem eval_mono (opts : Options) (h : a ≤ b) (e : ValueExpr) :
    ValueDomain.eval opts a e ≤ ValueDomain.eval opts b e :=
  (Interval.monotoneOperators opts).eval_le_eval fun x _ _ => get_le_get h x

theorem put_le_put {v w : Interval} (h : a ≤ b) (ha : isBottom a = false) (hvw : v ≤ w)
    (x : Identifier) : a.put x v ≤ b.put x w := by
  have hb := LawfulLattice.isBottom_eq_false_of_le h ha
  refine le_of_get_le rfl fun k => ?_
  by_cases hk : compare k x = .eq
  · rw [get_put_of_eq a hk, get_put_of_eq b hk]
    exact hvw
  · rw [get_put_of_ne v hk (function_ne_bottom ha), get_put_of_ne w hk (function_ne_bottom hb)]
    exact get_le_get h k

theorem bind_of_isWeak_eq_false {x : Identifier} (hx : x.isWeak = false) (env : ValueEnv Interval)
    (v : Interval) : env.bind x v = if isBottom v then bottom else env.put x v := by
  rw [bind, hx, Bool.false_and, if_neg Bool.false_ne_true]

/-- Binding a larger value in a larger environment gives a larger one, unless the identifier is
weak. -/
theorem bind_mono {x : Identifier} (hx : x.isWeak = false) {v w : Interval} (h : a ≤ b)
    (ha : isBottom a = false) (hvw : v ≤ w) : a.bind x v ≤ b.bind x w := by
  rw [bind_of_isWeak_eq_false hx, bind_of_isWeak_eq_false hx]
  split
  case isTrue => exact le_of_isBottom rfl
  case isFalse hv =>
    rw [Bool.not_eq_true] at hv
    have hw := LawfulLattice.isBottom_eq_false_of_le hvw hv
    rw [if_neg (Bool.eq_false_iff.1 hw)]
    exact put_le_put h ha hvw x

/-- Evaluation is monotone, and so is the assignment to an identifier that stands for one concrete
location: it is followed in both environments or in none. -/
theorem eval_and_assign_mono (opts : Options) (h : a ≤ b) (e : ValueExpr) :
    ValueDomain.eval opts a e ≤ ValueDomain.eval opts b e ∧
      ∀ x : Identifier, x.isWeak = false → a.assign opts x e ≤ b.assign opts x e := by
  refine ⟨eval_mono opts h e, fun x hx => ?_⟩
  cases ha : isBottom a with
  | true =>
    have hassign : a.assign opts x e = a := if_pos (by rw [ha]; rfl)
    rw [hassign]
    exact le_of_isBottom ha
  | false =>
    have hb := LawfulLattice.isBottom_eq_false_of_le h ha
    rw [assign_eq ha, assign_eq hb]
    split
    case isTrue => exact bind_mono hx h ha (eval_mono opts h e)
    case isFalse => exact h

/-- Zero over a positive divisor, and something else over a divisor that may be zero. -/
theorem eval_and_assign_mono_of_quotient :
    ∃ a b : ValueEnv Interval, ∃ e : ValueExpr, a ≤ b ∧
      ValueDomain.eval {} a e = .singleton 0 ∧ isTop (ValueDomain.eval {} b e) = true ∧
      ValueDomain.eval {} a e ≤ ValueDomain.eval {} b e ∧
      a.assign {} (intVar "z") e ≤ b.assign {} (intVar "z") e := by
  have h : ((∅ : ValueEnv Interval).put (intVar "x") (.singleton 0)).put (intVar "y")
        (.ofBounds (.finite 2) (.finite 3)) ≤
      ((∅ : ValueEnv Interval).put (intVar "x") (.ofBounds 0 (.finite 6))).put (intVar "y")
        (.ofBounds (.finite (-1)) (.finite 3)) := by
    rw [le_def]
    decide
  have hmono := eval_and_assign_mono {} h
    (.binary .div (.ofIdentifier (intVar "x")) (.ofIdentifier (intVar "y")) { type := .int32 })
  exact ⟨_, _, _, h, by decide, by decide, hmono.1, hmono.2 (intVar "z") rfl⟩

end ValueEnv

end Overapprox
