import Overapprox.Order.Atom
import Overapprox.Report

/-!
# Integers and the two infinities

Extended integers are ordered with `-∞` first and `+∞` last. Arithmetic follows the bounds of
intervals: zero times an infinity is zero, a finite number over an infinity is zero, and the sum of
opposite infinities is `+∞`.

* `Extended.le_total`, `Extended.le_trans`, `Extended.le_antisymm`: the order is total.
* `Extended.add_le_add`, `Extended.sub_le_sub`: sums grow with both operands, differences with the
  first one.
* `Extended.quotient_down_le_up`: rounding down never exceeds rounding up.
-/

namespace Overapprox

/-- An integer, or one of the two infinities. -/
inductive Extended where
  | negInf
  | finite (n : Int)
  | posInf
deriving DecidableEq, Repr

/-- The direction in which a quotient is rounded. -/
inductive QuotientRounding where
  | down
  | up
  | towardZero
deriving DecidableEq, Repr

namespace Extended

instance (n : Nat) : OfNat Extended n := ⟨finite n⟩

instance : Render Extended where
  render
    | negInf => "-Inf"
    | finite n => toString n
    | posInf => "+Inf"

/-- Whether a number is neither infinity. -/
def isFinite : Extended → Bool
  | finite _ => true
  | _ => false

/-! ## Order -/

instance : SortKey Extended where
  key
    | negInf => [.number 0]
    | finite n => [.number 1, .number n]
    | posInf => [.number 2]

instance : Ord Extended := SortKey.toOrd Extended

instance : Std.TransOrd Extended := SortKey.transCmp

/-- Whether `a` is at most `b`. -/
def atMost : Extended → Extended → Bool
  | negInf, _ => true
  | _, posInf => true
  | finite a, finite b => decide (a ≤ b)
  | _, _ => false

instance : LE Extended := ⟨fun a b => a.atMost b = true⟩

instance : LT Extended := ⟨fun a b => ¬ b ≤ a⟩

instance (a b : Extended) : Decidable (a ≤ b) := inferInstanceAs (Decidable (_ = true))

instance (a b : Extended) : Decidable (a < b) := inferInstanceAs (Decidable (¬ b ≤ a))

instance : Min Extended := ⟨fun a b => if a ≤ b then a else b⟩

instance : Max Extended := ⟨fun a b => if a ≤ b then b else a⟩

@[simp] theorem negInf_le (a : Extended) : negInf ≤ a := rfl

@[simp] theorem le_posInf (a : Extended) : a ≤ posInf := by cases a <;> rfl

@[simp] theorem finite_le_finite {m n : Int} : finite m ≤ finite n ↔ m ≤ n := by
  simp [LE.le, atMost]

@[simp] theorem not_finite_le_negInf (n : Int) : ¬ finite n ≤ negInf := by
  simp [LE.le, atMost]

@[simp] theorem not_posInf_le_finite (n : Int) : ¬ posInf ≤ finite n := by
  simp [LE.le, atMost]

@[simp] theorem not_posInf_le_negInf : ¬ posInf ≤ negInf := by
  simp [LE.le, atMost]

theorem le_refl (a : Extended) : a ≤ a := by cases a <;> simp

theorem le_trans {a b c : Extended} (hab : a ≤ b) (hbc : b ≤ c) : a ≤ c := by
  cases a <;> cases b <;> cases c <;> simp_all
  omega

/-- Any two extended numbers can be compared. -/
theorem le_total (a b : Extended) : a ≤ b ∨ b ≤ a := by
  cases a <;> cases b <;> simp
  omega

/-- Extended numbers that are below each other are the same. -/
theorem le_antisymm {a b : Extended} (hab : a ≤ b) (hba : b ≤ a) : a = b := by
  cases a <;> cases b <;> simp_all
  omega

theorem min_le_left (a b : Extended) : min a b ≤ a := by
  simp only [min]
  split
  · exact le_refl a
  · exact (le_total a b).resolve_left ‹_›

theorem min_le_right (a b : Extended) : min a b ≤ b := by
  simp only [min]
  split
  · assumption
  · exact le_refl b

theorem le_max_left (a b : Extended) : a ≤ max a b := by
  simp only [max]
  split
  · assumption
  · exact le_refl a

theorem le_max_right (a b : Extended) : b ≤ max a b := by
  simp only [max]
  split
  · exact le_refl b
  · exact (le_total a b).resolve_left ‹_›

/-! ## Arithmetic -/

/-- The sum. An infinity on the positive side wins. -/
protected def add : Extended → Extended → Extended
  | posInf, _ | _, posInf => posInf
  | negInf, _ | _, negInf => negInf
  | finite a, finite b => finite (a + b)

/-- The difference. An infinity on the positive side wins. -/
protected def sub : Extended → Extended → Extended
  | posInf, _ | _, negInf => posInf
  | negInf, _ | _, posInf => negInf
  | finite a, finite b => finite (a - b)

/-- The sign, as `-1`, `0` or `1`. -/
def sign : Extended → Int
  | negInf => -1
  | finite n => n.sign
  | posInf => 1

/-- The infinity of a sign, and zero for the sign zero. -/
def infinityOf (s : Int) : Extended :=
  if 0 < s then posInf else if s < 0 then negInf else 0

/-- The product. Zero times an infinity is zero. -/
protected def mul : Extended → Extended → Extended
  | finite a, finite b => finite (a * b)
  | a, b => infinityOf (a.sign * b.sign)

instance : Add Extended := ⟨Extended.add⟩

instance : Sub Extended := ⟨Extended.sub⟩

instance : Mul Extended := ⟨Extended.mul⟩

/-- The quotient of two integers, rounded. -/
def roundedQuotient : QuotientRounding → Int → Int → Int
  | .down, a, b => a.fdiv b
  | .up, a, b => -((-a).fdiv b)
  | .towardZero, a, b => a.tdiv b

/-- The quotient by a number other than zero. A finite number over an infinity is zero. -/
def quotient (rounding : QuotientRounding) : Extended → Extended → Extended
  | finite a, finite b => finite (roundedQuotient rounding a b)
  | finite _, _ => 0
  | a, b => infinityOf (a.sign * b.sign)

/-- Sums grow with both summands, as opposite infinities are always settled the same way. -/
theorem add_le_add {a b c d : Extended} (hac : a ≤ c) (hbd : b ≤ d) : a + b ≤ c + d := by
  change a.add b ≤ c.add d
  cases a <;> cases b <;> cases c <;> cases d <;> simp_all [Extended.add]
  omega

/-- Differences grow with what is taken from, and fall with what is taken away. -/
theorem sub_le_sub {a b c d : Extended} (hac : a ≤ c) (hdb : d ≤ b) : a - b ≤ c - d := by
  change a.sub b ≤ c.sub d
  cases a <;> cases b <;> cases c <;> cases d <;> simp_all [Extended.sub]
  omega

theorem fdiv_le_neg_neg_fdiv (a b : Int) : a.fdiv b ≤ -((-a).fdiv b) := by
  rw [Int.neg_fdiv]
  split <;> omega

/-- A quotient that is rounded down is not above the one that is rounded up. -/
theorem quotient_down_le_up (a b : Extended) : quotient .down a b ≤ quotient .up a b := by
  cases a <;> cases b <;>
    simp [quotient, roundedQuotient, le_refl, fdiv_le_neg_neg_fdiv]

end Extended

end Overapprox
