import Overapprox.Number.Extended
import Overapprox.Options

/-!
# Intervals of extended integers

A pair of bounds with the lower one first stands for the integers between them. Arithmetic works
on the bounds and covers the results for all integers between them.

* `Bounds.contains_low`, `Bounds.contains_high`: an interval contains its bounds.
* `Bounds.includes_refl`, `Bounds.includes_trans`: inclusion is an order.
-/

namespace Overapprox

/-- The extended integers from `low` to `high`. -/
structure Bounds where
  low : Extended
  high : Extended
  low_le_high : low ≤ high
deriving DecidableEq

namespace Bounds

/-- The interval between two bounds, unless they are out of order. -/
def ofBounds? (low high : Extended) : Option Bounds :=
  if h : low ≤ high then some ⟨low, high, h⟩ else none

/-- The interval of one number. -/
def singleton (n : Extended) : Bounds := ⟨n, n, Extended.le_refl n⟩

/-- All extended integers. -/
def infinite : Bounds := ⟨.negInf, .posInf, Extended.negInf_le _⟩

instance : Render Bounds := ⟨fun b => "[" ++ render b.low ++ ", " ++ render b.high ++ "]",
  fun b => .text ("[" ++ render b.low ++ ", " ++ render b.high ++ "]")⟩

/-- Whether neither bound restricts anything. -/
def isInfinite (b : Bounds) : Bool := b.low == .negInf && b.high == .posInf

/-- Whether the interval is one integer. -/
def isSingleton (b : Bounds) : Bool := b.low.isFinite && b.low == b.high

/-- Whether the interval is zero alone. -/
def isZero (b : Bounds) : Bool := b.low == 0 && b.high == 0

/-- Whether `n` lies between the bounds. -/
def contains (b : Bounds) (n : Extended) : Bool := decide (b.low ≤ n) && decide (n ≤ b.high)

/-- Whether `b` lies within `a`. -/
def includes (a b : Bounds) : Bool := decide (a.low ≤ b.low) && decide (b.high ≤ a.high)

/-- The least interval that includes both. -/
def hull (a b : Bounds) : Bounds :=
  ⟨min a.low b.low, max a.high b.high,
    Extended.le_trans (Extended.min_le_left _ _)
      (Extended.le_trans a.low_le_high (Extended.le_max_left _ _))⟩

/-- Keeps the bounds of `a` that `b` respects; a bound that `b` exceeds becomes infinite. -/
def widen (a b : Bounds) : Bounds :=
  ⟨if b.low < a.low then .negInf else a.low, if a.high < b.high then .posInf else a.high, by
    split
    · exact Extended.negInf_le _
    · split
      · exact Extended.le_posInf _
      · exact a.low_le_high⟩

/-! ## Arithmetic -/

instance : Add Bounds :=
  ⟨fun a b => ⟨a.low + b.low, a.high + b.high,
    Extended.add_le_add a.low_le_high b.low_le_high⟩⟩

instance : Sub Bounds :=
  ⟨fun a b => ⟨a.low - b.high, a.high - b.low,
    Extended.sub_le_sub a.low_le_high b.low_le_high⟩⟩

/-- The interval spanned by four lower and four upper corners, the first of each in order. -/
def spanned (l₁ l₂ l₃ l₄ h₁ h₂ h₃ h₄ : Extended) (h : l₁ ≤ h₁) : Bounds :=
  ⟨min (min l₁ l₂) (min l₃ l₄), max (max h₁ h₂) (max h₃ h₄),
    Extended.le_trans (Extended.min_le_left _ _) <|
      Extended.le_trans (Extended.min_le_left _ _) <|
        Extended.le_trans h <|
          Extended.le_trans (Extended.le_max_left _ _) (Extended.le_max_left _ _)⟩

/-- The interval spanned by an operation on the bounds, once for the lower end of the result and
once for the upper one. -/
def ofCorners (lower upper : Extended → Extended → Extended) (a b : Bounds)
    (h : lower a.low b.low ≤ upper a.low b.low) : Bounds :=
  spanned (lower a.low b.low) (lower a.low b.high) (lower a.high b.low) (lower a.high b.high)
    (upper a.low b.low) (upper a.low b.high) (upper a.high b.low) (upper a.high b.high) h

instance : Mul Bounds := ⟨fun a b => ofCorners (· * ·) (· * ·) a b (Extended.le_refl _)⟩

/-- The quotients of the integers of `a` by those of `b`; everything where `b` contains zero. -/
def div (rounding : DivisionRounding) (a b : Bounds) : Bounds :=
  if b.contains 0 then infinite
  else
    match rounding with
    | .towardZero =>
      ofCorners (.quotient .towardZero) (.quotient .towardZero) a b (Extended.le_refl _)
    | .outward =>
      ofCorners (.quotient .down) (.quotient .up) a b (Extended.quotient_down_le_up _ _)

/-! ## Inclusion -/

/-- No range is empty: it contains its lower bound. -/
theorem contains_low (b : Bounds) : b.contains b.low = true := by
  simp [contains, Extended.le_refl, b.low_le_high]

theorem contains_high (b : Bounds) : b.contains b.high = true := by
  simp [contains, Extended.le_refl, b.low_le_high]

theorem includes_refl (b : Bounds) : b.includes b = true := by
  simp [includes, Extended.le_refl]

/-- Inclusion of ranges is transitive. -/
theorem includes_trans {a b c : Bounds} (hab : a.includes b = true) (hbc : b.includes c = true) :
    a.includes c = true := by
  simp only [includes, Bool.and_eq_true, decide_eq_true_eq] at *
  exact ⟨Extended.le_trans hab.1 hbc.1, Extended.le_trans hbc.2 hab.2⟩

end Bounds

end Overapprox
