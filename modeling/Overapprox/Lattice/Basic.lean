/-!
# Lattices of abstract values

A lattice gives its top and bottom, tests for both, and its operations on proper operands: two
different values, neither of them top or bottom. `join`, `meet`, `widen` and `le` settle every
other case first and hand only proper operands on.

Equality is the lattice's own `==`. It may overlook annotations, so of two equal values an
operation returns the left one.

* `join_of_isBottom_right`, `join_of_isTop_left`: an operand that decides a join is returned.
* `meet_of_isBottom_left`, `meet_of_isTop_right`: the same for meets.
* `le_of_isBottom`, `le_of_isTop`: bottom is below and top above everything.
-/

namespace Overapprox

/-- Abstract values ordered by how much they allow. -/
class AbstractLattice (α : Type) [BEq α] where
  /-- The value that allows everything. -/
  top : α
  /-- The value that allows nothing. -/
  bottom : α
  /-- Whether a value allows everything. -/
  isTop : α → Bool
  /-- Whether a value allows nothing. -/
  isBottom : α → Bool
  /-- The join of proper operands. -/
  properJoin : α → α → α
  /-- The order on proper operands. -/
  properLe : α → α → Bool
  /-- The meet of proper operands; bottom where the lattice has nothing better. -/
  properMeet : α → α → α := fun _ _ => bottom
  /-- The widening of proper operands. Repeated it has to settle; a join does so where every
  rising chain is finite. -/
  properWiden : α → α → α := properJoin

namespace AbstractLattice

variable {α : Type} [BEq α] [AbstractLattice α]

/-- What `a` or `b` allows. -/
def join (a b : α) : α :=
  if a == b || isBottom b || isTop a then a
  else if isBottom a || isTop b then b
  else properJoin a b

/-- What `a` and `b` both allow. -/
def meet (a b : α) : α :=
  if a == b || isBottom a || isTop b then a
  else if isBottom b || isTop a then b
  else properMeet a b

/-- A value above `a` and `b` that stops growing when the step is repeated. -/
def widen (a b : α) : α :=
  if a == b || isBottom b || isTop a then a
  else if isBottom a || isTop b then b
  else properWiden a b

/-- Whether `b` allows all that `a` allows. -/
def le (a b : α) : Bool :=
  if a == b || isBottom a || isTop b then true
  else if isTop a || isBottom b then false
  else properLe a b

/-- Joining with bottom adds nothing. -/
theorem join_of_isBottom_right {a b : α} (h : isBottom b = true) : join a b = a := by
  simp [join, h]

/-- Nothing can be added to top. -/
theorem join_of_isTop_left {a b : α} (h : isTop a = true) : join a b = a := by
  simp [join, h]

/-- Nothing is left to be taken from bottom. -/
theorem meet_of_isBottom_left {a b : α} (h : isBottom a = true) : meet a b = a := by
  simp [meet, h]

/-- Meeting with top takes nothing away. -/
theorem meet_of_isTop_right {a b : α} (h : isTop b = true) : meet a b = a := by
  simp [meet, h]

theorem le_of_isBottom {a b : α} (h : isBottom a = true) : le a b = true := by
  simp [le, h]

theorem le_of_isTop {a b : α} (h : isTop b = true) : le a b = true := by
  simp [le, h]

end AbstractLattice

end Overapprox
