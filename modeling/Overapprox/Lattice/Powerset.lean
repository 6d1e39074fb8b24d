import Overapprox.Lattice.Basic
import Overapprox.Order.Set
import Overapprox.Report

/-!
# Sets of alternatives

A set of alternatives is a finite set or the set of everything. Sets are ordered by inclusion; the
empty one is bottom.

* `Powerset.contains_add`: what a set contains after an addition.
-/

namespace Overapprox

open AbstractLattice

/-- A finite set, or the set of everything. -/
inductive Powerset (α : Type) [Ord α] where
  | top
  | finite (elements : OrdSet α)

namespace Powerset

variable {α : Type} [Ord α]

/-- The elements that are listed; none for the set of everything. -/
def elements : Powerset α → OrdSet α
  | top => .empty
  | finite s => s

/-- The listed elements, in order. -/
def toList (s : Powerset α) : List α := s.elements.toList

/-- The number of listed elements. -/
def size (s : Powerset α) : Nat := s.elements.size

/-- Whether no elements are listed. -/
def isEmpty (s : Powerset α) : Bool := s.elements.isEmpty

/-- The listed element, where there is exactly one. -/
def only? (s : Powerset α) : Option α := s.elements.only?

/-- Whether `a` is in the set. -/
def contains (s : Powerset α) (a : α) : Bool :=
  match s with
  | top => true
  | finite s => s.contains a

/-- The set without elements. -/
def empty : Powerset α := finite .empty

instance : EmptyCollection (Powerset α) := ⟨empty⟩

instance : Inhabited (Powerset α) := ⟨empty⟩

/-- The set of one element. -/
def singleton (a : α) : Powerset α := finite (.singleton a)

/-- Whether both are everything, or list equal elements. -/
protected def beq [BEq α] : Powerset α → Powerset α → Bool
  | top, top => true
  | finite s, finite t => s == t
  | _, _ => false

instance [BEq α] : BEq (Powerset α) := ⟨Powerset.beq⟩

instance [Render α] : Render (Powerset α) where
  render
    | top => topMark
    | finite s => render s
  report
    | top => .text topMark
    | finite s => report s

variable [Std.TransOrd α]

/-- Adds `a`, unless an equal element is there already. -/
def add (s : Powerset α) (a : α) : Powerset α :=
  match s with
  | top => top
  | finite s => finite (s.insert a)

/-- The set of the elements of a list. -/
def ofList (as : List α) : Powerset α := finite (.ofList as)

instance [BEq α] : AbstractLattice (Powerset α) where
  top := top
  bottom := empty
  isTop
    | top => true
    | finite _ => false
  isBottom
    | top => false
    | finite s => s.isEmpty
  properJoin s t := finite (s.elements.union t.elements)
  properMeet s t := finite (s.elements.inter t.elements)
  properLe s t := s.elements.subset t.elements

/-- An addition makes one element, and all that are equal to it, a member. -/
@[simp] theorem contains_add (s : Powerset α) (a b : α) :
    (s.add a).contains b = (compare b a == .eq || s.contains b) := by
  cases s with
  | top => exact (Bool.or_true _).symm
  | finite s => exact OrdSet.contains_insert s a b

end Powerset

end Overapprox
