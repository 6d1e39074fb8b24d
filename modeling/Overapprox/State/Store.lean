import Overapprox.State.Analysis

/-!
# Stores of analysis states

A store holds the state that was computed for each statement, keyed by the location of the
statement. Nothing is known about a statement without a state.

* `Store.get_put_self`: reading after a write.
-/

namespace Overapprox

open AbstractLattice

/-- The states computed for the statements of a body. -/
structure Store (η : Type) where
  /-- The state of every statement. -/
  function : Pointwise Location (State η)

namespace Store

variable {η : Type}

/-- The store without states. -/
def empty : Store η := ⟨.empty⟩

instance : EmptyCollection (Store η) := ⟨empty⟩

instance : Inhabited (Store η) := ⟨empty⟩

instance [BEq η] : BEq (Store η) := ⟨fun a b => a.function == b.function⟩

instance [Render η] : Render (Store η) where
  render s := render s.function
  report s := report s.function

/-- Whether a statement has a state. -/
def contains (s : Store η) (loc : Location) : Bool := s.function.contains loc

/-- The number of statements with a state. -/
def size (s : Store η) : Nat := s.function.size

/-- Whether no statement has a state. -/
def isEmpty (s : Store η) : Bool := s.function.isEmpty

variable [BEq η] [AbstractLattice η]

instance : AbstractLattice (Store η) where
  top := ⟨.top⟩
  bottom := ⟨.bottom⟩
  isTop s := isTop s.function
  isBottom s := isBottom s.function
  properJoin a b := ⟨join a.function b.function⟩
  properMeet a b := ⟨meet a.function b.function⟩
  properWiden a b := ⟨widen a.function b.function⟩
  properLe a b := le a.function b.function

/-- The state of a statement. -/
def get (s : Store η) (loc : Location) : State η := s.function.get loc

/-- The state that a write for a statement would replace. -/
def replaced? (s : Store η) (loc : Location) : Option (State η) :=
  if s.contains loc then some (s.get loc) else none

/-- Stores the state of a statement. -/
def put (s : Store η) (loc : Location) (state : State η) : Store η :=
  ⟨s.function.put loc state⟩

/-- The state that is put at a location is read back there. -/
theorem get_put_self (s : Store η) (loc : Location) (state : State η) :
    (s.put loc state).get loc = state :=
  Pointwise.get_put_self s.function loc state

end Store

end Overapprox
