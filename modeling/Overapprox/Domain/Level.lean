import Overapprox.Domain.Basic

/-!
# A chain of four levels

The smallest domain with values strictly between bottom and top. It says nothing about any
operation, so it shows how far a domain gets by the defaults alone: two different proper levels
have no meet, and widening is joining.
-/

namespace Overapprox

/-- One of four levels, each allowing what the lower ones allow. -/
structure Level where
  rank : Fin 4
deriving DecidableEq, Repr

namespace Level

instance : AbstractLattice Level where
  top := ⟨3⟩
  bottom := ⟨0⟩
  isTop l := l.rank == 3
  isBottom l := l.rank == 0
  properJoin l m := if l.rank ≤ m.rank then m else l
  properLe l m := decide (l.rank ≤ m.rank)

instance : ValueDomain Level where

instance : Render Level where
  render l := "Level(" ++ toString l.rank.val ++ ")"
  report l := .number l.rank.val

end Level

end Overapprox
