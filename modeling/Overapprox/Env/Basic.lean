import Overapprox.Identifier
import Overapprox.Lattice.Pointwise

/-!
# Value environments

A value environment maps identifiers to abstract values; an identifier without a binding may have
any value. Environments are ordered pointwise. A meet in which some identifier has no value left
is the bottom environment, since no state has such an identifier.

* `ValueEnv.get_put_self`, `ValueEnv.get_put_of_ne`: reading after a write.
-/

namespace Overapprox

open AbstractLattice

/-- A map from identifiers to abstract values. -/
structure ValueEnv (δ : Type) where
  /-- The value of every identifier. -/
  function : Pointwise Identifier δ

namespace ValueEnv

variable {δ : Type}

/-- The environment without bindings, in which every identifier may have any value. -/
def empty : ValueEnv δ := ⟨.empty⟩

instance : EmptyCollection (ValueEnv δ) := ⟨empty⟩

instance : Inhabited (ValueEnv δ) := ⟨empty⟩

instance [BEq δ] : BEq (ValueEnv δ) := ⟨fun a b => a.function == b.function⟩

instance [Render δ] : Render (ValueEnv δ) where
  render env := render env.function
  report env := report env.function

variable [BEq δ] [AbstractLattice δ]

/-- The value of an identifier. -/
def get (env : ValueEnv δ) (id : Identifier) : δ := env.function.get id

/-- Binds an identifier to a value, whatever it was bound to. -/
def put (env : ValueEnv δ) (id : Identifier) (v : δ) : ValueEnv δ := ⟨env.function.put id v⟩

/-- The environment of some bindings; bottom when one of them is. -/
def ofFunction (f : Pointwise Identifier δ) : ValueEnv δ :=
  if f.entries.any fun e => isBottom e.2 then ⟨.bottom⟩ else ⟨f⟩

instance : AbstractLattice (ValueEnv δ) where
  top := ⟨.top⟩
  bottom := ⟨.bottom⟩
  isTop env := isTop env.function
  isBottom env := isBottom env.function
  properJoin a b := ⟨join a.function b.function⟩
  properMeet a b := ofFunction (meet a.function b.function)
  properWiden a b := ⟨widen a.function b.function⟩
  properLe a b := le a.function b.function

/-- Assigns a value to an identifier. A weak identifier may still have the value it had, and an
identifier without any value makes the environment bottom. -/
def bind (env : ValueEnv δ) (id : Identifier) (v : δ) : ValueEnv δ :=
  let v := if id.isWeak && env.function.contains id then join (env.get id) v else v
  if isBottom v then bottom else env.put id v

/-- What is put is read back, bottom and top included. -/
theorem get_put_self (env : ValueEnv δ) (id : Identifier) (v : δ) : (env.put id v).get id = v :=
  Pointwise.get_put_self env.function id v

theorem get_put_of_ne {env : ValueEnv δ} {id other : Identifier} (v : δ)
    (h : compare other id ≠ .eq) (hb : env.function ≠ .bottom) :
    (env.put id v).get other = env.get other :=
  Pointwise.get_put_of_ne v h hb

end ValueEnv

end Overapprox
