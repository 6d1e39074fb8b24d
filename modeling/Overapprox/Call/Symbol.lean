import Overapprox.Lattice.Pointwise
import Overapprox.Lattice.Powerset
import Overapprox.Order.Atom

/-!
# Symbols and their aliases

A symbol names what a call may target: a member of any unit, a unit, or a member of one unit. An
aliasing records which symbols may stand in the place of which.

* `SymbolAliasing.aliases_addAlias_self`: a recorded alias is among the aliases of its symbol.
* `SymbolAliasing.aliases_addAlias_of_ne`: the aliases of other symbols stay.
-/

namespace Overapprox

open AbstractLattice

/-- A name under which a call can target a member. -/
inductive Symbol where
  /-- A member, whatever unit defines it. -/
  | name (name : String)
  /-- A unit. -/
  | qualifier (qualifier : String)
  /-- A member of a unit. -/
  | qualifiedName (qualifier name : String)
deriving DecidableEq

namespace Symbol

/-- By kind, then by qualifier and name. -/
def key : Symbol → List Atom
  | name n => [.number 0, .text n]
  | qualifier q => [.number 1, .text q]
  | qualifiedName q n => [.number 2, .text q, .text n]

instance : SortKey Symbol := ⟨key⟩

instance : Ord Symbol := SortKey.toOrd Symbol

instance : Std.TransOrd Symbol := SortKey.transCmp

theorem key_injective {a b : Symbol} (h : a.key = b.key) : a = b := by
  cases a <;> cases b <;> simp_all [key]

instance : Std.LawfulEqOrd Symbol where
  compare_self := SortKey.compare_self
  eq_of_compare h := key_injective (SortKey.compare_eq_iff.1 h)

/-- Qualifier and name with a double colon after the qualifier. -/
def text : Symbol → String
  | name n => n
  | qualifier q => q ++ "::"
  | qualifiedName q n => q ++ "::" ++ n

instance : Render Symbol := ⟨text, fun s => .text s.text⟩

end Symbol

/-- Which symbols may be used in the place of which. A symbol without a record may be used for
anything, as far as is known. -/
structure SymbolAliasing where
  /-- The aliases of every symbol. -/
  function : Pointwise Symbol (Powerset Symbol)

namespace SymbolAliasing

/-- The aliasing without records. -/
def empty : SymbolAliasing := ⟨.empty⟩

instance : EmptyCollection SymbolAliasing := ⟨empty⟩

instance : Inhabited SymbolAliasing := ⟨empty⟩

instance : BEq SymbolAliasing := ⟨fun a b => a.function == b.function⟩

instance : Render SymbolAliasing where
  render a := render a.function
  report a := report a.function

instance : AbstractLattice SymbolAliasing where
  top := ⟨.top⟩
  bottom := ⟨.bottom⟩
  isTop a := isTop a.function
  isBottom a := isBottom a.function
  properJoin a b := ⟨join a.function b.function⟩
  properMeet a b := ⟨meet a.function b.function⟩
  properLe a b := le a.function b.function

/-- The symbols that may be used in the place of a symbol. -/
def aliases (a : SymbolAliasing) (s : Symbol) : Powerset Symbol := a.function.get s

/-- Records that `other` may be used in the place of `s`. -/
def addAlias (a : SymbolAliasing) (s other : Symbol) : SymbolAliasing :=
  let known := a.aliases s
  ⟨a.function.put s
    (if isTop known || isBottom known then .singleton other else known.add other)⟩

/-- A recorded alias is known, whatever was known about the symbol before. -/
theorem aliases_addAlias_self (a : SymbolAliasing) (s other : Symbol) :
    ((a.addAlias s other).aliases s).contains other = true := by
  unfold addAlias aliases
  rw [Pointwise.get_put_self]
  split
  · simp [Powerset.singleton, Powerset.contains, OrdSet.singleton, OrdSet.contains]
  · simp

/-- Recording an alias of one symbol leaves the others alone, unless the aliasing is bottom. -/
theorem aliases_addAlias_of_ne {a : SymbolAliasing} {s t : Symbol} (other : Symbol) (h : t ≠ s)
    (ha : a.function ≠ .bottom) : (a.addAlias s other).aliases t = a.aliases t :=
  Pointwise.get_put_of_ne _ (fun hts => h (Std.LawfulEqOrd.eq_of_compare hts)) ha

end SymbolAliasing

end Overapprox
