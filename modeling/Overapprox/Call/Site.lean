import Overapprox.Call.Symbol
import Overapprox.Identifier
import Overapprox.Text.Blank

/-!
# Call sites

A call names its target and perhaps the unit of the target; a blank qualifier counts as none. The
target is found by name, directly or through the aliases that are known.

* `Call.matchesName_of_unqualified`: a call without a qualifier matches members of any unit.
-/

namespace Overapprox

/-- A call whose target is resolved by name. -/
structure Call where
  /-- Where the call is. -/
  location : Location
  /-- The unit of the target, if the call names one. -/
  qualifier : Option String := none
  /-- The name of the target. -/
  target : String
  /-- The static type of the result. -/
  type : Ty := .untyped
deriving DecidableEq

namespace Call

/-- The qualifier, unless it is blank. -/
def unit? (c : Call) : Option String := c.qualifier.filter fun q => !Text.isBlank q

/-- The target and the place of a call. -/
def text (c : Call) : String :=
  let target := c.target ++ "() at " ++ c.location.text
  match c.unit? with
  | some q => q ++ "::" ++ target
  | none => target

instance : Render Call := ⟨text, fun c => .text c.text⟩

/-- The variable that holds the result of a call. -/
def metaVariable (c : Call) : Identifier :=
  .var ("call_ret_value@" ++ c.location.text) ⟨c.type, none, c.location⟩

/-- Whether a call names the member of a unit. -/
def matchesName (c : Call) (qualifier name : String) : Bool :=
  name == c.target && c.unit?.all (· == qualifier)

/-- Whether the member of a unit may be the target of a call, under its own name or under an alias
of its qualified name, of its unit or of its name. -/
def matchesMember (c : Call) (qualifier name : String) (aliasing : SymbolAliasing) : Bool :=
  (aliasing.aliases (.qualifiedName qualifier name)).toList.any (fun
    | .qualifiedName q n => c.matchesName q n
    | _ => false) ||
  (aliasing.aliases (.qualifier qualifier)).toList.any (fun
    | .qualifier q => c.matchesName q name
    | _ => false) ||
  (aliasing.aliases (.name name)).toList.any (fun
    | .name n => c.matchesName qualifier n
    | _ => false) ||
  c.matchesName qualifier name

/-- A call that names no unit may mean the member of any unit. -/
theorem matchesName_of_unqualified {c : Call} (h : c.unit? = none) (qualifier : String) :
    c.matchesName qualifier c.target = true := by
  simp [matchesName, h]

end Call

end Overapprox
