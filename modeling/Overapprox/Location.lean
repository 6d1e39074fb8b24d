import Overapprox.Order.Atom
import Overapprox.Report

/-!
# Source locations

A location is a position in the analysed source, or none at all for what the analysis itself made
up. Locations key stored states and mark the boundaries of calls.

* `Location.key_append_inj`: the sort key of a location tells where it ends and which location
  it is.
-/

namespace Overapprox

/-- A position in the analysed source. -/
inductive Location where
  | source (file : String) (line col : UInt32)
  | synthetic
deriving DecidableEq

namespace Location

/-- Positions by file, line and column; what has no position comes last. -/
def key : Location → List Atom
  | source file line col =>
    [.number 0, .text file, .number line.toNat, .number col.toNat]
  | synthetic => [.number 1]

instance : SortKey Location := ⟨key⟩

instance : Ord Location := SortKey.toOrd Location

instance : Std.TransOrd Location := SortKey.transCmp

/-- File, line and column with colons between them. -/
def text : Location → String
  | source file line col => file ++ ":" ++ toString line.toNat ++ ":" ++ toString col.toNat
  | synthetic => "unknown location"

instance : Render Location := ⟨text, fun l => .text l.text⟩

/-- A sort key that begins with that of a location determines it and what follows. -/
theorem key_append_inj {a b : Location} {r s : List Atom} (h : a.key ++ r = b.key ++ s) :
    a = b ∧ r = s := by
  cases a with
  | source f l c =>
    cases b with
    | source g m d =>
      simp only [key, List.cons_append, List.nil_append, List.cons.injEq, Atom.text.injEq,
        Atom.number.injEq, Int.natCast_inj, UInt32.toNat_inj, true_and] at h
      obtain ⟨rfl, rfl, rfl, rfl⟩ := h
      exact ⟨rfl, rfl⟩
    | synthetic => simp [key] at h
  | synthetic =>
    cases b with
    | source => simp [key] at h
    | synthetic => simpa [key] using h

end Location

/-- The boundary of a call, behind which the identifiers of the caller are hidden. -/
structure ScopeToken where
  /-- Where the call is. -/
  scoper : Location
deriving DecidableEq

namespace ScopeToken

instance : SortKey ScopeToken := ⟨fun t => t.scoper.key⟩

instance : Ord ScopeToken := SortKey.toOrd ScopeToken

instance : Std.TransOrd ScopeToken := SortKey.transCmp

instance : Render ScopeToken :=
  ⟨fun t => "scope@" ++ t.scoper.text, fun t => .text ("scope@" ++ t.scoper.text)⟩

end ScopeToken

end Overapprox
