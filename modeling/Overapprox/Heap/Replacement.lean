import Overapprox.Error

/-!
# Heap substitutions

When a heap renames, merges or splits its locations, it hands the other domains a list of
replacements. The value of every target becomes the join of the values of the sources, and the
sources that are not targets disappear.

* `Substitution.check_eq_ok_iff`: a substitution is consistent when every replacement has a source.
-/

namespace Overapprox

/-- Locations that other locations take the place of. -/
structure Replacement where
  /-- The locations whose values are joined. -/
  sources : OrdSet Identifier
  /-- The locations that get the joined value. -/
  targets : OrdSet Identifier
deriving DecidableEq

namespace Replacement

/-- The sources that are not targets, whose bindings disappear. -/
def forgotten (r : Replacement) : OrdSet Identifier := r.sources.diff r.targets

/-- A replacement without sources has no value to give. -/
def check (r : Replacement) : Outcome Unit :=
  if r.sources.isEmpty then .error (.withoutSources r.targets) else .ok ()

end Replacement

/-- Replacements made one after the other. -/
abbrev Substitution := List Replacement

namespace Substitution

/-- Refuses the first replacement without sources. -/
def check : Substitution → Outcome Unit
  | [] => .ok ()
  | r :: rest => do
    r.check
    check rest

/-- A substitution is accepted exactly when every replacement says where the new values come from.
-/
theorem check_eq_ok_iff {s : Substitution} :
    s.check = .ok () ↔ ∀ r ∈ s, r.sources.isEmpty = false := by
  induction s with
  | nil => simp [check]
  | cons r rest ih =>
    cases h : r.sources.isEmpty
    · simpa [check, Replacement.check, h, bind, Except.bind] using ih
    · simp [check, Replacement.check, h, bind, Except.bind]

end Substitution

end Overapprox
