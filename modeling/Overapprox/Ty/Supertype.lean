import Overapprox.Ty.Basic

/-!
# Assignability and common supertypes

Every type can be assigned to `untyped`, numbers to numbers, null to units and references, and
references to references. The common supertype of two types is the most precise type to which both
can be assigned; references keep what either may point to.

* `Ty.supertype_self`: a type is its own supertype.
* `Ty.assignable_untyped`, `Ty.assignable_self`: assignments that always fit.
-/

namespace Overapprox

namespace Ty

/-- Whether a value of type `a` may be stored where one of type `b` is expected. -/
def assignable (a b : Ty) : Bool :=
  if b = untyped || a = b then true
  else if a.isNumeric then b.isNumeric
  else
    match a, b with
    | null, b => b.isInMemory || b.isPointer
    | reference _, reference _ => true
    | _, _ => false

/-- The wider of two numeric types. A float is wider than any integer, and of two integer types of
one width the signed one is wider. -/
def numericSupertype (a b : Ty) : Ty :=
  if a.isIntegral && !b.isIntegral then b
  else if !a.isIntegral && b.isIntegral then a
  else if b.bits?.getD 0 < a.bits?.getD 0 then a
  else if a.bits?.getD 0 < b.bits?.getD 0 then b
  else if a.isUnsigned then b
  else a

/-- The most precise type to which both types can be assigned. -/
def supertype (a b : Ty) : Ty :=
  if a = b then a
  else if a = untyped || b = untyped then untyped
  else if a.isNumeric && b.isNumeric then numericSupertype a b
  else if a = null && (b.isInMemory || b.isPointer) then b
  else if b = null && (a.isInMemory || a.isPointer) then a
  else
    match a, b with
    | reference as, reference bs => referenceTo (.ofList (as ++ bs))
    | _, _ => untyped

/-- A type is its own supertype. -/
theorem supertype_self (t : Ty) : t.supertype t = t := by simp [supertype]

theorem assignable_untyped (t : Ty) : t.assignable untyped = true := by simp [assignable]

theorem assignable_self (t : Ty) : t.assignable t = true := by simp [assignable]

end Ty

/-- The common supertype of the types of a set; `untyped` for the empty set. -/
def TypeSet.supertype (s : TypeSet) : Ty :=
  match s.toList with
  | [] => .untyped
  | t :: ts => ts.foldl Ty.supertype t

end Overapprox
