/-!
# Sort keys

A value that keys a map or a set is ordered by its sort key, a list of atoms compared from the
left. Whatever a key leaves out is ignored by the order.

* `instTransOrdAtom`, `instLawfulEqOrdAtom`: atoms are totally ordered and only equal atoms
  compare as equal, so the same holds for keys.
* `SortKey.transCmp`: comparing sort keys is transitive and antisymmetric for every type.
* `SortKey.compare_eq_iff`: two values compare as equal exactly when their keys are equal.
* `compare_congr_left`, `compare_congr_right`: values that compare as equal compare alike with
  every other value.
-/

namespace Overapprox

/-- One entry of a sort key. Numbers come before texts. -/
inductive Atom where
  | number (n : Int)
  | text (s : String)
deriving DecidableEq, Repr

namespace Atom

/-- Numbers by value, texts by code points, every number before every text. -/
protected def compare : Atom → Atom → Ordering
  | number m, number n => Ord.compare m n
  | number _, text _ => .lt
  | text _, number _ => .gt
  | text s, text t => Ord.compare s t

instance : Ord Atom := ⟨Atom.compare⟩

instance instTransOrdAtom : Std.TransOrd Atom where
  eq_swap {a b} :=
    match a, b with
    | number m, number n => Std.OrientedOrd.eq_swap (a := m) (b := n)
    | number _, text _ => rfl
    | text _, number _ => rfl
    | text s, text t => Std.OrientedOrd.eq_swap (a := s) (b := t)
  isLE_trans {a b c} hab hbc :=
    match a, b, c, hab, hbc with
    | number l, number m, number n, hab, hbc =>
      Std.TransOrd.isLE_trans (a := l) (b := m) (c := n) hab hbc
    | number _, _, text _, _, _ => rfl
    | number _, text _, number _, _, hbc => nomatch (hbc : false = true)
    | text _, number _, _, hab, _ => nomatch (hab : false = true)
    | text _, text _, number _, _, hbc => nomatch (hbc : false = true)
    | text r, text s, text t, hab, hbc =>
      Std.TransOrd.isLE_trans (a := r) (b := s) (c := t) hab hbc

instance instLawfulEqOrdAtom : Std.LawfulEqOrd Atom where
  compare_self {a} :=
    match a with
    | number n => Std.ReflOrd.compare_self (a := n)
    | text s => Std.ReflOrd.compare_self (a := s)
  eq_of_compare {a b} h :=
    match a, b, h with
    | number m, number n, h =>
      congrArg number (Std.LawfulEqOrd.eq_of_compare (a := m) (b := n) h)
    | number _, text _, h => nomatch (h : Ordering.lt = .eq)
    | text _, number _, h => nomatch (h : Ordering.gt = .eq)
    | text s, text t, h => congrArg text (Std.LawfulEqOrd.eq_of_compare (a := s) (b := t) h)

end Atom

/-- Types ordered by a list of atoms computed from each value. -/
class SortKey (α : Type) where
  /-- The atoms by which a value is ordered. -/
  key : α → List Atom

namespace SortKey

/-- Compares two values by their sort keys. -/
@[reducible] def toOrd (α : Type) [SortKey α] : Ord α := ⟨compareOn key⟩

variable {α : Type} [SortKey α]

/-- Comparing by keys is transitive, since comparing lists of atoms is. -/
theorem transCmp : @Std.TransOrd α (toOrd α) :=
  inferInstanceAs (Std.TransCmp (compareOn (key : α → List Atom)))

theorem compare_self {a : α} : (toOrd α).compare a a = .eq :=
  @Std.ReflCmp.compare_self _ (compareOn (key : α → List Atom)) inferInstance a

/-- Values are equal in this order exactly when they have the same key. -/
theorem compare_eq_iff {a b : α} : (toOrd α).compare a b = .eq ↔ key a = key b :=
  Std.LawfulEqOrd.compare_eq_iff_eq (α := List Atom)

end SortKey

/-! ## Values that compare as equal -/

variable {α : Type} [Ord α] [Std.TransOrd α]

/-- Equal values compare alike with every other value. -/
theorem compare_congr_left {a b : α} (h : compare a b = .eq) (c : α) :
    compare a c = compare b c :=
  Std.TransCmp.congr_left h

theorem compare_congr_right {b c : α} (h : compare b c = .eq) (a : α) :
    compare a b = compare a c :=
  Std.TransCmp.congr_right h

end Overapprox
