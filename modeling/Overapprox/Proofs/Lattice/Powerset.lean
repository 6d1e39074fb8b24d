import Overapprox.Lattice.Powerset
import Overapprox.Proofs.Lattice.Lawful
import Overapprox.Proofs.Order.Set

/-!
# Sets of alternatives form a lattice

* `Powerset.Included`: the order, inclusion with a greatest set on top.
* `Powerset.respectsMeets`: meets are greatest below their operands.
-/

namespace Overapprox

open AbstractLattice
open scoped LawfulLattice

namespace Powerset

variable {α : Type} [Ord α]

instance [BEq α] [ReflBEq α] : ReflBEq (Powerset α) where
  rfl {s} := by
    cases s with
    | top => rfl
    | finite s => exact BEq.refl s.toList

/-- Inclusion. The set of everything lies in no finite one. -/
inductive Included : Powerset α → Powerset α → Prop where
  | top (s : Powerset α) : Included s top
  | finite {s t : OrdSet α} : s.subset t = true → Included (finite s) (finite t)

theorem included_finite_iff {s t : OrdSet α} :
    Included (finite s) (finite t) ↔ s.subset t = true :=
  ⟨fun | .finite h => h, .finite⟩

variable [Std.TransOrd α] [BEq α] [Std.LawfulBEqOrd α]

/-- Sets of alternatives are ordered by inclusion. -/
theorem orderedBy : OrderedBy (Included (α := α)) where
  isTop_top := rfl
  isBottom_bottom := rfl
  isBottom_eq_false {s} h := by
    cases s with
    | top => rfl
    | finite s => cases h
  refl s := by
    cases s with
    | top => exact .top _
    | finite s => exact .finite (OrdSet.subset_refl s)
  trans hst htu := by
    cases htu with
    | top => exact .top _
    | finite htu =>
      cases hst with
      | finite hst => exact .finite (OrdSet.subset_trans hst htu)
  of_beq {s t} h := by
    cases s with
    | top => cases t with
      | top => exact ⟨.top _, .top _⟩
      | finite t => cases h
    | finite s => cases t with
      | top => cases h
      | finite t => exact (OrdSet.subset_of_beq h).imp .finite .finite
  of_isBottom {s} t h := by
    cases s with
    | top => cases h
    | finite s => cases t with
      | top => exact .top _
      | finite t => exact .finite (OrdSet.empty_subset_of_isEmpty h t)
  of_isTop s {t} h := by
    cases t with
    | top => exact .top s
    | finite t => cases h
  isTop_of hst h := by
    cases hst with
    | top => rfl
    | finite => cases h
  isBottom_of hst h := by
    cases hst with
    | top => cases h
    | finite hst => exact OrdSet.isEmpty_of_subset hst h
  properLe_iff {s t} hs ht := by
    cases s with
    | top => cases hs.1
    | finite s => cases t with
      | top => cases ht.1
      | finite t => exact included_finite_iff.symm
  properJoin_iff {s t} u hs ht := by
    cases s with
    | top => cases hs.1
    | finite s => cases t with
      | top => cases ht.1
      | finite t => cases u with
        | top => exact iff_of_true (.top _) ⟨.top _, .top _⟩
        | finite u =>
          rw [included_finite_iff, included_finite_iff]
          -- With an unbounded upper set there was nothing to show; between finite ones it is the
          -- union.
          exact included_finite_iff.trans OrdSet.union_subset_iff
  properMeet_le {s t} hs ht := by
    cases s with
    | top => cases hs.1
    | finite s => cases t with
      | top => cases ht.1
      | finite t =>
        have h := OrdSet.subset_inter_iff.1 (OrdSet.subset_refl (s.inter t))
        exact ⟨.finite h.1, .finite h.2⟩

instance : LawfulLattice (Powerset α) := orderedBy.lawful

theorem le_iff_included {s t : Powerset α} : s ≤ t ↔ Included s t := orderedBy.le_iff

/-- A meet is an intersection, so it is greatest below its operands. -/
theorem respectsMeets (u : Powerset α) : RespectsMeets u := by
  refine .of_properMeet fun {s t} hs ht hus hut => ?_
  rw [le_iff_included] at hus hut ⊢
  cases hus with
  | top => cases hs.1
  | finite hus => cases hut with
    | top => cases ht.1
    | finite hut => exact .finite (OrdSet.subset_inter_iff.2 ⟨hus, hut⟩)

end Powerset

end Overapprox
