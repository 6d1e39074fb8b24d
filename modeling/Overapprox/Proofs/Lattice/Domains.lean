import Overapprox.Domain.InferredTypes
import Overapprox.Domain.Interval
import Overapprox.Heap.Summary
import Overapprox.Proofs.Lattice.Powerset
import Overapprox.Proofs.Number.Bounds

/-!
# Intervals, type sets and summary heaps form lattices

* `Interval.le_iff_included`: the order of intervals is inclusion.
* `Interval.meet_range`: the meet of two intervals lies between the inner bounds.
* `Interval.respectsMeets`, `InferredTypes.respectsMeets`, `SummaryHeap.respectsMeets`: all meets
  are greatest.
-/

namespace Overapprox

open AbstractLattice
open scoped LawfulLattice

/-! ## Intervals -/

namespace Bounds

variable {a b c : Bounds}

theorem includes_iff : a.includes b = true ↔ a.low ≤ b.low ∧ b.high ≤ a.high := by
  simp [includes]

theorem isInfinite_iff : a.isInfinite = true ↔ a.low = .negInf ∧ a.high = .posInf := by
  simp [isInfinite]

theorem includes_of_isInfinite (h : a.isInfinite = true) (b : Bounds) : a.includes b = true := by
  obtain ⟨hlow, hhigh⟩ := isInfinite_iff.1 h
  rw [includes_iff, hlow, hhigh]
  exact ⟨Extended.negInf_le _, Extended.le_posInf _⟩

theorem isInfinite_of_includes (h : b.includes a = true) (ha : a.isInfinite = true) :
    b.isInfinite = true := by
  obtain ⟨hlow, hhigh⟩ := includes_iff.1 h
  obtain ⟨halow, hahigh⟩ := isInfinite_iff.1 ha
  rw [halow] at hlow
  rw [hahigh] at hhigh
  exact isInfinite_iff.2 ⟨le_antisymm hlow (Extended.negInf_le _),
    le_antisymm (Extended.le_posInf _) hhigh⟩

/-- Ranges that include each other are the same. -/
theorem eq_of_includes (hab : b.includes a = true) (hba : a.includes b = true) : a = b := by
  obtain ⟨low, high, hle⟩ := a
  obtain ⟨hlow, hhigh⟩ := includes_iff.1 hab
  obtain ⟨hlow', hhigh'⟩ := includes_iff.1 hba
  cases le_antisymm hlow' hlow
  cases le_antisymm hhigh hhigh'
  rfl

/-- A range includes the hull of two exactly when it includes both. -/
theorem includes_hull_iff :
    c.includes (a.hull b) = true ↔ c.includes a = true ∧ c.includes b = true := by
  simp only [includes_iff, hull, le_min_iff, max_le_iff]
  exact and_and_and_comm

end Bounds

namespace Interval

/-- Inclusion of the integers between the bounds. -/
inductive Included : Interval → Interval → Prop where
  | bottom (w : Interval) : Included bottom w
  | range {a b : Bounds} : b.includes a = true → Included (range a) (range b)

theorem included_range_iff {a b : Bounds} :
    Included (range a) (range b) ↔ b.includes a = true :=
  ⟨fun | .range h => h, .range⟩

theorem ofBounds_of_le {low high : Extended} (h : low ≤ high) :
    ofBounds low high = range ⟨low, high, h⟩ := by
  rw [ofBounds, Bounds.ofBounds?, dif_pos h]

theorem ofBounds_of_lt {low high : Extended} (h : high < low) : ofBounds low high = bottom := by
  rw [ofBounds, Bounds.ofBounds?, dif_neg (not_le_of_gt h)]

/-- Below the interval between two bounds is what lies between them. -/
theorem included_ofBounds_iff {a : Bounds} {low high : Extended} :
    Included (range a) (ofBounds low high) ↔ low ≤ a.low ∧ a.high ≤ high := by
  rcases le_or_gt low high with h | h
  · rw [ofBounds_of_le h]
    exact included_range_iff.trans Bounds.includes_iff
  · rw [ofBounds_of_lt h]
    refine iff_of_false nofun fun ha => ?_
    exact not_le_of_gt h (ha.1.trans (a.low_le_high.trans ha.2))

theorem ofBounds_included {a : Bounds} {low high : Extended} (hlow : a.low ≤ low)
    (hhigh : high ≤ a.high) : Included (ofBounds low high) (range a) := by
  rcases le_or_gt low high with h | h
  · rw [ofBounds_of_le h]
    exact .range (Bounds.includes_iff.2 ⟨hlow, hhigh⟩)
  · rw [ofBounds_of_lt h]
    exact .bottom _

/-- Intervals are ordered by inclusion of their ranges. -/
theorem orderedBy : OrderedBy Included where
  isTop_top := rfl
  isBottom_bottom := rfl
  isBottom_eq_false {v} h := by
    cases v with
    | bottom => cases h
    | range a => rfl
  refl v := by
    cases v with
    | bottom => exact .bottom _
    | range a => exact .range a.includes_refl
  trans huv hvw := by
    cases huv with
    | bottom => exact .bottom _
    | range huv => cases hvw with
      | range hvw => exact .range (Bounds.includes_trans hvw huv)
  of_beq {v w} h := by
    cases eq_of_beq h
    cases v with
    | bottom => exact ⟨.bottom _, .bottom _⟩
    | range a => exact ⟨.range a.includes_refl, .range a.includes_refl⟩
  of_isBottom {v} w h := by
    cases v with
    | bottom => exact .bottom w
    | range a => cases h
  of_isTop v {w} h := by
    cases w with
    | bottom => cases h
    | range b => cases v with
      | bottom => exact .bottom _
      | range a => exact .range (Bounds.includes_of_isInfinite h a)
  isTop_of hvw h := by
    cases hvw with
    | bottom => cases h
    | range hab => exact Bounds.isInfinite_of_includes hab h
  isBottom_of hvw h := by
    cases hvw with
    | bottom => rfl
    | range => cases h
  properLe_iff {v w} hv hw := by
    cases v with
    | bottom => cases hv.2
    | range a => cases w with
      | bottom => cases hw.2
      | range b => exact included_range_iff.symm
  properJoin_iff {v w} u hv hw := by
    cases v with
    | bottom => cases hv.2
    | range a => cases w with
      | bottom => cases hw.2
      | range b => cases u with
        | bottom => exact iff_of_false nofun fun h => nomatch h.1
        | range c =>
          rw [included_range_iff, included_range_iff]
          exact included_range_iff.trans Bounds.includes_hull_iff
  properMeet_le {v w} hv hw := by
    cases v with
    | bottom => cases hv.2
    | range a => cases w with
      | bottom => cases hw.2
      | range b =>
        exact ⟨ofBounds_included (le_max_left _ _) (min_le_left _ _),
          ofBounds_included (le_max_right _ _) (min_le_right _ _)⟩

instance : LawfulLattice Interval := orderedBy.lawful

theorem le_iff_included {v w : Interval} : v ≤ w ↔ Included v w := orderedBy.le_iff

theorem eq_of_le_of_ge {v w : Interval} (hvw : v ≤ w) (hwv : w ≤ v) : v = w := by
  rw [le_iff_included] at hvw hwv
  cases hvw with
  | bottom =>
    cases hwv
    rfl
  | range hab => rw [Bounds.eq_of_includes hab (included_range_iff.1 hwv)]

theorem eq_top_of_isTop {v : Interval} (h : isTop v = true) : v = top :=
  eq_of_le_of_ge (le_of_isTop LawfulLattice.isTop_top) (le_of_isTop h)

/-- Meets of intervals are greatest: the bounds of a meet are bounds of both operands. -/
theorem respectsMeets (u : Interval) : RespectsMeets u := by
  refine .of_properMeet fun {v w} hv hw huv huw => ?_
  rw [le_iff_included] at huv huw ⊢
  cases huv with
  | bottom => exact .bottom _
  | range ha => cases huw with
    | range hb =>
      obtain ⟨halow, hahigh⟩ := Bounds.includes_iff.1 ha
      obtain ⟨hblow, hbhigh⟩ := Bounds.includes_iff.1 hb
      exact included_ofBounds_iff.2 ⟨max_le halow hblow, le_min hahigh hbhigh⟩

/-- Two ranges meet between the larger lower and the smaller upper bound, and nowhere if these
cross. -/
theorem meet_range (a b : Bounds) :
    meet (range a) (range b) = ofBounds (max a.low b.low) (min a.high b.high) := by
  refine meet_cases (p := (· = ofBounds (max a.low b.low) (min a.high b.high)))
    (fun h => ?_) (fun h => ?_) fun _ _ => rfl
  · have hba : b.includes a = true := by
      rcases h with hab | hbottom | htop
      · cases eq_of_beq hab
        exact a.includes_refl
      · cases hbottom
      · exact Bounds.includes_of_isInfinite htop a
    obtain ⟨hlow, hhigh⟩ := Bounds.includes_iff.1 hba
    rw [max_eq_left hlow, min_eq_left hhigh, ofBounds_of_le a.low_le_high]
  · have hab : a.includes b = true := by
      rcases h with hbottom | htop
      · cases hbottom
      · exact Bounds.includes_of_isInfinite htop b
    obtain ⟨hlow, hhigh⟩ := Bounds.includes_iff.1 hab
    rw [max_eq_right hlow, min_eq_right hhigh, ofBounds_of_le b.low_le_high]

end Interval

/-! ## Type sets -/

namespace InferredTypes

/-- The runtime types as a set of alternatives. -/
def toPowerset : InferredTypes → Powerset Ty
  | top => .top
  | types s => .finite s

/-- Type sets are ordered by inclusion, like the sets of alternatives that they are. -/
theorem orderedBy : OrderedBy fun v w : InferredTypes => v.toPowerset ≤ w.toPowerset := by
  -- The two domains have the same constructors, so the laws of powersets hold along the map.
  refine .of_map rfl rfl (fun v => by cases v <;> rfl) (fun v => by cases v <;> rfl) ?_ ?_ ?_ ?_
  · intro v w h
    cases eq_of_beq h
    exact ⟨le_rfl, le_rfl⟩
  · intro v w hv hw
    rw [Powerset.le_iff_included]
    cases v with
    | top => cases hv.1
    | types s => cases w with
      | top => cases hw.1
      | types t => exact Powerset.included_finite_iff.symm
  · intro v w u hv hw
    simp only [Powerset.le_iff_included]
    cases v with
    | top => cases hv.1
    | types s => cases w with
      | top => cases hw.1
      | types t => exact Powerset.orderedBy.properJoin_iff _ hv hw
  · intro v w hv hw
    simp only [Powerset.le_iff_included]
    cases v with
    | top => cases hv.1
    | types s => cases w with
      | top => cases hw.1
      | types t => exact Powerset.orderedBy.properMeet_le hv hw

instance : LawfulLattice InferredTypes := orderedBy.lawful

/-- Meets of type sets are greatest, as they are intersections. -/
theorem respectsMeets (u : InferredTypes) : RespectsMeets u := by
  refine .of_properMeet fun {v w} hv hw huv huw => ?_
  rw [orderedBy.le_iff, Powerset.le_iff_included] at huv huw ⊢
  cases v with
  | top => cases hv.1
  | types s => cases w with
    | top => cases hw.1
    | types t => cases u with
      | top => cases huv
      | types r =>
        exact .finite (OrdSet.subset_inter_iff.2
          ⟨Powerset.included_finite_iff.1 huv, Powerset.included_finite_iff.1 huw⟩)

end InferredTypes

/-! ## Summary heaps -/

namespace SummaryHeap

/-- Inclusion of the names, between the marks. -/
inductive Included : SummaryHeap → SummaryHeap → Prop where
  | bottom (h : SummaryHeap) : Included bottom h
  | top (g : SummaryHeap) : Included g top
  | allocated {s t : OrdSet String} : s.subset t = true → Included (allocated s) (allocated t)

theorem included_allocated_iff {s t : OrdSet String} :
    Included (allocated s) (allocated t) ↔ s.subset t = true :=
  ⟨fun | .allocated h => h, .allocated⟩

theorem eq_top_of_isTop {h : SummaryHeap} (htop : isTop h = true) : h = top := eq_of_beq htop

theorem eq_bottom_of_isBottom {h : SummaryHeap} (hbottom : isBottom h = true) : h = bottom :=
  eq_of_beq hbottom

/-- A heap that is neither top nor bottom lists what is allocated. -/
theorem exists_names_of_isProper {h : SummaryHeap} (hp : IsProper h) : ∃ s, h = allocated s := by
  cases h with
  | top => cases hp.1
  | bottom => cases hp.2
  | allocated s => exact ⟨s, rfl⟩

theorem included_refl (h : SummaryHeap) : Included h h := by
  cases h with
  | top => exact .top _
  | bottom => exact .bottom _
  | allocated s => exact .allocated s.subset_refl

/-- Heaps are ordered by what they list. The heap that lists nothing is still above the bottom one.
-/
theorem orderedBy : OrderedBy Included where
  isTop_top := rfl
  isBottom_bottom := rfl
  isBottom_eq_false h := by
    rw [eq_top_of_isTop h]
    rfl
  refl := included_refl
  trans hfg hgh := by
    cases hgh with
    | top => exact .top _
    | bottom => cases hfg with
      | bottom => exact .bottom _
    | allocated hgh => cases hfg with
      | bottom => exact .bottom _
      | allocated hfg => exact .allocated (OrdSet.subset_trans hfg hgh)
  of_beq {g h} hgh := by
    cases eq_of_beq hgh
    exact ⟨included_refl g, included_refl g⟩
  of_isBottom h hg := eq_bottom_of_isBottom hg ▸ .bottom h
  of_isTop g _ hh := eq_top_of_isTop hh ▸ .top g
  isTop_of hgh hg := by
    cases eq_top_of_isTop hg
    cases hgh
    rfl
  isBottom_of hgh hh := by
    cases eq_bottom_of_isBottom hh
    cases hgh
    rfl
  properLe_iff hg hh := by
    obtain ⟨s, rfl⟩ := exists_names_of_isProper hg
    obtain ⟨t, rfl⟩ := exists_names_of_isProper hh
    exact included_allocated_iff.symm
  properJoin_iff k hg hh := by
    obtain ⟨s, rfl⟩ := exists_names_of_isProper hg
    obtain ⟨t, rfl⟩ := exists_names_of_isProper hh
    cases k with
    | top => exact iff_of_true (.top _) ⟨.top _, .top _⟩
    | bottom => exact iff_of_false nofun fun h => nomatch h.1
    | allocated u =>
      rw [included_allocated_iff, included_allocated_iff]
      exact included_allocated_iff.trans OrdSet.union_subset_iff
  properMeet_le hg hh := by
    obtain ⟨s, rfl⟩ := exists_names_of_isProper hg
    obtain ⟨t, rfl⟩ := exists_names_of_isProper hh
    have h := OrdSet.subset_inter_iff.1 (OrdSet.subset_refl (s.inter t))
    exact ⟨.allocated h.1, .allocated h.2⟩

instance : LawfulLattice SummaryHeap := orderedBy.lawful

/-- Meets of heaps are greatest below their operands. -/
theorem respectsMeets (k : SummaryHeap) : RespectsMeets k := by
  refine .of_properMeet fun hg hh hkg hkh => ?_
  obtain ⟨s, rfl⟩ := exists_names_of_isProper hg
  obtain ⟨t, rfl⟩ := exists_names_of_isProper hh
  rw [orderedBy.le_iff] at hkg hkh ⊢
  cases hkg with
  | bottom => exact .bottom _
  | allocated hs => cases hkh with
    | allocated ht => exact .allocated (OrdSet.subset_inter_iff.2 ⟨hs, ht⟩)

end SummaryHeap

end Overapprox
