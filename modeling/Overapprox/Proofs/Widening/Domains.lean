import Overapprox.Proofs.Lattice.Domains
import Overapprox.Proofs.Lattice.Pointwise
import Overapprox.Proofs.Widening.Basic

/-!
# The widenings of values, sets and functions settle

A bound of an interval jumps to infinity once. Sets of alternatives grow inside the finite set from
which the alternatives are taken. A function loses keys, and the values of the others grow.

* `Interval.settles`: intervals settle whatever they are widened by.
* `GrowsByUnion.settles`: sets settle inside a finite one.
* `Pointwise.settles`: functions settle when their values do.
-/

namespace Overapprox

open AbstractLattice
open scoped LawfulLattice

/-! ## Intervals -/

namespace Bounds

theorem low_widen (a b : Bounds) :
    (a.widen b).low = if b.low < a.low then .negInf else a.low := rfl

theorem high_widen (a b : Bounds) :
    (a.widen b).high = if a.high < b.high then .posInf else a.high := rfl

theorem le_widen (a b : Bounds) :
    (a.widen b).includes a = true ∧ (a.widen b).includes b = true := by
  have hlow : (a.widen b).low ≤ a.low ∧ (a.widen b).low ≤ b.low := by
    rw [low_widen]
    split
    · exact ⟨Extended.negInf_le _, Extended.negInf_le _⟩
    · exact ⟨le_rfl, not_lt.1 ‹_›⟩
  have hhigh : a.high ≤ (a.widen b).high ∧ b.high ≤ (a.widen b).high := by
    rw [high_widen]
    split
    · exact ⟨Extended.le_posInf _, Extended.le_posInf _⟩
    · exact ⟨le_rfl, not_lt.1 ‹_›⟩
  exact ⟨includes_iff.2 ⟨hlow.1, hhigh.1⟩, includes_iff.2 ⟨hlow.2, hhigh.2⟩⟩

/-- The number of bounds that are not infinite yet. -/
def slack (b : Bounds) : ℕ :=
  (if b.low = .negInf then 0 else 1) + (if b.high = .posInf then 0 else 1)

/-- A widening changes nothing, or some bound becomes infinite. -/
theorem widen_eq_or_slack_lt (a b : Bounds) : a.widen b = a ∨ (a.widen b).slack < a.slack := by
  have hlow : b.low < a.low → a.low ≠ .negInf := fun h ha =>
    not_le_of_gt h (ha ▸ Extended.negInf_le b.low)
  have hhigh : a.high < b.high → a.high ≠ .posInf := fun h ha =>
    not_le_of_gt h (ha ▸ Extended.le_posInf b.high)
  by_cases hl : b.low < a.low
  · right
    rw [slack, slack, low_widen, high_widen, if_pos hl, if_neg (hlow hl)]
    split <;> split <;> simp_all
  · by_cases hh : a.high < b.high
    · right
      rw [slack, slack, low_widen, high_widen, if_neg hl, if_pos hh, if_neg (hhigh hh)]
      simp
    · left
      obtain ⟨low, high, hle⟩ := a
      simp only [widen, if_neg hl, if_neg hh]

end Bounds

namespace Interval

instance : LawfulWidening Interval := .of_proper fun {v w} hv hw => by
  rw [le_iff_included, le_iff_included]
  cases v with
  | bottom => cases hv.2
  | range a => cases w with
    | bottom => cases hw.2
    | range b => exact ⟨.range (Bounds.le_widen a b).1, .range (Bounds.le_widen a b).2⟩

/-- A bound can become infinite once, so an interval changes at most three times. -/
theorem settles : Settles fun _ : Interval => True := by
  refine .of_proper (measure fun v : Interval => v.bounds?.elim 0 Bounds.slack).wf
    fun {v w} hv hw _ => ?_
  cases v with
  | bottom => cases hv.2
  | range a => cases w with
    | bottom => cases hw.2
    | range b => exact (Bounds.widen_eq_or_slack_lt a b).imp_left fun h => congrArg range h

end Interval

/-! ## Sets inside a finite one -/

/-- Proper values are sets, which are joined and widened by their unions. -/
structure GrowsByUnion {α β : Type} [BEq α] [AbstractLattice α] [Ord β] [Std.TransOrd β]
    (elements : α → OrdSet β) (ofSet : OrdSet β → α) : Prop where
  ofSet_elements {a : α} : IsProper a → ofSet (elements a) = a
  elements_ofSet (s : OrdSet β) : elements (ofSet s) = s
  properJoin_eq (a b : α) : properJoin a b = ofSet ((elements a).union (elements b))
  properWiden_eq (a b : α) : properWiden a b = ofSet ((elements a).union (elements b))

namespace GrowsByUnion

variable {α β : Type} [BEq α] [AbstractLattice α] [Ord β] [Std.TransOrd β] {elements : α → OrdSet β}
  {ofSet : OrdSet β → α}

theorem elements_join_subset (h : GrowsByUnion elements ofSet) {u : OrdSet β} {a b : α}
    (ha : (elements a).subset u = true) (hb : (elements b).subset u = true) :
    (elements (join a b)).subset u = true := by
  refine join_keeps (p := fun a => (elements a).subset u = true) (fun {a b} _ _ ha hb => ?_) ha hb
  rw [h.properJoin_eq, h.elements_ofSet]
  exact OrdSet.union_subset_iff.2 ⟨ha, hb⟩

variable [LawfulLattice α] [LawfulWidening α]

/-- A set that grows inside a finite one leaves less of that one to be added. -/
theorem settles (h : GrowsByUnion elements ofSet) (u : OrdSet β) :
    Settles fun b : α => (elements b).subset u = true := by
  refine .of_proper (measure fun a => (u.diff (elements a)).size).wf fun {a b} ha _ hb => ?_
  rw [h.properWiden_eq]
  rcases OrdSet.union_eq_or_size_diff_lt (s := elements a) hb with hunion | hlt
  · exact .inl (by rw [hunion, h.ofSet_elements ha])
  · right
    show (u.diff (elements (ofSet _))).size < _
    rwa [h.elements_ofSet]

end GrowsByUnion

theorem Powerset.growsByUnion {α : Type} [Ord α] [Std.TransOrd α] [BEq α] :
    GrowsByUnion (Powerset.elements (α := α)) .finite where
  ofSet_elements {s} hs := by
    cases s with
    | top => cases hs.1
    | finite s => rfl
  elements_ofSet _ := rfl
  properJoin_eq _ _ := rfl
  properWiden_eq _ _ := rfl

theorem InferredTypes.growsByUnion : GrowsByUnion InferredTypes.runtimeTypes .types where
  ofSet_elements {v} hv := by
    cases v with
    | top => cases hv.1
    | types s => rfl
  elements_ofSet _ := rfl
  properJoin_eq _ _ := rfl
  properWiden_eq _ _ := rfl

theorem SummaryHeap.growsByUnion : GrowsByUnion SummaryHeap.names .allocated where
  ofSet_elements hh := by
    obtain ⟨s, rfl⟩ := exists_names_of_isProper hh
    rfl
  elements_ofSet _ := rfl
  properJoin_eq _ _ := rfl
  properWiden_eq _ _ := rfl

instance {α : Type} [Ord α] [Std.TransOrd α] [BEq α] [Std.LawfulBEqOrd α] :
    LawfulWidening (Powerset α) :=
  .of_join fun _ _ => rfl

instance : LawfulWidening InferredTypes := .of_join fun _ _ => rfl

instance : LawfulWidening SummaryHeap := .of_join fun _ _ => rfl

/-! ## Functions -/

namespace Pointwise

variable {κ ν : Type} [BEq ν] [AbstractLattice ν] {p : ν → Prop}

/-- `es'` lists some of the keys of `es`, each with its value or one that grew out of it. -/
inductive Thins (p : ν → Prop) : List (κ × ν) → List (κ × ν) → Prop where
  | nil : Thins p [] []
  | drop {es' es : List (κ × ν)} (e : κ × ν) : Thins p es' es → Thins p es' (e :: es)
  | keep {es' es : List (κ × ν)} {v' v : ν} (k : κ) : v' = v ∨ Grows p v' v →
      Thins p es' es → Thins p ((k, v') :: es') ((k, v) :: es)

/-- Some key is dropped or some value grows. -/
def StrictlyThins (p : ν → Prop) (es' es : List (κ × ν)) : Prop := es' ≠ es ∧ Thins p es' es

theorem acc_of_thins {es' es : List (κ × ν)} (h : Thins p es' es)
    (hes : Acc (StrictlyThins p) es) : Acc (StrictlyThins p) es' := by
  by_cases heq : es' = es
  · exact heq ▸ hes
  · exact hes.inv ⟨heq, h⟩

/-- Induction on the first value, and for each on the entries after it. -/
theorem acc_cons (hp : Settles p) (k : κ) (v : ν) :
    ∀ es : List (κ × ν), Acc (StrictlyThins p) es → Acc (StrictlyThins p) ((k, v) :: es) := by
  induction v using hp.induction with
  | _ v ihv =>
    intro es hes
    induction hes with
    | intro es hes ihes =>
      refine ⟨_, fun ds hds => ?_⟩
      obtain ⟨hne, hthins⟩ := hds
      cases hthins with
      | drop _ h => exact acc_of_thins h ⟨es, hes⟩
      | keep _ hv h =>
        rcases hv with rfl | hv
        · exact ihes _ ⟨fun heq => hne (heq ▸ rfl), h⟩
        · exact ihv _ hv _ (acc_of_thins h ⟨es, hes⟩)

/-- A function can lose its keys and let the values grow, in any order, only finitely often. -/
theorem wellFounded_strictlyThins (hp : Settles p) :
    WellFounded (StrictlyThins (κ := κ) p) := by
  refine ⟨fun es => ?_⟩
  induction es with
  | nil =>
    refine ⟨_, fun ds hds => ?_⟩
    obtain ⟨hne, hthins⟩ := hds
    cases hthins
    exact absurd rfl hne
  | cons e es ih => exact acc_cons hp e.1 e.2 es ih

variable [Ord κ]

/-- Only the keys that the other map binds stay. -/
theorem thins_filterMap {m : OrdMap κ ν} (hm : ∀ k w, m.find? k = some w → p w) :
    ∀ es : List (κ × ν),
      Thins p (es.filterMap (OrdMap.keepEntry fun k v => (m.find? k).map (widen v))) es
  | [] => .nil
  | (k, v) :: rest => by
    have hrest := thins_filterMap hm rest
    rw [List.filterMap_cons]
    cases hw : m.find? k with
    | none => simpa [OrdMap.keepEntry, hw] using hrest.drop (k, v)
    | some w => simpa [OrdMap.keepEntry, hw] using hrest.keep k (widen_eq_or_grows (hm k w hw))

variable [Std.TransOrd κ] [BEq κ] [Std.LawfulBEqOrd κ] [LawfulLattice ν] [LawfulWidening ν]

instance : LawfulWidening (Pointwise κ ν) := .of_proper fun {f g} hf hg => by
  have hf := ne_bottom_of_isProper hf
  have hg := ne_bottom_of_isProper hg
  have hget (k : κ) : f.get k ≤ (zipCommon widen f g).get k ∧
      g.get k ≤ (zipCommon widen f g).get k := by
    obtain ⟨v, w, hv, hw, hwiden⟩ | ⟨-, htop⟩ := get_zipCommon (f := f) (g := g) (k := k) widen
    · rw [hwiden, get_of_find? hv, get_of_find? hw]
      exact LawfulWidening.le_widen v w
    · rw [htop]
      exact ⟨le_of_isTop LawfulLattice.isTop_top, le_of_isTop LawfulLattice.isTop_top⟩
  rw [le_iff_within, le_iff_within]
  exact ⟨.pointwise (table_ne_bottom _) fun k => (hget k).1,
    .pointwise (table_ne_bottom _) fun k => (hget k).2⟩

/-- Functions settle when their values do, since no keys are added. -/
theorem settles (hp : Settles p) : Settles fun f : Pointwise κ ν => ∀ e ∈ f.entries, p e.2 := by
  refine .of_proper (InvImage.wf entries (wellFounded_strictlyThins hp)) fun {f g} hf hg hgp => ?_
  cases f with
  | top => cases hf.1
  | bottom => cases hf.2
  | table m =>
    have hthins : Thins p (zipCommon widen (table m) g).entries m.entries :=
      thins_filterMap (OrdMap.forall_entries_iff.1 hgp) m.entries
    by_cases heq : (zipCommon widen (table m) g).entries = m.entries
    · exact .inl (congrArg table (OrdMap.eq_of_entries_eq heq))
    · exact .inr ⟨heq, hthins⟩

end Pointwise

end Overapprox
