import Mathlib.Data.Fintype.Pigeonhole
import Mathlib.Data.Set.Finite.List
import Overapprox.Proofs.Concrete.Expression
import Overapprox.Proofs.Lattice.Domains
import Overapprox.Proofs.Lattice.Pointwise
import Overapprox.Proofs.Order.Identity

/-!
# The operations on functions are the pointwise ones

A function has several forms: the top mark, a table of tops, tops that are listed or left out, the
bottom mark and a table of bottoms. Whatever the forms of the operands, an operation on functions
is the operation on their values at every key, and one function is below another when its values
are. The values need no laws for this except that only top is top and only bottom is bottom, and
the order needs a key that is not listed, to tell a table from the bottom mark.

* `UniqueBounds`: lattices with one top and one bottom, up to equality.
* `InfinitelyManyKeys.of_injective`: there are always further keys among infinitely many.
* `Pointwise.get_upper`, `Pointwise.get_meet`, `Pointwise.le_iff_forall_le_get`: the operations.
* `Pointwise.operations_pointwise`: all of them together.
-/

namespace Overapprox

open AbstractLattice

/-! ## One top and one bottom -/

/-- Up to equality, only top is top and only bottom is bottom, and these are different. -/
class UniqueBounds (α : Type) [BEq α] [AbstractLattice α] : Prop where
  isTop_iff {a : α} : isTop a = true ↔ (a == top) = true
  isBottom_iff {a : α} : isBottom a = true ↔ (a == bottom) = true
  top_bne_bottom : ((top : α) == bottom) = false

namespace AbstractLattice

variable {α : Type} [BEq α] [AbstractLattice α]

/-- What joins and widenings share: an operand for a reason, or a value made of the operands. -/
def upper (made : α → α → α) (a b : α) : α :=
  if a == b || isBottom b || isTop a then a
  else if isBottom a || isTop b then b
  else made a b

theorem upper_eq_left (made : α → α → α) {a b : α}
    (h : (a == b) = true ∨ isBottom b = true ∨ isTop a = true) : upper made a b = a := by
  rcases h with h | h | h <;> simp [upper, h]

/-- A meet with an operand that decides it is this operand, annotations included. -/
theorem meet_eq_left {a b : α} (h : (a == b) = true ∨ isBottom a = true ∨ isTop b = true) :
    meet a b = a := by
  rcases h with h | h | h <;> simp [meet, h]

/-- An operand decides the order, or both are compared as proper ones. -/
theorem le_iff_cases {a b : α} : le a b = true ↔
    ((a == b) = true ∨ isBottom a = true ∨ isTop b = true) ∨
      isTop a = false ∧ isBottom b = false ∧ properLe a b = true := by
  unfold le
  split
  case isTrue h =>
    rw [Bool.or_eq_true, Bool.or_eq_true, or_assoc] at h
    exact iff_of_true rfl (.inl h)
  case isFalse h =>
    rw [Bool.or_eq_true, Bool.or_eq_true, or_assoc] at h
    rw [or_iff_right h]
    split
    case isTrue hmarked =>
      refine iff_of_false Bool.false_ne_true ?_
      rintro ⟨ha, hb, -⟩
      rw [ha, hb] at hmarked
      cases hmarked
    case isFalse hmarked =>
      rw [Bool.or_eq_true, not_or, Bool.not_eq_true, Bool.not_eq_true] at hmarked
      exact ⟨fun hle => ⟨hmarked.1, hmarked.2, hle⟩, fun hle => hle.2.2⟩

end AbstractLattice

namespace UniqueBounds

variable {α : Type} [BEq α] [EquivBEq α] [AbstractLattice α] [UniqueBounds α] {a b : α}

theorem isTop_top : isTop (top : α) = true := isTop_iff.2 BEq.rfl

theorem isBottom_bottom : isBottom (bottom : α) = true := isBottom_iff.2 BEq.rfl

theorem beq_of_isTop (ha : isTop a = true) (hb : isTop b = true) : (a == b) = true :=
  BEq.trans (isTop_iff.1 ha) (BEq.symm (isTop_iff.1 hb))

theorem beq_of_isBottom (ha : isBottom a = true) (hb : isBottom b = true) : (a == b) = true :=
  BEq.trans (isBottom_iff.1 ha) (BEq.symm (isBottom_iff.1 hb))

theorem not_isBottom (ha : isTop a = true) : isBottom a ≠ true := fun hb =>
  Bool.eq_false_iff.1 top_bne_bottom (BEq.trans (BEq.symm (isTop_iff.1 ha)) (isBottom_iff.1 hb))

/-- Where the right operand of a join or a widening decides, it is returned up to equality. -/
theorem upper_beq_right (made : α → α → α) (h : isBottom a = true ∨ isTop b = true) :
    (upper made a b == b) = true := by
  refine upper_cases (p := fun c => (c == b) = true) ?_ (fun _ => BEq.rfl) ?_
  · rintro (hab | hb | ha)
    · exact hab
    · exact h.elim (beq_of_isBottom · hb) fun htop => absurd hb (not_isBottom htop)
    · exact h.elim (absurd · (not_isBottom ha)) (beq_of_isTop ha)
  · rintro ⟨-, ha⟩ ⟨hb, -⟩
    exact h.elim (absurd · (Bool.eq_false_iff.1 ha)) (absurd · (Bool.eq_false_iff.1 hb))

theorem meet_beq_right (h : isBottom b = true ∨ isTop a = true) : (meet a b == b) = true := by
  refine meet_cases (p := fun c => (c == b) = true) ?_ (fun _ => BEq.rfl) ?_
  · rintro (hab | ha | hb)
    · exact hab
    · exact h.elim (beq_of_isBottom ha) fun htop => absurd ha (not_isBottom htop)
    · exact h.elim (absurd · (not_isBottom hb)) (beq_of_isTop · hb)
  · rintro ⟨ha, -⟩ ⟨-, hb⟩
    exact h.elim (absurd · (Bool.eq_false_iff.1 hb)) (absurd · (Bool.eq_false_iff.1 ha))

/-- Nothing but top is above top. -/
theorem isTop_of_le (h : le a b = true) (ha : isTop a = true) : isTop b = true := by
  rcases le_iff_cases.1 h with (hab | hbottom | hb) | ⟨hproper, -⟩
  · exact isTop_iff.2 (BEq.trans (BEq.symm hab) (isTop_iff.1 ha))
  · exact absurd hbottom (not_isBottom ha)
  · exact hb
  · exact absurd ha (Bool.eq_false_iff.1 hproper)

theorem not_top_le_bottom : le (top : α) bottom ≠ true := fun h =>
  not_isBottom (isTop_of_le h isTop_top) isBottom_bottom

end UniqueBounds

instance : UniqueBounds Interval where
  isTop_iff {v} := by
    rw [beq_iff_eq]
    cases v with
    | bottom => exact iff_of_false nofun nofun
    | range b =>
      constructor
      · intro h
        obtain ⟨low, high, hle⟩ := b
        obtain ⟨rfl, rfl⟩ := Bounds.isInfinite_iff.1 h
        rfl
      · rintro ⟨⟩
        rfl
  isBottom_iff {v} := by cases v <;> rfl
  top_bne_bottom := rfl

/-! ## Keys -/

/-- Whatever keys are listed, there is another one. -/
def InfinitelyManyKeys (κ : Type) [Ord κ] : Prop :=
  ∀ ks : List κ, ∃ k, ∀ l ∈ ks, compare k l ≠ .eq

/-- There are infinitely many keys if there is a different one for each of infinitely many things:
only finitely many of these keys are listed. -/
theorem InfinitelyManyKeys.of_injective {κ ι : Type} [Ord κ] [Std.TransOrd κ] [Infinite ι]
    (f : ι → κ) (hf : ∀ i j, compare (f i) (f j) = .eq → i = j) : InfinitelyManyKeys κ := by
  intro ks
  by_contra hlisted
  push Not at hlisted
  choose listed hmem hcompare using fun i => hlisted (f i)
  have : Finite { k // k ∈ ks } := (List.finite_toSet ks).to_subtype
  obtain ⟨i, j, hne, hij⟩ :=
    Finite.exists_ne_map_eq_of_infinite fun i => (⟨listed i, hmem i⟩ : { k // k ∈ ks })
  have heq : listed i = listed j := congrArg Subtype.val hij
  refine hne (hf i j (Std.TransCmp.eq_trans (hcompare i) ?_))
  rw [heq]
  exact Std.OrientedCmp.eq_symm (hcompare j)

/-- Where only equal keys compare as equal, infinitely many keys are infinitely many values. -/
theorem InfinitelyManyKeys.of_infinite {κ : Type} [Ord κ] [Std.TransOrd κ] [Std.LawfulEqOrd κ]
    [Infinite κ] : InfinitelyManyKeys κ :=
  .of_injective id fun _ _ => Std.LawfulEqCmp.eq_of_compare

/-- There are infinitely many identifiers, as there are infinitely many names. -/
theorem Identifier.infinitelyManyKeys : InfinitelyManyKeys Identifier :=
  .of_injective intVar fun _ _ h => by
    have hsame := Std.LawfulBEqOrd.compare_eq_iff_beq.1 h
    exact eq_of_beq hsame

namespace Pointwise

variable {κ ν : Type} [Ord κ] [Std.TransOrd κ] [BEq κ] [Std.LawfulBEqOrd κ] [BEq ν] [EquivBEq ν]
  [AbstractLattice ν] [UniqueBounds ν] {f g : Pointwise κ ν} {k : κ}

/-! ## Forms of functions -/

omit [Std.LawfulBEqOrd κ] in
theorem isTop_get (h : isTop f = true) (k : κ) : isTop (f.get k) = true :=
  ((isTop_iff_of_isTop_top UniqueBounds.isTop_top).1 h).2 k

omit [Std.LawfulBEqOrd κ] in
theorem isBottom_get (h : isBottom f = true) (k : κ) : isBottom (f.get k) = true := by
  obtain rfl := isBottom_iff.1 h
  exact UniqueBounds.isBottom_bottom

omit [UniqueBounds ν] in
theorem get_beq_get (h : (f == g) = true) (k : κ) : (f.get k == g.get k) = true :=
  get_rel_get_of_beq (r := fun v w => (v == w) = true) BEq.rfl BEq.rfl id h k

omit [Std.TransOrd κ] [BEq κ] [Std.LawfulBEqOrd κ] [EquivBEq ν] [UniqueBounds ν] in
/-- A key that a function does not list is mapped to top. -/
theorem get_of_unlisted (hf : f ≠ bottom) (h : ∀ l ∈ f.keys, compare k l ≠ .eq) :
    f.get k = AbstractLattice.top := by
  refine get_of_find?_none hf (Option.eq_none_iff_forall_ne_some.2 fun v hv => ?_)
  obtain ⟨e, he, hke, -⟩ := OrdMap.exists_mem_of_find? hv
  exact h e.1 (List.mem_map_of_mem he) hke

/-! ## Joins and widenings -/

omit [BEq κ] [Std.LawfulBEqOrd κ] in
/-- A key that only one operand lists is top in the other, and the operation on the values is top
too. -/
theorem get_zipCommon_upper (made : ν → ν → ν) (hf : f ≠ bottom) (hg : g ≠ bottom) :
    ((zipCommon (upper made) f g).get k == upper made (f.get k) (g.get k)) = true := by
  obtain ⟨v, w, hv, hw, heq⟩ | ⟨hnone, htop⟩ :=
    get_zipCommon (f := f) (g := g) (k := k) (upper made)
  · rw [heq, get_of_find? hv, get_of_find? hw]
    exact BEq.rfl
  · rw [htop]
    rcases hnone with hnone | hnone
    · rw [get_of_find?_none hf hnone, upper_eq_left made (.inr (.inr UniqueBounds.isTop_top))]
      exact BEq.rfl
    · rw [get_of_find?_none hg hnone]
      exact BEq.symm (UniqueBounds.upper_beq_right made (.inr UniqueBounds.isTop_top))

/-- An operand that is returned for a reason is returned at every key for the same reason. -/
theorem get_upper (made : ν → ν → ν) (f g : Pointwise κ ν) (k : κ) :
    ((upper (zipCommon (upper made)) f g).get k == upper made (f.get k) (g.get k)) = true := by
  refine upper_cases (p := fun h : Pointwise κ ν => (h.get k == upper made (f.get k) (g.get k)) = true)
    (fun hleft => ?_) (fun hright => ?_) fun hf hg => ?_
  · rw [upper_eq_left made (hleft.imp (get_beq_get · k)
      (Or.imp (isBottom_get · k) (isTop_get · k)))]
    exact BEq.rfl
  · exact BEq.symm
      (UniqueBounds.upper_beq_right made (hright.imp (isBottom_get · k) (isTop_get · k)))
  · exact get_zipCommon_upper made (ne_bottom_of_isProper hf) (ne_bottom_of_isProper hg)

/-! ## Meets -/

omit [BEq κ] [Std.LawfulBEqOrd κ] in
/-- A key that one operand does not list is top there, so the meet is the value of the other. -/
theorem get_meetAll (hf : f ≠ bottom) (hg : g ≠ bottom) :
    ((meetAll f g).get k == meet (f.get k) (g.get k)) = true := by
  rw [get_of_ne_bottom (f := meetAll f g) (table_ne_bottom _), find?_meetAll]
  cases hw : g.bindings.find? k with
  | none =>
    rw [get_of_find?_none hg hw, meet_eq_left (.inr (.inr UniqueBounds.isTop_top)),
      get_of_ne_bottom hf]
    exact BEq.rfl
  | some w =>
    rw [get_of_find? hw]
    cases hv : f.bindings.find? k with
    | none =>
      rw [get_of_find?_none hf hv]
      exact BEq.symm (UniqueBounds.meet_beq_right (.inr UniqueBounds.isTop_top))
    | some v =>
      rw [get_of_find? hv]
      exact BEq.rfl

/-- At every key a meet has the meet of the two values, also where an operand decides it. -/
theorem get_meet (f g : Pointwise κ ν) (k : κ) :
    ((meet f g).get k == meet (f.get k) (g.get k)) = true := by
  refine meet_cases (p := fun h : Pointwise κ ν => (h.get k == meet (f.get k) (g.get k)) = true)
    (fun hleft => ?_) (fun hright => ?_) fun hf hg => ?_
  · rw [meet_eq_left (hleft.imp (get_beq_get · k) (Or.imp (isBottom_get · k) (isTop_get · k)))]
    exact BEq.rfl
  · exact BEq.symm
      (UniqueBounds.meet_beq_right (hright.imp (isBottom_get · k) (isTop_get · k)))
  · exact get_meetAll (ne_bottom_of_isProper hf) (ne_bottom_of_isProper hg)

/-! ## The order -/

/-- The listed keys of the larger operand are enough for two tables. The bottom mark is told from
tables at a key that they do not list. -/
theorem le_iff_forall_le_get (hκ : InfinitelyManyKeys κ) :
    le f g = true ↔ ∀ k, le (f.get k) (g.get k) = true := by
  have htop := UniqueBounds.isTop_top (α := ν)
  constructor
  · intro h k
    rcases le_iff_cases.1 h with (heq | hbottom | htop) | ⟨-, hg, hle⟩
    · exact le_iff_cases.2 (.inl (.inl (get_beq_get heq k)))
    · exact le_of_isBottom (isBottom_get hbottom k)
    · exact le_of_isTop (isTop_get htop k)
    · have hmark : g ≠ bottom := fun h => Bool.eq_false_iff.1 hg (isBottom_iff.2 h)
      exact (properLe_iff_of_isTop_top htop hmark).1 hle k
  · intro h
    by_cases hf : f = bottom
    · exact le_of_isBottom (isBottom_iff.2 hf)
    by_cases hgtop : isTop g = true
    · exact le_of_isTop hgtop
    have hg : g ≠ bottom := by
      rintro rfl
      obtain ⟨k, hk⟩ := hκ f.keys
      exact UniqueBounds.not_top_le_bottom (get_of_unlisted hf hk ▸ h k)
    refine le_iff_cases.2 (.inr ⟨?_, ?_, (properLe_iff_of_isTop_top htop hg).2 h⟩)
    · refine Bool.eq_false_iff.2 fun hftop => hgtop ?_
      exact (isTop_iff_of_isTop_top htop).2
        ⟨hg, fun k => UniqueBounds.isTop_of_le (h k) (isTop_get hftop k)⟩
    · exact Bool.eq_false_iff.2 fun hbottom => hg (isBottom_iff.1 hbottom)

/-- The operations and the order of functions are those of their values at every key, up to the
lattice's own equality of values. -/
theorem operations_pointwise (hκ : InfinitelyManyKeys κ) (f g : Pointwise κ ν) :
    (∀ k, ((join f g).get k == join (f.get k) (g.get k)) = true) ∧
      (∀ k, ((meet f g).get k == meet (f.get k) (g.get k)) = true) ∧
      (∀ k, ((widen f g).get k == widen (f.get k) (g.get k)) = true) ∧
      (le f g = true ↔ ∀ k, le (f.get k) (g.get k) = true) :=
  ⟨get_upper properJoin f g, get_meet f g, get_upper properWiden f g, le_iff_forall_le_get hκ⟩

/-- The bottom mark is below a table of which one value is bottom, but not above it: the values of
the other keys are top. -/
theorem operations_pointwise_of_mark :
    ((join ((∅ : Pointwise Identifier Interval).put (intVar "x") .bottom) bottom).get
          (intVar "y") ==
        join (((∅ : Pointwise Identifier Interval).put (intVar "x") .bottom).get (intVar "y"))
          .bottom) = true ∧
      le ((∅ : Pointwise Identifier Interval).put (intVar "x") .bottom) bottom = false := by
  obtain ⟨hjoin, -, -, hle⟩ := operations_pointwise Identifier.infinitelyManyKeys
    ((∅ : Pointwise Identifier Interval).put (intVar "x") .bottom) bottom
  refine ⟨hjoin (intVar "y"), Bool.eq_false_iff.2 fun h => ?_⟩
  exact absurd (hle.1 h (intVar "y")) (by decide)

end Pointwise

end Overapprox
