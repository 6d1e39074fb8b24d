import Overapprox.Proofs.Types.Inference
import Overapprox.Proofs.Types.Supertype

/-!
# Type inference distributes over joins

Alternatives may be merged before or after the types of an operator are inferred. A join lists the
types of both operands, or is top where one of them is; it admits what one of them admits, and the
supertypes of pairs are taken of each alternative on its own. Operators on two operands do not tell
left from right, so one operand position stands for both.

* `InferredTypes.join_types`: joins of listed types are unions.
* `InferredTypes.binary_comm`: operators on two operands are symmetric.
* `InferredTypes.operators_distribute`: every operator distributes over joins in every operand.
-/

namespace Overapprox

open AbstractLattice
open scoped LawfulLattice

namespace InferredTypes

variable {v w : InferredTypes} {s s' t : TypeSet}

/-! ## Joins -/

theorem join_types (s t : TypeSet) : join (types s) (types t) = types (s.union t) := by
  refine join_cases (p := fun j => j = types (s.union t)) (fun hleft => ?_) (fun hright => ?_)
    fun _ _ => rfl
  · have hsub : t.subset s = true := by
      rcases hleft with heq | hempty | htop
      · cases eq_of_beq heq
        exact OrdSet.subset_refl s
      · exact OrdSet.empty_subset_of_isEmpty hempty s
      · cases htop
    rw [OrdSet.union_of_subset hsub]
  · rcases hright with hempty | htop
    · refine congrArg types (OrdSet.eq_of_mem_iff fun a => ?_)
      rw [OrdSet.mem_union, List.isEmpty_iff.1 hempty]
      simp
    · cases htop

theorem eq_top_of_isTop (h : isTop v = true) : v = top := by
  cases v with
  | top => rfl
  | types => cases h

theorem join_top_left (v : InferredTypes) : join top v = top := join_of_isTop_left rfl

theorem join_top_right (v : InferredTypes) : join v top = top :=
  eq_top_of_isTop (isTop_join_iff.2 (.inr rfl))

theorem join_eq_of_le (h : v ≤ w) : join v w = w := by
  obtain rfl | ⟨s, t, rfl, rfl, hst⟩ := le_cases h
  · exact join_top_right v
  · rw [join_types]
    refine congrArg types (OrdSet.eq_of_mem_iff fun a => ?_)
    rw [OrdSet.mem_union, or_iff_right_of_imp (OrdSet.subset_iff_mem.1 hst a)]

/-- A join has types of a kind where one of its operands has. -/
theorem admits_join (p : Ty → Bool) (v w : InferredTypes) :
    (join v w).admits p = (v.admits p || w.admits p) := by
  cases v with
  | top => rw [join_top_left]; rfl
  | types s => cases w with
    | top => rw [join_top_right]; exact (Bool.or_true _).symm
    | types t =>
      rw [join_types, Bool.eq_iff_iff, Bool.or_eq_true]
      simp only [admits, List.any_eq_true, OrdSet.mem_union, or_and_right, exists_or]

/-- One result or none, for either of two reasons. -/
theorem join_singleton_if (b c : Bool) (t : Ty) :
    join (if b then singleton t else bottom) (if c then singleton t else bottom) =
      if b || c then singleton t else bottom := by
  cases b with
  | true =>
    cases c with
    | true => exact join_self _
    | false => exact join_of_isBottom_right rfl
  | false =>
    cases c with
    | true => exact join_of_isBottom_left rfl rfl
    | false => exact join_self _

/-! ## Functions that distribute -/

/-- `f` may be applied before or after alternatives are merged, so it is monotone. -/
structure DistributesOverJoins (f : InferredTypes → InferredTypes) : Prop where
  join : ∀ v w, f (join v w) = join (f v) (f w)
  mono : ∀ v w, v ≤ w → f v ≤ f w

namespace DistributesOverJoins

variable {f : InferredTypes → InferredTypes}

theorem of_join (h : ∀ v w, f (AbstractLattice.join v w) = AbstractLattice.join (f v) (f w)) :
    DistributesOverJoins f where
  join := h
  mono v w hle := by
    have hjoin := LawfulLattice.le_join_left (f v) (f w)
    rwa [← h, join_eq_of_le hle] at hjoin

theorem const (r : InferredTypes) : DistributesOverJoins fun _ => r :=
  .of_join fun _ _ => (join_self r).symm

end DistributesOverJoins

/-! ## Operators -/

theorem ofKind_join (p : Ty → Bool) (result : Ty) (v w : InferredTypes) :
    (join v w).ofKind p result = join (v.ofKind p result) (w.ofKind p result) := by
  simp only [ofKind, admits_join, join_singleton_if]

theorem supertypes_union :
    supertypes (s.union s') t = (supertypes s t).union (supertypes s' t) := by
  refine OrdSet.eq_of_mem_iff fun c => ?_
  simp only [OrdSet.mem_union, mem_supertypes, or_and_right, exists_or]

/-- The common supertypes do not depend on the order of the operands. -/
theorem supertypes_comm (s t : TypeSet) : supertypes s t = supertypes t s := by
  refine OrdSet.eq_of_mem_iff fun c => ?_
  rw [mem_supertypes, mem_supertypes]
  constructor
  · rintro ⟨a, ha, hafits, b, hb, hbfits, rfl⟩
    exact ⟨b, hb, hbfits, a, ha, hafits, Ty.supertype_comm b a⟩
  · rintro ⟨b, hb, hbfits, a, ha, hafits, rfl⟩
    exact ⟨a, ha, hafits, b, hb, hbfits, Ty.supertype_comm a b⟩

/-- An operator on one operand distributes over joins, top included. -/
theorem unary_join (op : UnaryOp) (v w : InferredTypes) :
    unary op (join v w) = join (unary op v) (unary op w) := by
  cases op with
  | not => exact ofKind_join isBool .bool v w
  | strlen => exact ofKind_join isText .int32 v w
  | neg =>
    cases v with
    | top => simp only [join_top_left, unary]
    | types s => cases w with
      | top => simp only [join_top_right, unary]
      | types t =>
        simp only [join_types, unary]
        refine congrArg types (OrdSet.eq_of_mem_iff fun a => ?_)
        simp only [OrdSet.mem_union, OrdSet.filter, List.mem_filter, or_and_right]

/-- The operands of an operator may be exchanged. -/
theorem binary_comm (op : BinaryOp) (v w : InferredTypes) : binary op v w = binary op w v := by
  unfold binary
  split
  case isTrue =>
    cases v <;> cases w <;> simp only [supertypes_comm]
  case isFalse => simp only [Bool.and_comm]

/-- An operator on two operands distributes over joins of its left operand, and so of its right one.
-/
theorem binary_join (op : BinaryOp) (v w u : InferredTypes) :
    binary op (join v w) u = join (binary op v u) (binary op w u) := by
  unfold binary
  split
  case isTrue =>
    cases v <;> cases w <;> cases u <;>
      simp only [join_top_left, join_top_right, join_types, supertypes_union]
  case isFalse =>
    split
    case isTrue => simp only [admits_join, join_singleton_if, Bool.and_or_distrib_right]
    case isFalse =>
      split
      case isTrue => exact (join_self _).symm
      case isFalse => simp only [admits_join, join_singleton_if, Bool.and_or_distrib_right]

/-- Merging alternatives of an operand before or after an operator gives the same types, whatever
the other operands are; operators on two operands give the same types with the operands
exchanged. -/
theorem operators_distribute (opts : Options) :
    (∀ op, DistributesOverJoins (ValueDomain.evalUnary op)) ∧
    (∀ op v, DistributesOverJoins (ValueDomain.evalBinary opts op v) ∧
      DistributesOverJoins (ValueDomain.evalBinary opts op · v)) ∧
    (∀ op u v, DistributesOverJoins (ValueDomain.evalTernary op u v) ∧
      DistributesOverJoins (ValueDomain.evalTernary op u · v) ∧
      DistributesOverJoins (ValueDomain.evalTernary op · u v)) ∧
    (∀ op (v w : InferredTypes), ValueDomain.evalBinary opts op v w =
      ValueDomain.evalBinary opts op w v) := by
  have hleft (op : BinaryOp) (u : InferredTypes) : DistributesOverJoins (binary op · u) :=
    .of_join fun v w => binary_join op v w u
  have hright (op : BinaryOp) (u : InferredTypes) : DistributesOverJoins (binary op u) := by
    have hcomm : binary op u = (binary op · u) := funext fun v => binary_comm op u v
    rw [hcomm]
    exact hleft op u
  exact ⟨fun op => .of_join (unary_join op), fun op u => ⟨hright op u, hleft op u⟩,
    fun op u v => ⟨.const _, .const _, .of_join (ofKind_join isText .string)⟩, binary_comm⟩

/-- An integer of one of two widths, or null, is added to a float. -/
example : binary .add (join (singleton .int32) (types (.ofList [.builtin .int8, .null])))
    (singleton (.builtin .float32)) = singleton (.builtin .float32) := by decide

end InferredTypes

end Overapprox
