import Mathlib.Order.Lattice
import Overapprox.Proofs.Order.Set
import Overapprox.Ty.Supertype

/-!
# Common supertypes are least

Types are ordered by how precise they are: a number refines the wider ones, null refines units and
references, a reference refines those to more types, and everything refines `untyped`. The common
supertype is the join of this order, so it does not matter in which order types are joined.
Assignability is coarser, since it lets numbers narrow and does not look at what references point
to. The join of precision is a least upper bound of assignability all the same.

* `Ty.supertype_eq_of_refines`, `Ty.supertype_refines`: the join of the order of precision.
* `TypeSet.supertype_le_iff`: the supertype of a set is the least one above its types.
* `Ty.assignable_iff_refines`: assignability is precision, up to numbers and references.
* `supertype_isLeast`: the laws of common supertypes, of types and of sets of them.
-/

namespace Overapprox

/-! ## Numbers -/

/-- The numeric types, each before the wider ones. -/
def Builtin.numbers : List Builtin :=
  [uint8, int8, uint16, int16, uint32, int32, uint64, int64, float32, float64]

namespace Ty

open Builtin (numbers)

variable {a b c t : Ty} {m n : Builtin}

theorem isNumeric_builtin_iff : (builtin m).isNumeric = true ↔ m ∈ numbers := by
  cases m <;> decide

theorem exists_number_of_isNumeric (h : t.isNumeric = true) : ∃ m ∈ numbers, t = builtin m := by
  cases t with
  | builtin m => exact ⟨m, isNumeric_builtin_iff.1 h, rfl⟩
  | unit | reference => cases h

/-- Of two numeric types the wider one is their supertype. -/
theorem numericSupertype_builtin : ∀ m ∈ numbers, ∀ n ∈ numbers,
    numericSupertype (builtin m) (builtin n) =
      builtin (if numbers.idxOf m ≤ numbers.idxOf n then n else m) := by
  decide +kernel

/-- Of two number types the one that is listed later is the supertype. -/
theorem supertype_number (hm : m ∈ numbers) (hn : n ∈ numbers) :
    (builtin m).supertype (builtin n) =
      builtin (if numbers.idxOf m ≤ numbers.idxOf n then n else m) := by
  obtain rfl | hne := eq_or_ne m n
  · rw [supertype_self, ite_self]
  · have hknown {k : Builtin} (hk : k ∈ numbers) : k ≠ .untyped := by
      rintro rfl
      exact absurd hk (by decide)
    rw [← numericSupertype_builtin m hm n hn]
    simp [supertype, hne, isNumeric_builtin_iff, hm, hn, hknown]

/-! ## Precision -/

/-- `a` is at least as precise as `b`. -/
inductive Refines : Ty → Ty → Prop where
  | refl (t : Ty) : Refines t t
  | untyped (t : Ty) : Refines t untyped
  | number {m n : Builtin} : m ∈ numbers → n ∈ numbers → numbers.idxOf m ≤ numbers.idxOf n →
    Refines (builtin m) (builtin n)
  | null {t : Ty} : (t.isInMemory || t.isPointer) = true → Refines null t
  | pointees {as bs : List Ty} : (bs.Pairwise fun a b => compare a b = .lt) →
    (∀ t ∈ as, t ∈ bs) → Refines (reference as) (reference bs)

theorem supertype_untyped (t : Ty) :
    t.supertype untyped = untyped ∧ untyped.supertype t = untyped := by
  simp +contextual [supertype]

theorem supertype_null (h : (t.isInMemory || t.isPointer) = true) :
    null.supertype t = t ∧ t.supertype null = t := by
  cases t with
  | builtin b => cases h
  | unit n => simp [supertype, isNumeric, bits?, isInMemory]
  | reference inner => simp [supertype, isNumeric, bits?, isInMemory, isPointer]

theorem supertype_reference (as bs : List Ty) :
    (reference as).supertype (reference bs) =
      if as = bs then reference as else reference (OrdSet.ofList (as ++ bs)).toList := by
  simp [supertype, isNumeric, bits?, referenceTo]

/-- Where one type refines another, the other is their common supertype. -/
theorem supertype_eq_of_refines (h : a.Refines b) : a.supertype b = b ∧ b.supertype a = b := by
  cases h with
  | refl => exact ⟨supertype_self a, supertype_self a⟩
  | untyped => exact supertype_untyped a
  | number hm hn hle =>
    rw [supertype_number hm hn, supertype_number hn hm, if_pos hle]
    refine ⟨rfl, congrArg builtin (ite_eq_right_iff.2 fun hge => ?_)⟩
    exact (List.idxOf_inj hm).1 (le_antisymm hle hge)
  | null h => exact supertype_null h
  | pointees hsorted h =>
    rw [supertype_reference, supertype_reference,
      OrdSet.toList_ofList_eq hsorted (by simpa using h),
      OrdSet.toList_ofList_eq hsorted (by simpa using h)]
    exact ⟨ite_eq_right_iff.2 (congrArg reference), ite_self _⟩

/-- By cases on the tests that the supertype is made of. -/
theorem refines_supertype (a b : Ty) :
    a.Refines (a.supertype b) ∧ b.Refines (a.supertype b) := by
  unfold supertype
  split
  case isTrue h => exact ⟨.refl a, h ▸ .refl a⟩
  split
  case isTrue => exact ⟨.untyped a, .untyped b⟩
  split
  case isTrue h =>
    obtain ⟨ha, hb⟩ := Bool.and_eq_true_iff.1 h
    obtain ⟨m, hm, rfl⟩ := exists_number_of_isNumeric ha
    obtain ⟨n, hn, rfl⟩ := exists_number_of_isNumeric hb
    rw [numericSupertype_builtin m hm n hn]
    split
    case isTrue hle => exact ⟨.number hm hn hle, .refl _⟩
    case isFalse hlt => exact ⟨.refl _, .number hn hm (Nat.le_of_not_le hlt)⟩
  split
  case isTrue h =>
    obtain ⟨ha, hb⟩ := Bool.and_eq_true_iff.1 h
    obtain rfl := of_decide_eq_true ha
    exact ⟨.null hb, .refl b⟩
  split
  case isTrue h =>
    obtain ⟨hb, ha⟩ := Bool.and_eq_true_iff.1 h
    obtain rfl := of_decide_eq_true hb
    exact ⟨.refl a, .null ha⟩
  split
  · constructor
    · exact .pointees (OrdSet.sorted _) fun t ht =>
        OrdSet.mem_ofList.2 (List.mem_append_left _ ht)
    · exact .pointees (OrdSet.sorted _) fun t ht =>
        OrdSet.mem_ofList.2 (List.mem_append_right _ ht)
  · exact ⟨.untyped a, .untyped b⟩

/-- By cases on how the two types refine the third. Where one of the two refines the other, it is
the other that is their supertype. -/
theorem supertype_refines (hac : a.Refines c) (hbc : b.Refines c) : (a.supertype b).Refines c := by
  have hleft (h : b.Refines a) : (a.supertype b).Refines c := by
    rwa [(supertype_eq_of_refines h).2]
  have hright (h : a.Refines b) : (a.supertype b).Refines c := by
    rwa [(supertype_eq_of_refines h).1]
  cases hac with
  | refl => exact hleft hbc
  | untyped => exact .untyped _
  | @number m _ hm hk hle =>
    cases hbc with
    | refl => exact hright (.number hm hk hle)
    | untyped => exact .untyped _
    | @number n _ hn =>
      -- Numbers are ordered in a line, so one of the two is the supertype.
      rcases le_total (numbers.idxOf m) (numbers.idxOf n) with h | h
      · exact hright (.number hm hn h)
      · exact hleft (.number hn hm h)
    | null h => cases h
  | null h =>
    cases hbc with
    | refl => exact hright (.null h)
    | untyped | number => cases h
    | null => exact hleft (.refl _)
    | pointees => exact hright (.null rfl)
  | pointees hsorted has =>
    cases hbc with
    | refl => exact hright (.pointees hsorted has)
    | null => exact hleft (.null rfl)
    | pointees _ hbs =>
      rw [supertype_reference]
      split
      case isTrue => exact .pointees hsorted has
      case isFalse =>
        refine .pointees hsorted fun t ht => ?_
        exact (List.mem_append.1 (OrdSet.mem_ofList.1 ht)).elim (has t) (hbs t)

/-- Refinement is transitive. -/
theorem Refines.trans (hab : a.Refines b) (hbc : b.Refines c) : a.Refines c := by
  cases hab with
  | refl => exact hbc
  | untyped =>
    cases hbc with
    | refl | untyped => exact .untyped a
    | number h => exact absurd h (by decide)
  | number hm hn hle =>
    cases hbc with
    | refl => exact .number hm hn hle
    | untyped => exact .untyped _
    | number _ hk hle' => exact .number hm hk (hle.trans hle')
    | null => exact absurd hn (by decide)
  | null h =>
    cases hbc with
    | refl => exact .null h
    | untyped => exact .untyped _
    | number | null => cases h
    | pointees => exact .null rfl
  | pointees hsorted has =>
    cases hbc with
    | refl => exact .pointees hsorted has
    | untyped => exact .untyped _
    | pointees hsorted' hbs => exact .pointees hsorted' fun t ht => hbs t (has t ht)

/-- Types ordered by precision; common supertypes are the joins. -/
scoped instance : SemilatticeSup Ty where
  le := Refines
  sup := supertype
  le_refl := .refl
  le_trans _ _ _ := Refines.trans
  le_antisymm _ _ hab hba :=
    (supertype_eq_of_refines hba).2.symm.trans (supertype_eq_of_refines hab).1
  le_sup_left a b := (refines_supertype a b).1
  le_sup_right a b := (refines_supertype a b).2
  sup_le _ _ _ := supertype_refines

theorem supertype_comm (a b : Ty) : a.supertype b = b.supertype a := sup_comm a b

/-! ## Sets of types -/

/-- Folding supertypes over a list gives the least type above all of its members. -/
theorem foldl_supertype_le_iff {ts : List Ty} :
    ts.foldl supertype t ≤ c ↔ ∀ u ∈ t :: ts, u ≤ c := by
  induction ts generalizing t with
  | nil => simp
  | cons u ts ih =>
    rw [List.foldl_cons, ih, List.forall_mem_cons, List.forall_mem_cons, List.forall_mem_cons,
      ← and_assoc]
    exact and_congr_left' sup_le_iff

end Ty

open scoped Ty

namespace TypeSet

variable {s t : TypeSet}

theorem supertype_le_iff (hs : s.isEmpty = false) {c : Ty} :
    s.supertype ≤ c ↔ ∀ u ∈ s.toList, u ≤ c := by
  obtain ⟨u, us, hlist⟩ := List.ne_nil_iff_exists_cons.1 (List.isEmpty_eq_false_iff.1 hs)
  rw [supertype, hlist]
  exact Ty.foldl_supertype_le_iff

/-- Only the members of a set count for its supertype, not the order in which they are joined. -/
theorem foldl_supertype_eq {u : Ty} {us : List Ty} (h : ∀ v, v ∈ u :: us ↔ v ∈ s.toList) :
    us.foldl Ty.supertype u = s.supertype := by
  have hs : s.isEmpty = false :=
    List.isEmpty_eq_false_iff.2 (List.ne_nil_of_mem ((h u).1 List.mem_cons_self))
  refine eq_of_forall_ge_iff fun c => ?_
  rw [supertype_le_iff hs, Ty.foldl_supertype_le_iff]
  exact forall_congr' fun v => imp_congr_left (h v)

/-- The supertype of a union is that of the supertypes of its operands. -/
theorem supertype_union (hs : s.isEmpty = false) (ht : t.isEmpty = false) :
    TypeSet.supertype (s.union t) = s.supertype.supertype t.supertype := by
  have hunion : (s.union t).isEmpty = false := by
    obtain ⟨u, hu⟩ := List.exists_mem_of_ne_nil _ (List.isEmpty_eq_false_iff.1 hs)
    exact List.isEmpty_eq_false_iff.2 (List.ne_nil_of_mem (OrdSet.mem_union.2 (.inl hu)))
  refine eq_of_forall_ge_iff fun c => ?_
  calc TypeSet.supertype (s.union t) ≤ c
    _ ↔ (∀ u ∈ s.toList, u ≤ c) ∧ ∀ u ∈ t.toList, u ≤ c := by
      simp only [supertype_le_iff hunion, OrdSet.mem_union, or_imp, forall_and]
    _ ↔ s.supertype ≤ c ∧ t.supertype ≤ c := by rw [supertype_le_iff hs, supertype_le_iff ht]
    _ ↔ s.supertype.supertype t.supertype ≤ c := sup_le_iff.symm

end TypeSet

/-! ## Assignability -/

namespace Ty

variable {a b c : Ty}

theorem assignable_of_isNumeric (ha : a.isNumeric = true) (hb : b.isNumeric = true) :
    a.assignable b = true := by
  unfold assignable
  rw [if_pos ha, hb, ite_self]

/-- Values of a type can be assigned to every type that it refines. -/
theorem assignable_of_refines (h : a ≤ b) : a.assignable b = true := by
  cases h with
  | refl => exact assignable_self a
  | untyped => exact assignable_untyped a
  | number hm hn =>
    exact assignable_of_isNumeric (isNumeric_builtin_iff.2 hm) (isNumeric_builtin_iff.2 hn)
  | null h => simp [assignable, isNumeric, bits?, Builtin.bits?, h]
  | pointees => simp [assignable, isNumeric, bits?]

theorem assignable_of_isPointer (ha : a = null ∨ a.isPointer = true) (hb : b.isPointer = true) :
    a.assignable b = true := by
  rcases ha with rfl | ha
  · exact assignable_of_refines (.null (by rw [hb, Bool.or_true]))
  · cases a with
    | reference => cases b with
      | reference => simp [assignable, isNumeric, bits?]
      | _ => cases hb
    | _ => cases ha

/-- Beyond precision, numbers may be assigned to numbers and references to references. -/
theorem assignable_cases (h : a.assignable b = true) :
    a ≤ b ∨ (a.isNumeric = true ∧ b.isNumeric = true) ∨
      (a.isPointer = true ∧ b.isPointer = true) := by
  unfold assignable at h
  split at h
  case isTrue heasy =>
    rcases Bool.or_eq_true_iff.1 heasy with huntyped | heq
    · exact .inl (of_decide_eq_true huntyped ▸ .untyped a)
    · exact .inl (of_decide_eq_true heq ▸ le_rfl)
  split at h
  case isTrue ha => exact .inr (.inl ⟨ha, h⟩)
  split at h
  · exact .inl (.null h)
  · exact .inr (.inr ⟨rfl, rfl⟩)
  · cases h

theorem isNumeric_of_assignable (h : a.assignable b = true) (hb : b.isNumeric = true) :
    a.isNumeric = true := by
  obtain ⟨n, hn, rfl⟩ := exists_number_of_isNumeric hb
  rcases assignable_cases h with hle | ⟨ha, -⟩ | ⟨-, hb⟩
  · cases hle with
    | refl => exact hb
    | number hm => exact isNumeric_builtin_iff.2 hm
    | untyped => cases hb
    | null h => cases h
  · exact ha
  · cases hb

theorem isPointer_of_assignable (h : a.assignable b = true) (hb : b.isPointer = true) :
    a = null ∨ a.isPointer = true := by
  rcases assignable_cases h with hle | ⟨-, hb'⟩ | ⟨ha, -⟩
  · cases hle with
    | refl => exact .inr hb
    | null => exact .inl rfl
    | pointees => exact .inr rfl
    | untyped | number => cases hb
  · obtain ⟨n, -, rfl⟩ := exists_number_of_isNumeric hb'
    cases hb
  · exact .inr ha

/-- The common supertype of two number types is a number type. -/
theorem isNumeric_supertype (ha : a.isNumeric = true) (hb : b.isNumeric = true) :
    (a.supertype b).isNumeric = true := by
  obtain ⟨m, hm, rfl⟩ := exists_number_of_isNumeric ha
  obtain ⟨n, hn, rfl⟩ := exists_number_of_isNumeric hb
  rw [supertype_number hm hn]
  split
  · exact hb
  · exact ha

theorem isPointer_supertype (ha : a = null ∨ a.isPointer = true)
    (hb : b = null ∨ b.isPointer = true) :
    a.supertype b = null ∨ (a.supertype b).isPointer = true := by
  rcases ha with rfl | ha
  · rcases hb with rfl | hb
    · exact .inl (supertype_self _)
    · rw [(supertype_null (by rw [hb, Bool.or_true])).1]
      exact .inr hb
  · rcases hb with rfl | hb
    · rw [(supertype_null (by rw [ha, Bool.or_true])).2]
      exact .inr ha
    · cases a with
      | reference as => cases b with
        | reference bs =>
          rw [supertype_reference]
          split <;> exact .inr rfl
        | _ => cases hb
      | _ => cases ha

/-- `c` is the least type to which both `a` and `b` can be assigned, up to types that can be
assigned to each other. -/
structure IsLeastTarget (a b c : Ty) : Prop where
  left : a.assignable c = true
  right : b.assignable c = true
  least : ∀ d : Ty, a.assignable d = true → b.assignable d = true → c.assignable d = true

theorem isLeastTarget_supertype (a b : Ty) : IsLeastTarget a b (a.supertype b) where
  left := assignable_of_refines (refines_supertype a b).1
  right := assignable_of_refines (refines_supertype a b).2
  least d ha hb := by
    by_cases hnumeric : d.isNumeric = true
    · have hsuper := isNumeric_supertype (isNumeric_of_assignable ha hnumeric)
        (isNumeric_of_assignable hb hnumeric)
      exact assignable_of_isNumeric hsuper hnumeric
    by_cases hpointer : d.isPointer = true
    · have hsuper := isPointer_supertype (isPointer_of_assignable ha hpointer)
        (isPointer_of_assignable hb hpointer)
      exact assignable_of_isPointer hsuper hpointer
    -- Assignments to other types are as precise as the types.
    have hrefines {t : Ty} (h : t.assignable d = true) : t ≤ d :=
      (assignable_cases h).resolve_right (by simp [hnumeric, hpointer])
    exact assignable_of_refines (sup_le (hrefines ha) (hrefines hb))

end Ty

/-! ## The laws -/

/-- The common supertype is commutative, associative and idempotent, and the least type to which
both types can be assigned. So the supertype of a union is that of the supertypes, and joining the
types of a set one by one, repeated or not, gives its supertype in every order. -/
theorem supertype_isLeast :
    (∀ a b : Ty, a.supertype b = b.supertype a) ∧
    (∀ a b c : Ty, (a.supertype b).supertype c = a.supertype (b.supertype c)) ∧
    (∀ a : Ty, a.supertype a = a) ∧
    (∀ a b : Ty, Ty.IsLeastTarget a b (a.supertype b)) ∧
    (∀ s t : TypeSet, s.isEmpty = false → t.isEmpty = false →
      TypeSet.supertype (s.union t) = s.supertype.supertype t.supertype) ∧
    (∀ (s : TypeSet) (t : Ty) (ts : List Ty), (∀ u, u ∈ t :: ts ↔ u ∈ s.toList) →
      ts.foldl Ty.supertype t = s.supertype) :=
  ⟨sup_comm, sup_assoc, Ty.supertype_self, Ty.isLeastTarget_supertype,
    fun _ _ => TypeSet.supertype_union, fun _ _ _ => TypeSet.foldl_supertype_eq⟩

/-- Null and two references, one of them to references again, joined in two ways. -/
theorem supertype_isLeast_of_references :
    ∃ s t : TypeSet, s.isEmpty = false ∧ t.isEmpty = false ∧
      TypeSet.supertype (s.union t) = s.supertype.supertype t.supertype ∧
      TypeSet.supertype (s.union t) = .reference [.unit "A", .reference [.int32]] ∧
      [.null, .reference [.reference [.int32]], .null].foldl Ty.supertype (.reference [.unit "A"]) =
        TypeSet.supertype (s.union t) := by
  let s : TypeSet := .ofList [.reference [.unit "A"], .null]
  let t : TypeSet := .singleton (.reference [.reference [.int32]])
  obtain ⟨-, -, -, -, hunion, hlisted⟩ := supertype_isLeast
  refine ⟨s, t, rfl, rfl, hunion s t rfl rfl, by decide, hlisted _ _ _ fun u => ?_⟩
  rw [OrdSet.mem_union, OrdSet.mem_ofList]
  simp [t, OrdSet.singleton, or_comm, or_assoc, or_left_comm]

end Overapprox
