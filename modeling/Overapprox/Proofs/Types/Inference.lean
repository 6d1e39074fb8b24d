import Overapprox.Proofs.Env.Evaluation
import Overapprox.Proofs.Lattice.Joins

/-!
# Type inference in larger environments

The operators on sets of runtime types keep inclusion: more types of an operand never admit less,
and common supertypes are taken of every pair. Only identifiers can lose types. One about which the
larger environment says nothing has the types of its annotation there, and these need not be the
types that the smaller environment knows. A join says nothing about an identifier as soon as one of
its operands does not, so this is the way in which two branches lose what one of them inferred.

* `InferredTypes.supertypes_mono`, `InferredTypes.monotoneOperators`: operators keep inclusion.
* `InferredTypes.evalIdentifier_le_iff`: where an identifier does not lose types.
* `InferredTypes.infersWithin_iff`: where no part of an expression does.
* `InferredTypes.infersWithin_join_iff`: the same for a step to a larger environment and for joins.
-/

namespace Overapprox

open AbstractLattice
open scoped LawfulLattice

namespace InferredTypes

variable {v v' w w' : InferredTypes} {s s' t t' : TypeSet}

/-! ## The order -/

theorem types_le_types : types s ≤ types t ↔ s.subset t = true := by
  rw [orderedBy.le_iff, Powerset.le_iff_included]
  exact Powerset.included_finite_iff

/-- Everything is below top, and only listed types are below listed types. -/
theorem le_cases (h : v ≤ w) :
    w = top ∨ ∃ s t, v = types s ∧ w = types t ∧ s.subset t = true := by
  cases w with
  | top => exact .inl rfl
  | types t =>
    cases v with
    | top =>
      have htop := LawfulLattice.isTop_of_le h rfl
      cases htop
    | types s => exact .inr ⟨s, t, rfl, rfl, types_le_types.1 h⟩

theorem isTop_join_iff : isTop (join v w) = true ↔ isTop v = true ∨ isTop w = true :=
  isTop_join_iff_of_proper fun _ _ => rfl

/-! ## Operators -/

theorem admits_mono {p : Ty → Bool} (h : v ≤ w) (hv : v.admits p = true) :
    w.admits p = true := by
  obtain rfl | ⟨s, t, rfl, rfl, hst⟩ := le_cases h
  · rfl
  · obtain ⟨a, ha, hp⟩ := List.any_eq_true.1 hv
    exact List.any_eq_true.2 ⟨a, OrdSet.subset_iff_mem.1 hst a ha, hp⟩

/-- One result or none, where a larger operand admits more. -/
theorem if_admits_mono {b b' : Bool} (hb : b = true → b' = true) (r : InferredTypes) :
    (if b then r else AbstractLattice.bottom) ≤ if b' then r else AbstractLattice.bottom := by
  cases b with
  | false => exact le_of_isBottom rfl
  | true => rw [hb rfl]

/-- A larger set admits a kind of types whenever a smaller one does. -/
theorem ofKind_mono (p : Ty → Bool) (result : Ty) (h : v ≤ w) :
    v.ofKind p result ≤ w.ofKind p result :=
  if_admits_mono (admits_mono h) (singleton result)

/-- The supertypes are those of all pairs on which arithmetic may be done. -/
theorem mem_supertypes {c : Ty} : c ∈ (supertypes s t).toList ↔
    ∃ a ∈ s.toList, fitsArithmetic a = true ∧
      ∃ b ∈ t.toList, fitsArithmetic b = true ∧ a.supertype b = c := by
  simp only [supertypes, OrdSet.mem_ofList, List.mem_flatMap, List.mem_map, List.mem_filter,
    and_assoc]

theorem supertypes_mono (hs : s.subset s' = true) (ht : t.subset t' = true) :
    (supertypes s t).subset (supertypes s' t') = true := by
  rw [OrdSet.subset_iff_mem] at hs ht ⊢
  intro c hc
  obtain ⟨a, ha, hafits, b, hb, hbfits, hsupertype⟩ := mem_supertypes.1 hc
  exact mem_supertypes.2 ⟨a, hs a ha, hafits, b, ht b hb, hbfits, hsupertype⟩

/-- Operators on one operand keep the order of type sets. -/
theorem unary_mono (op : UnaryOp) (h : v ≤ w) : unary op v ≤ unary op w := by
  cases op with
  | not => exact ofKind_mono isBool .bool h
  | strlen => exact ofKind_mono isText .int32 h
  | neg =>
    obtain rfl | ⟨s, t, rfl, rfl, hst⟩ := le_cases h
    · exact le_of_isTop rfl
    · refine types_le_types.2 (OrdSet.subset_iff_mem.2 fun a ha => ?_)
      obtain ⟨ha, hfits⟩ := List.mem_filter.1 ha
      exact List.mem_filter.2 ⟨OrdSet.subset_iff_mem.1 hst a ha, hfits⟩

theorem binary_mono (op : BinaryOp) (hv : v ≤ v') (hw : w ≤ w') :
    binary op v w ≤ binary op v' w' := by
  have hboth (p : Ty → Bool) (h : (v.admits p && w.admits p) = true) :
      (v'.admits p && w'.admits p) = true := by
    rw [Bool.and_eq_true] at h ⊢
    exact ⟨admits_mono hv h.1, admits_mono hw h.2⟩
  unfold binary
  split
  case isTrue =>
    obtain rfl | ⟨s, s', rfl, rfl, hs⟩ := le_cases hv
    · exact le_of_isTop rfl
    · obtain rfl | ⟨t, t', rfl, rfl, ht⟩ := le_cases hw
      · exact le_of_isTop rfl
      · exact types_le_types.2 (supertypes_mono hs ht)
  case isFalse =>
    split
    case isTrue => exact if_admits_mono (hboth isBool) (singleton .bool)
    case isFalse =>
      split
      case isTrue => exact le_rfl
      case isFalse => exact if_admits_mono (hboth isText) (singleton .string)

theorem monotoneOperators (opts : Options) :
    ValueDomain.MonotoneOperators InferredTypes opts where
  unary op hv _ := unary_mono op hv
  binary op hv hw _ _ := binary_mono op hv hw
  ternary _ hu _ _ _ _ _ := ofKind_mono isText .string hu

/-! ## Identifiers -/

theorem evalIdentifier_of_isTop {x : Identifier} (h : isTop v = true) :
    ValueDomain.evalIdentifier x v = types x.runtimeTypes :=
  if_pos (by rw [h]; rfl)

theorem evalIdentifier_of_isProper {x : Identifier} (h : IsProper v) :
    ValueDomain.evalIdentifier x v = v :=
  if_neg (by rw [h.1, h.2]; exact Bool.false_ne_true)

/-- Only an identifier that becomes unknown can lose types, and it does unless all of them are types
of its annotation. -/
theorem evalIdentifier_le_iff {x : Identifier} (h : v ≤ w) (hne : isBottom v = false) :
    (ValueDomain.evalIdentifier x v : InferredTypes) ≤ ValueDomain.evalIdentifier x w ↔
      (isTop w = true → isTop v = false → v ≤ types x.runtimeTypes) := by
  have hne' := LawfulLattice.isBottom_eq_false_of_le h hne
  cases hw : isTop w with
  | false =>
    have hv : isTop v = false := Bool.eq_false_iff.2 fun hv =>
      Bool.eq_false_iff.1 hw (LawfulLattice.isTop_of_le h hv)
    rw [evalIdentifier_of_isProper ⟨hv, hne⟩, evalIdentifier_of_isProper ⟨hw, hne'⟩]
    exact iff_of_true h nofun
  | true =>
    rw [evalIdentifier_of_isTop hw]
    cases hv : isTop v with
    | true =>
      rw [evalIdentifier_of_isTop hv]
      exact iff_of_true le_rfl nofun
    | false =>
      rw [evalIdentifier_of_isProper ⟨hv, hne⟩]
      exact ⟨fun hle _ _ => hle, fun hle => hle rfl rfl⟩

/-! ## Expressions -/

/-- Of no part of an expression are fewer types inferred in `b` than in `a`. -/
def InfersWithin (opts : Options) (a b : ValueEnv InferredTypes) (e : ValueExpr) : Prop :=
  ∀ p : ValueExpr, p.OccursIn e → ValueDomain.eval opts a p ≤ ValueDomain.eval opts b p

/-- Of every identifier in an expression about which `b` says nothing, `a` says nothing either, or
gives it types of its annotation. -/
def FallsBackWithin (a b : ValueEnv InferredTypes) (e : ValueExpr) : Prop :=
  ∀ x note, (ValueExpr.ident x note).OccursIn e → isTop (b.get x) = true →
    isTop (a.get x) = false → a.get x ≤ types x.runtimeTypes

variable {a b : ValueEnv InferredTypes}

/-- No fewer types are inferred in the larger environment, unless an identifier falls back to
annotations that leave out some. -/
theorem infersWithin_iff (ha : a.BindsNoBottom) (hne : isBottom a = false) (hab : a ≤ b)
    (opts : Options) (e : ValueExpr) : InfersWithin opts a b e ↔ FallsBackWithin a b e := by
  have hident (x : Identifier) := evalIdentifier_le_iff (x := x) (ValueEnv.get_le_get hab x)
    (ha.isBottom_get hne x)
  constructor
  · intro h x note hx
    exact (hident x).1 (h _ hx)
  · intro h p hp
    exact (monotoneOperators opts).eval_le_eval fun x note hx =>
      (hident x).2 (h x note (hx.trans hp))

/-- A join knows nothing of an identifier exactly when an operand knows nothing of it. -/
theorem isTop_get_join_iff {x : Identifier} :
    isTop ((join a b).get x) = true ↔ isTop (a.get x) = true ∨ isTop (b.get x) = true :=
  (isTop_iff_isTop_join fun _ => ValueEnv.get_join_le_iff).trans isTop_join_iff

/-- A join says nothing about the identifiers about which one of its operands does not. -/
theorem fallsBackWithin_of_isTop_get_iff {j : ValueEnv InferredTypes} {e : ValueExpr}
    (hj : ∀ x, isTop (j.get x) = true ↔ isTop (a.get x) = true ∨ isTop (b.get x) = true) :
    FallsBackWithin a j e ↔ FallsBackWithin a b e := by
  constructor
  · intro h x note hx hb
    exact h x note hx ((hj x).2 (.inr hb))
  · intro h x note hx hjoin hne
    refine h x note hx (((hj x).1 hjoin).resolve_left ?_) hne
    rw [hne]
    exact Bool.false_ne_true

/-- Inference is monotone, and a join loses no type of an operand, exactly as far as the identifiers
about which the other environment says nothing have types of their annotations. -/
theorem infersWithin_join_iff (ha : a.BindsNoBottom) (hne : isBottom a = false)
    (b : ValueEnv InferredTypes) (opts : Options) (e : ValueExpr) :
    (a ≤ b → (InfersWithin opts a b e ↔ FallsBackWithin a b e)) ∧
      (InfersWithin opts a (join a b) e ↔ FallsBackWithin a b e) ∧
      (InfersWithin opts a (join b a) e ↔ FallsBackWithin a b e) := by
  refine ⟨fun hab => infersWithin_iff ha hne hab opts e, ?_, ?_⟩
  · rw [infersWithin_iff ha hne (LawfulLattice.le_join_left a b)]
    exact fallsBackWithin_of_isTop_get_iff fun _ => isTop_get_join_iff
  · rw [infersWithin_iff ha hne (LawfulLattice.le_join_right b a)]
    exact fallsBackWithin_of_isTop_get_iff fun _ => isTop_get_join_iff.trans or_comm

/-- A text in a variable of two types, appended to in a branch that knows nothing of it. -/
theorem infersWithin_join_iff_of_text :
    ∃ (a b : ValueEnv InferredTypes) (e : ValueExpr), a.BindsNoBottom ∧ isBottom a = false ∧
      a ≤ b ∧ ValueDomain.eval {} a e = singleton .string ∧ FallsBackWithin a b e ∧
      InfersWithin {} a b e ∧ InfersWithin {} a (join b a) e := by
  let note : Annotation := { type := .untyped, runtimeTypes? := some (.ofList [.int32, .string]) }
  let x : Identifier := .var "x" note
  let a : ValueEnv InferredTypes := (∅ : ValueEnv InferredTypes).put x (singleton .string)
  let e : ValueExpr :=
    .binary .concat (.ofIdentifier x) (.const (.str "s") { type := .string }) { type := .string }
  have hbinds : a.BindsNoBottom := by decide
  have hle : a ≤ ∅ := by
    rw [le_def]
    decide
  have hwithin : FallsBackWithin a ∅ e := by
    intro y note hy _ _
    dsimp only [e, ValueExpr.ofIdentifier] at hy
    cases hy with
    | left hy =>
      cases hy
      rw [le_def]
      decide
    | right hy => cases hy
  have hiff := infersWithin_join_iff hbinds (by decide) ∅ {} e
  exact ⟨a, ∅, e, hbinds, by decide, hle, by decide, hwithin, (hiff.1 hle).2 hwithin,
    hiff.2.2.2 hwithin⟩

/-- A variable that is declared an integer and holds a text is taken for an integer again where
nothing is known of it, as after a join with a branch that does not know it. -/
theorem inference_forgets_text :
    ∃ (a b : ValueEnv InferredTypes) (e : ValueExpr), a.BindsNoBottom ∧ b.BindsNoBottom ∧
      isBottom a = false ∧ a ≤ b ∧ ValueDomain.eval {} a e = singleton .string ∧
      ValueDomain.eval {} b e = singleton .int32 ∧
      ValueDomain.eval {} (join a b) e = singleton .int32 ∧
      ¬ ValueDomain.eval {} a e ≤ ValueDomain.eval {} b e ∧
      ¬ ValueDomain.eval {} a e ≤ ValueDomain.eval {} (join a b) e := by
  let x : Identifier := .var "x" { type := .int32 }
  let a : ValueEnv InferredTypes := (∅ : ValueEnv InferredTypes).put x (singleton .string)
  refine ⟨a, ∅, .ofIdentifier x, by decide, by decide, by decide, ?_, by decide, by decide,
    by decide, ?_, ?_⟩ <;> rw [le_def] <;> decide

end InferredTypes

end Overapprox
