import Overapprox.Proofs.Concrete.Condition
import Overapprox.Proofs.Order.Identity

/-!
# Negation normal forms

A condition is in normal form when none of its conjuncts and disjuncts negates a comparison, a
connective or another negation. The removal of negations gives such conditions and changes no other
ones, so it is done once and for all, and what a condition is under a store its normal form is too.

* `ValueExpr.IsNormal`: normal forms, read off the conjuncts and disjuncts.
* `ValueExpr.isNormal_removeNegations`: the result is a normal form.
* `ValueExpr.removeNegations_beq_iff`: what is in normal form, and only that, is its own result.
* `ValueExpr.removes_iff`: the steps by which the result is found.
* `canBe_removeNegations_iff`: the meaning stays.
-/

namespace Overapprox

namespace ValueExpr

variable {e f l r : ValueExpr} {op : BinaryOp} {a : Annotation}

/-! ## Conjuncts and disjuncts -/

/-- `p` is an expression, or reached from it through conjunctions and disjunctions. -/
inductive JunctOf (p : ValueExpr) : ValueExpr → Prop where
  | self : JunctOf p p
  | left {op : BinaryOp} {l : ValueExpr} (r : ValueExpr) (a : Annotation) :
    op.isLogical = true → JunctOf p l → JunctOf p (.binary op l r a)
  | right {op : BinaryOp} {r : ValueExpr} (l : ValueExpr) (a : Annotation) :
    op.isLogical = true → JunctOf p r → JunctOf p (.binary op l r a)

/-- Whether the root compares two operands. -/
def isComparison : ValueExpr → Bool
  | binary op _ _ _ => op.isComparison
  | _ => false

/-- No negation among the conjuncts and disjuncts is one of a comparison, a connective or a
negation. -/
def IsNormal (e : ValueExpr) : Prop :=
  ∀ f a, (unary .not f a).JunctOf e → f.isComparison = false ∧ f.isConnective = false

theorem isNormal_not_iff :
    (unary .not f a).IsNormal ↔ f.isComparison = false ∧ f.isConnective = false := by
  constructor
  · exact fun h => h f a .self
  · intro h g b hg
    cases hg
    exact h

/-- A connective is in normal form when its operands are. -/
theorem isNormal_junction_iff (hop : op.isLogical = true) :
    (binary op l r a).IsNormal ↔ l.IsNormal ∧ r.IsNormal := by
  constructor
  · intro h
    exact ⟨fun f b hf => h f b (.left r a hop hf), fun f b hf => h f b (.right l a hop hf)⟩
  · rintro ⟨hl, hr⟩ f b hf
    cases hf with
    | left _ _ _ hf => exact hl f b hf
    | right _ _ _ hf => exact hr f b hf

theorem isNormal_of_not_isConnective (he : e.isConnective = false) : e.IsNormal := by
  intro f a hf
  cases hf with
  | self => cases he
  | left _ _ hop => cases hop.symm.trans he
  | right _ _ hop => cases hop.symm.trans he

/-! ## Results are normal forms -/

theorem isLogical_of_negate? {opposite : BinaryOp} (h : op.negate? = some opposite) :
    opposite.isLogical = false := by
  cases op <;> cases h <;> rfl

theorem isComparison_of_negate?_eq_none (h : op.negate? = none) : op.isComparison = false := by
  cases op <;> first | rfl | cases h

theorem isLogical_dual (op : BinaryOp) : op.dual.isLogical = true := by
  cases op <;> rfl

/-- By induction on the expression, for its normal form and that of its negation together. -/
theorem isNormal_removeNegations_and_negation (e : ValueExpr) :
    e.removeNegations.IsNormal ∧ ∀ a, (e.negation a).IsNormal := by
  induction e with
  | const | ident | any | skip | ternary =>
    exact ⟨isNormal_of_not_isConnective rfl, fun a => isNormal_not_iff.2 ⟨rfl, rfl⟩⟩
  | unary op e b ih =>
    cases op with
    | not => exact ⟨ih.2 b, fun _ => ih.1⟩
    | neg | strlen =>
      exact ⟨isNormal_of_not_isConnective rfl, fun a => isNormal_not_iff.2 ⟨rfl, rfl⟩⟩
  | binary op l r b ihl ihr =>
    constructor
    · rw [removeNegations]
      split
      case isTrue hop => exact (isNormal_junction_iff hop).2 ⟨ihl.1, ihr.1⟩
      case isFalse hop => exact isNormal_of_not_isConnective (Bool.eq_false_iff.2 hop)
    · intro a
      rw [negation]
      split
      case h_1 opposite hopposite =>
        exact isNormal_of_not_isConnective (isLogical_of_negate? hopposite)
      case h_2 hnone =>
        split
        case isTrue =>
          exact (isNormal_junction_iff (isLogical_dual op)).2 ⟨ihl.2 l.note, ihr.2 r.note⟩
        case isFalse hop =>
          exact isNormal_not_iff.2
            ⟨isComparison_of_negate?_eq_none hnone, Bool.eq_false_iff.2 hop⟩

/-- Removing negations leaves none above a comparison or a connective. -/
theorem isNormal_removeNegations (e : ValueExpr) : e.removeNegations.IsNormal :=
  (isNormal_removeNegations_and_negation e).1

/-- A negation of neither a comparison nor a connective stays where it is. -/
theorem negation_of_atom (hcomparison : e.isComparison = false) (hatom : e.isConnective = false) :
    e.negation a = unary .not e a := by
  cases e with
  | const | ident | any | skip | ternary => rfl
  | unary op e b =>
    cases op with
    | not => cases hatom
    | neg | strlen => rfl
  | binary op l r b =>
    cases op with
    | eq | ne | lt | le | gt | ge => cases hcomparison
    | and | or => cases hatom
    | add | sub | mul | div | rem | concat => rfl

/-- There is nothing to be removed from an expression in normal form. -/
theorem removeNegations_of_isNormal (h : e.IsNormal) : e.removeNegations = e := by
  induction e with
  | const | ident | any | skip | ternary => rfl
  | unary op e a _ =>
    cases op with
    | not =>
      obtain ⟨hcomparison, hatom⟩ := isNormal_not_iff.1 h
      exact negation_of_atom hcomparison hatom
    | neg | strlen => rfl
  | binary op l r a ihl ihr =>
    rw [removeNegations]
    split
    case isTrue hop =>
      obtain ⟨hl, hr⟩ := (isNormal_junction_iff hop).1 h
      rw [ihl hl, ihr hr]
    case isFalse => rfl

/-- Removing negations twice is removing them once. -/
theorem removeNegations_removeNegations (e : ValueExpr) :
    e.removeNegations.removeNegations = e.removeNegations :=
  removeNegations_of_isNormal (isNormal_removeNegations e)

/-! ## Runs -/

/-- A run that removes the negations of an expression. It goes on with operands, and for the
negation of a connective with negations of its operands, which are not among its parts. -/
inductive Removes : ValueExpr → ValueExpr → Prop where
  | notNot {e n : ValueExpr} (a b : Annotation) :
    Removes e n → Removes (unary .not (unary .not e b) a) n
  | notComparison {op opposite : BinaryOp} (l r : ValueExpr) (a b : Annotation) :
    op.negate? = some opposite →
      Removes (unary .not (binary op l r b) a) (binary opposite l r b)
  | notJunction {op : BinaryOp} {l r l' r' : ValueExpr} (a b : Annotation) :
    op.isLogical = true → Removes (unary .not l l.note) l' → Removes (unary .not r r.note) r' →
      Removes (unary .not (binary op l r b) a) (binary op.dual l' r' b)
  | notAtom {e : ValueExpr} (a : Annotation) : e.isComparison = false → e.isConnective = false →
      Removes (unary .not e a) (unary .not e a)
  | junction {op : BinaryOp} {l r l' r' : ValueExpr} (a : Annotation) :
    op.isLogical = true → Removes l l' → Removes r r' →
      Removes (binary op l r a) (binary op l' r' a)
  | atom {e : ValueExpr} : e.isConnective = false → Removes e e

/-- The negation of a connective is the dual connective of the negated operands. -/
theorem negation_junction (hop : op.isLogical = true) (l r : ValueExpr) (a b : Annotation) :
    (binary op l r b).negation a = binary op.dual (l.negation l.note) (r.negation r.note) b := by
  cases op <;> first | rfl | cases hop

theorem Removes.eq_removeNegations {n : ValueExpr} (h : Removes e n) : n = e.removeNegations := by
  induction h with
  | notNot _ _ _ ih => exact ih
  | notComparison l r a b hop => rw [removeNegations_not_comparison hop]
  | @notJunction op l r _ _ a b hop _ _ ihl ihr =>
    rw [ihl, ihr]
    exact (negation_junction hop l r a b).symm
  | notAtom a hcomparison hatom => exact (negation_of_atom hcomparison hatom).symm
  | junction a hop _ _ ihl ihr => rw [ihl, ihr, removeNegations, if_pos hop]
  | atom hatom => exact (removeNegations_of_isNormal (isNormal_of_not_isConnective hatom)).symm

/-- By induction on the expression, for its own run and those of its negations together. -/
theorem removes_removeNegations_and_negation (e : ValueExpr) :
    Removes e e.removeNegations ∧ ∀ a, Removes (unary .not e a) (e.negation a) := by
  have hatom {e : ValueExpr} (hcomparison : e.isComparison = false)
      (hconnective : e.isConnective = false) :
      Removes e e.removeNegations ∧ ∀ a, Removes (unary .not e a) (e.negation a) := by
    rw [removeNegations_of_isNormal (isNormal_of_not_isConnective hconnective)]
    refine ⟨.atom hconnective, fun a => ?_⟩
    rw [negation_of_atom hcomparison hconnective]
    exact .notAtom a hcomparison hconnective
  induction e with
  | const | ident | any | skip | ternary => exact hatom rfl rfl
  | unary op e b ih =>
    cases op with
    | not => exact ⟨ih.2 b, fun a => .notNot a b ih.1⟩
    | neg | strlen => exact hatom rfl rfl
  | binary op l r b ihl ihr =>
    cases op with
    | and | or =>
      exact ⟨.junction b rfl ihl.1 ihr.1,
        fun a => .notJunction a b rfl (ihl.2 l.note) (ihr.2 r.note)⟩
    -- A negated comparison turns into the opposite one and stops there.
    | eq | ne | lt | le | gt | ge => exact ⟨.atom rfl, fun a => .notComparison l r a b rfl⟩
    | add | sub | mul | div | rem | concat => exact hatom rfl rfl

/-- Every expression has a run, with one result. -/
theorem removes_iff {n : ValueExpr} : Removes e n ↔ n = e.removeNegations := by
  constructor
  · exact Removes.eq_removeNegations
  · rintro rfl
    exact (removes_removeNegations_and_negation e).1

/-! ## Equality up to annotations -/

theorem isAtom_of_beq (h : (e == f) = true) :
    e.isComparison = f.isComparison ∧ e.isConnective = f.isConnective := by
  change e.same f = true at h
  cases e <;> cases f <;> first | exact ⟨rfl, rfl⟩ | cases h | skip
  case unary.unary o e a p f b =>
    simp only [same, Bool.and_eq_true, beq_iff_eq] at h
    obtain ⟨⟨rfl, -⟩, -⟩ := h
    cases o <;> exact ⟨rfl, rfl⟩
  case binary.binary o l r a p l' r' b =>
    simp only [same, Bool.and_eq_true, beq_iff_eq] at h
    obtain ⟨⟨⟨rfl, -⟩, -⟩, -⟩ := h
    exact ⟨rfl, rfl⟩

/-- A negation is its own result exactly when it is in normal form: a result that is equal up to
annotations negates something of the same kind. -/
theorem removeNegations_beq_iff :
    ((unary .not e a).removeNegations == unary .not e a) = true ↔ (unary .not e a).IsNormal := by
  constructor
  · intro h
    have hnormal := isNormal_removeNegations (unary .not e a)
    generalize (unary .not e a).removeNegations = n at h hnormal
    change n.same (unary .not e a) = true at h
    cases n with
    | unary op f b =>
      simp only [same, Bool.and_eq_true, beq_iff_eq] at h
      obtain ⟨⟨rfl, hsame⟩, -⟩ := h
      obtain ⟨hcomparison, hconnective⟩ := isAtom_of_beq hsame
      rw [isNormal_not_iff, hcomparison, hconnective] at hnormal
      exact isNormal_not_iff.2 hnormal
    | _ => cases h
  · intro h
    rw [removeNegations_of_isNormal h]
    exact BEq.refl _

end ValueExpr

/-! ## Meaning -/

/-- What an atom is under a store: a comparison what the integers say that its operands denote, and
everything else what `truth` says. -/
inductive AtomIs (s : Valuation) (truth : ValueExpr → Bool → Prop) : ValueExpr → Bool → Prop where
  | comparison {op : BinaryOp} {l r : ValueExpr} {m n : Int} (a : Annotation) :
    op.isComparison = true → Denotes s l m → Denotes s r n →
      AtomIs s truth (.binary op l r a) (op.compares m n)
  | other {e : ValueExpr} {b : Bool} :
    e.isComparison = false → truth e b → AtomIs s truth e b

variable {s : Valuation} {truth : ValueExpr → Bool → Prop}

theorem AtomIs.negate {op opposite : BinaryOp} {l r : ValueExpr} {a : Annotation} {b : Bool}
    (hop : op.negate? = some opposite) (h : AtomIs s truth (.binary op l r a) b) :
    AtomIs s truth (.binary opposite l r a) (!b) := by
  have hcomparison : op.isComparison = true := BinaryOp.isComparison_iff.2 (by rw [hop]; rfl)
  have hopposite : opposite.isComparison = true :=
    BinaryOp.isComparison_iff.2 (by rw [BinaryOp.negate?_negate? hop]; rfl)
  cases h with
  | comparison _ _ hl hr =>
    rw [← compares_negate hop]
    exact .comparison a hopposite hl hr
  | other hother => cases hcomparison.symm.trans hother

/-- An expression may be true or false exactly as its negation normal form may. -/
theorem canBe_removeNegations_iff (e : ValueExpr) (b : Bool) :
    CanBe (AtomIs s truth) e.removeNegations b ↔ CanBe (AtomIs s truth) e b :=
  (canBe_normal_iff AtomIs.negate e).1 b

end Overapprox
