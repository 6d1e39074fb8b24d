import Overapprox.Expr.Negation
import Overapprox.Proofs.Concrete.Expression

/-!
# What conditions may be

A condition is built with strict connectives from atoms: comparisons of the integers that the
operands denote, and everything else, of which nothing is known except that its operands have
values. What the atoms may be is a parameter of the logic of the connectives.

* `AtomCanBe`: what an atom may be under a valuation.
* `CanBe`: what a condition may be, given what its atoms may be.
* `canBe_normal_iff`: the negation normal form may be what the condition may be.
-/

namespace Overapprox

/-! ## Atoms -/

/-- Whether a comparison holds of two integers. -/
def BinaryOp.compares : BinaryOp → Int → Int → Bool
  | eq, m, n => m == n
  | ne, m, n => m != n
  | lt, m, n => decide (m < n)
  | le, m, n => decide (m ≤ n)
  | gt, m, n => decide (m > n)
  | ge, m, n => decide (m ≥ n)
  | _, _, _ => false

/-- Whether a condition is made of other conditions. -/
def ValueExpr.isConnective : ValueExpr → Bool
  | unary .not _ _ => true
  | binary op _ _ _ => op.isLogical
  | _ => false

/-- What a condition that is not a connective may be under a valuation. -/
inductive AtomCanBe (s : Valuation) : ValueExpr → Bool → Prop where
  | comparison {op : BinaryOp} {l r : ValueExpr} {m n : Int} (a : Annotation) :
    op.isComparison = true → Denotes s l m → Denotes s r n →
      AtomCanBe s (.binary op l r a) (op.compares m n)
  | binary {op : BinaryOp} {l r : ValueExpr} {m n : Int} (a : Annotation) (b : Bool) :
    op.isComparison = false → Denotes s l m → Denotes s r n → AtomCanBe s (.binary op l r a) b
  | unary {e : ValueExpr} {m : Int} (op : UnaryOp) (a : Annotation) (b : Bool) :
    Denotes s e m → AtomCanBe s (.unary op e a) b
  | ternary {l m r : ValueExpr} {i j k : Int} (op : TernaryOp) (a : Annotation) (b : Bool) :
    Denotes s l i → Denotes s m j → Denotes s r k → AtomCanBe s (.ternary op l m r a) b
  | const (c : Constant) (a : Annotation) (b : Bool) : AtomCanBe s (.const c a) b
  | ident (id : Identifier) (a : Annotation) (b : Bool) : AtomCanBe s (.ident id a) b
  | any (a : Annotation) (b : Bool) : AtomCanBe s (.any a) b
  | skip (a : Annotation) (b : Bool) : AtomCanBe s (.skip a) b

/-- The operands of an atom have values, and a comparison is what they say. -/
theorem AtomCanBe.operands {s : Valuation} {op : BinaryOp} {l r : ValueExpr} {a : Annotation}
    {b : Bool} (h : AtomCanBe s (.binary op l r a) b) :
    ∃ m n, Denotes s l m ∧ Denotes s r n ∧ (op.isComparison = true → op.compares m n = b) := by
  cases h with
  | comparison _ _ hl hr => exact ⟨_, _, hl, hr, fun _ => rfl⟩
  | binary _ _ hother hl hr => exact ⟨_, _, hl, hr, fun h => absurd h (Bool.eq_false_iff.1 hother)⟩

/-- The opposite of a comparison is true of the numbers of which the comparison is not. -/
theorem compares_negate {op opposite : BinaryOp} (h : op.negate? = some opposite) (m n : Int) :
    opposite.compares m n = !op.compares m n := by
  cases op <;> cases h <;> simp only [BinaryOp.compares, bne, Bool.not_not] <;> grind

/-- A comparison is the converse one with the numbers exchanged. -/
theorem compares_converse {op : BinaryOp} (hop : op.isComparison = true) (m n : Int) :
    op.converse.compares n m = op.compares m n := by
  cases op with
  | eq => exact Bool.beq_comm
  | ne => exact congrArg (!·) Bool.beq_comm
  | lt | le | gt | ge => rfl
  | add | sub | mul | div | rem | and | or | concat => cases hop

theorem isComparison_converse (op : BinaryOp) : op.converse.isComparison = op.isComparison := by
  cases op <;> rfl

/-- Where a comparison may be true its opposite may be false, and the other way round. -/
theorem AtomCanBe.negate {s : Valuation} {op opposite : BinaryOp} {l r : ValueExpr}
    {a : Annotation} {b : Bool} (hop : op.negate? = some opposite)
    (h : AtomCanBe s (.binary op l r a) b) : AtomCanBe s (.binary opposite l r a) (!b) := by
  have hcomparison : op.isComparison = true := BinaryOp.isComparison_iff.2 (by rw [hop]; rfl)
  have hopposite : opposite.isComparison = true :=
    BinaryOp.isComparison_iff.2 (by rw [BinaryOp.negate?_negate? hop]; rfl)
  cases h with
  | comparison _ _ hl hr =>
    rw [← compares_negate hop]
    exact .comparison a hopposite hl hr
  | binary _ _ hother =>
    rw [hcomparison] at hother
    cases hother

/-! ## Connectives -/

/-- The conditions of which a condition is made with connectives, itself included. -/
inductive ValueExpr.PartOf (c : ValueExpr) : ValueExpr → Prop where
  | refl : PartOf c c
  | not {e : ValueExpr} (a : Annotation) : PartOf c e → PartOf c (.unary .not e a)
  | left {op : BinaryOp} {l : ValueExpr} (r : ValueExpr) (a : Annotation) :
    op.isLogical = true → PartOf c l → PartOf c (.binary op l r a)
  | right {op : BinaryOp} {r : ValueExpr} (l : ValueExpr) (a : Annotation) :
    op.isLogical = true → PartOf c r → PartOf c (.binary op l r a)

theorem ValueExpr.PartOf.trans {c d e : ValueExpr} (hcd : c.PartOf d) (hde : d.PartOf e) :
    c.PartOf e := by
  induction hde with
  | refl => exact hcd
  | not a _ ih => exact .not a ih
  | left r a hop _ ih => exact .left r a hop ih
  | right l a hop _ ih => exact .right l a hop ih

/-- What a condition may be, where `atom` says what its atoms may be. -/
inductive CanBe (atom : ValueExpr → Bool → Prop) : ValueExpr → Bool → Prop where
  | not {e : ValueExpr} {b : Bool} (a : Annotation) :
    CanBe atom e b → CanBe atom (.unary .not e a) (!b)
  | and {l r : ValueExpr} {b c : Bool} (a : Annotation) :
    CanBe atom l b → CanBe atom r c → CanBe atom (.binary .and l r a) (b && c)
  | or {l r : ValueExpr} {b c : Bool} (a : Annotation) :
    CanBe atom l b → CanBe atom r c → CanBe atom (.binary .or l r a) (b || c)
  | atom {e : ValueExpr} {b : Bool} :
    e.isConnective = false → atom e b → CanBe atom e b

section

variable {atom : ValueExpr → Bool → Prop} {e l r : ValueExpr} {a : Annotation} {b : Bool}

theorem canBe_not_iff : CanBe atom (.unary .not e a) b ↔ CanBe atom e (!b) := by
  constructor
  · intro h
    cases h with
    | not _ h => rwa [Bool.not_not]
    | atom h => cases h
  · intro h
    have hnot := CanBe.not a h
    rwa [Bool.not_not] at hnot

/-- A conjunction may be what its operands may be together. -/
theorem canBe_and_iff : CanBe atom (.binary .and l r a) b ↔
    ∃ c d, CanBe atom l c ∧ CanBe atom r d ∧ b = (c && d) := by
  constructor
  · intro h
    cases h with
    | and _ hl hr => exact ⟨_, _, hl, hr, rfl⟩
    | atom h => cases h
  · rintro ⟨c, d, hl, hr, rfl⟩
    exact .and a hl hr

theorem canBe_or_iff : CanBe atom (.binary .or l r a) b ↔
    ∃ c d, CanBe atom l c ∧ CanBe atom r d ∧ b = (c || d) := by
  constructor
  · intro h
    cases h with
    | or _ hl hr => exact ⟨_, _, hl, hr, rfl⟩
    | atom h => cases h
  · rintro ⟨c, d, hl, hr, rfl⟩
    exact .or a hl hr

theorem canBe_atom_iff (he : e.isConnective = false) : CanBe atom e b ↔ atom e b := by
  constructor
  · intro h
    cases h with
    | atom _ h => exact h
    | not => cases he
    | and => cases he
    | or => cases he
  · exact .atom he

end

/-! ## Negation normal form -/

section

variable {atom : ValueExpr → Bool → Prop} {op opposite : BinaryOp} {l r : ValueExpr}
  {a : Annotation} {b : Bool}

/-- A negated comparison may be what the opposite comparison may be. -/
theorem canBe_comparison_iff_opposite
    (hatom : ∀ {op opposite : BinaryOp} {l r : ValueExpr} {a : Annotation} {b : Bool},
      op.negate? = some opposite → atom (.binary op l r a) b → atom (.binary opposite l r a) (!b))
    (hop : op.negate? = some opposite) :
    CanBe atom (.binary opposite l r a) b ↔ CanBe atom (.binary op l r a) (!b) := by
  have hback := BinaryOp.negate?_negate? hop
  have hconnective : op.isLogical = false ∧ opposite.isLogical = false := by
    cases op <;> cases hop <;> exact ⟨rfl, rfl⟩
  rw [canBe_atom_iff (e := .binary op l r a) hconnective.1,
    canBe_atom_iff (e := .binary opposite l r a) hconnective.2]
  refine ⟨fun h => hatom hback h, fun h => ?_⟩
  have hopposite := hatom hop h
  rwa [Bool.not_not] at hopposite

theorem canBe_or_iff_and_not {l' r' : ValueExpr} {a' : Annotation}
    (hl : ∀ b, CanBe atom l' b ↔ CanBe atom l (!b))
    (hr : ∀ b, CanBe atom r' b ↔ CanBe atom r (!b)) :
    CanBe atom (.binary .or l' r' a') b ↔ CanBe atom (.binary .and l r a) (!b) := by
  rw [canBe_or_iff, canBe_and_iff]
  constructor
  · rintro ⟨c, d, hc, hd, rfl⟩
    exact ⟨!c, !d, (hl c).1 hc, (hr d).1 hd, Bool.not_or c d⟩
  · rintro ⟨c, d, hc, hd, hb⟩
    refine ⟨!c, !d, (hl _).2 (by rwa [Bool.not_not]), (hr _).2 (by rwa [Bool.not_not]), ?_⟩
    rw [← Bool.not_and, ← hb, Bool.not_not]

theorem canBe_and_iff_or_not {l' r' : ValueExpr} {a' : Annotation}
    (hl : ∀ b, CanBe atom l' b ↔ CanBe atom l (!b))
    (hr : ∀ b, CanBe atom r' b ↔ CanBe atom r (!b)) :
    CanBe atom (.binary .and l' r' a') b ↔ CanBe atom (.binary .or l r a) (!b) := by
  rw [canBe_and_iff, canBe_or_iff]
  constructor
  · rintro ⟨c, d, hc, hd, rfl⟩
    exact ⟨!c, !d, (hl c).1 hc, (hr d).1 hd, Bool.not_and c d⟩
  · rintro ⟨c, d, hc, hd, hb⟩
    refine ⟨!c, !d, (hl _).2 (by rwa [Bool.not_not]), (hr _).2 (by rwa [Bool.not_not]), ?_⟩
    rw [← Bool.not_or, ← hb, Bool.not_not]

/-- The negation normal form may be what the condition may be, and that of the negation the
opposite. -/
theorem canBe_normal_iff
    (hatom : ∀ {op opposite : BinaryOp} {l r : ValueExpr} {a : Annotation} {b : Bool},
      op.negate? = some opposite → atom (.binary op l r a) b → atom (.binary opposite l r a) (!b))
    (e : ValueExpr) :
    (∀ b, CanBe atom e.removeNegations b ↔ CanBe atom e b) ∧
      ∀ a b, CanBe atom (e.negation a) b ↔ CanBe atom e (!b) := by
  induction e with
  | const c a => exact ⟨fun _ => Iff.rfl, fun _ _ => canBe_not_iff⟩
  | ident id a => exact ⟨fun _ => Iff.rfl, fun _ _ => canBe_not_iff⟩
  | any a => exact ⟨fun _ => Iff.rfl, fun _ _ => canBe_not_iff⟩
  | skip a => exact ⟨fun _ => Iff.rfl, fun _ _ => canBe_not_iff⟩
  | ternary op l m r a => exact ⟨fun _ => Iff.rfl, fun _ _ => canBe_not_iff⟩
  | unary op e a ih =>
    cases op with
    | not =>
      refine ⟨fun b => (ih.2 a b).trans canBe_not_iff.symm, fun _ b => (ih.1 b).trans ?_⟩
      rw [canBe_not_iff, Bool.not_not]
    | neg => exact ⟨fun _ => Iff.rfl, fun _ _ => canBe_not_iff⟩
    | strlen => exact ⟨fun _ => Iff.rfl, fun _ _ => canBe_not_iff⟩
  | binary op l r a ihl ihr =>
    cases op with
    | and =>
      refine ⟨fun b => ?_, fun _ b => canBe_or_iff_and_not (ihl.2 l.note) (ihr.2 r.note)⟩
      simp only [ValueExpr.removeNegations, BinaryOp.isLogical, if_true, canBe_and_iff, ihl.1,
        ihr.1]
    | or =>
      refine ⟨fun b => ?_, fun _ b => canBe_and_iff_or_not (ihl.2 l.note) (ihr.2 r.note)⟩
      simp only [ValueExpr.removeNegations, BinaryOp.isLogical, if_true, canBe_or_iff, ihl.1,
        ihr.1]
    | eq | ne | lt | le | gt | ge =>
      exact ⟨fun _ => Iff.rfl, fun _ _ => canBe_comparison_iff_opposite hatom rfl⟩
    | add | sub | mul | div | rem | concat => exact ⟨fun _ => Iff.rfl, fun _ _ => canBe_not_iff⟩

end

end Overapprox
