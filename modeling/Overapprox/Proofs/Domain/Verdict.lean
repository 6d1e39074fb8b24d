import Overapprox.Domain.Basic
import Overapprox.Proofs.Concrete.Condition
import Overapprox.Proofs.Lattice.Pointwise

/-!
# Verdicts of a domain

A verdict allows the truth values that it does not exclude, and the verdict on a condition should
allow whatever the condition may be. Verdicts are put together from evaluated operands and from
what the domain says about single nodes, so this follows for every domain from the same about its
evaluation and about single nodes. What the values are and what the nodes mean is left open.

* `Semantics`, `Concretization`: the meaning of nodes, and the values that abstract ones describe.
* `SoundNodes.describes_eval`: evaluation is sound if it is for single nodes.
* `satisfies_sound`: the verdicts of a domain on all conditions are sound.
-/

namespace Overapprox

open AbstractLattice

/-! ## What a verdict allows -/

namespace Verdict

/-- Whether a verdict leaves it open that the condition is `b`. -/
def Allows : Verdict → Bool → Prop
  | satisfied, b => b = true
  | notSatisfied, b => b = false
  | unknown, _ => True
  | bottom, _ => False

variable {v w : Verdict} {b c : Bool}

/-- A negated verdict allows the contrary of what the verdict allows. -/
theorem allows_negate_iff : v.negate.Allows b ↔ v.Allows (!b) := by
  cases v <;> simp [negate, Allows]

/-- If verdicts allow what two conditions are, their conjunction allows what both together are. -/
theorem allows_and (hv : v.Allows b) (hw : w.Allows c) : (v.and w).Allows (b && c) := by
  cases v <;> cases w <;> simp_all [Verdict.and, Allows]

theorem allows_or (hv : v.Allows b) (hw : w.Allows c) : (v.or w).Allows (b || c) := by
  cases v <;> cases w <;> simp_all [Verdict.or, Allows]

theorem allows_ofBool_iff : (ofBool b).Allows c ↔ c = b := by
  cases b <;> rfl

end Verdict

/-! ## Meaning of expressions -/

/-- What the nodes of expressions mean over values of a type. An operator may have several results
or none, and a condition may be both true and false or neither. -/
structure Semantics (α : Type) where
  /-- The values of a constant of a static type. -/
  const : Constant → Ty → α → Prop
  /-- The values of an unknown expression of a static type. -/
  any : Ty → α → Prop
  unary : UnaryOp → α → α → Prop
  binary : BinaryOp → α → α → α → Prop
  ternary : TernaryOp → α → α → α → α → Prop
  /-- The truth values of a value as a condition. -/
  valueIs : α → Bool → Prop
  /-- The truth values of a constant of a static type as a condition. -/
  constIs : Constant → Ty → Bool → Prop
  unaryIs : UnaryOp → α → Bool → Prop
  binaryIs : BinaryOp → α → α → Bool → Prop
  ternaryIs : TernaryOp → α → α → α → Bool → Prop

namespace Semantics

variable {α : Type}

/-- The values that an expression may have in a store. Operators are strict, and a statement has no
value. -/
inductive Evaluates (m : Semantics α) (s : Identifier → α) : ValueExpr → α → Prop where
  | ident (id : Identifier) (a : Annotation) : Evaluates m s (.ident id a) (s id)
  | const {c : Constant} {a : Annotation} {x : α} :
    m.const c a.type x → Evaluates m s (.const c a) x
  | any {a : Annotation} {x : α} : m.any a.type x → Evaluates m s (.any a) x
  | unary {op : UnaryOp} {e : ValueExpr} {x y : α} (a : Annotation) :
    Evaluates m s e x → m.unary op x y → Evaluates m s (.unary op e a) y
  | binary {op : BinaryOp} {l r : ValueExpr} {x y z : α} (a : Annotation) :
    Evaluates m s l x → Evaluates m s r y → m.binary op x y z → Evaluates m s (.binary op l r a) z
  | ternary {op : TernaryOp} {l e r : ValueExpr} {x y z u : α} (a : Annotation) :
    Evaluates m s l x → Evaluates m s e y → Evaluates m s r z → m.ternary op x y z u →
      Evaluates m s (.ternary op l e r a) u

/-- What a condition that is not a connective may be in a store. Nothing is known of an unknown
condition, nor of a statement. -/
inductive AtomCanBe (m : Semantics α) (s : Identifier → α) : ValueExpr → Bool → Prop where
  | ident {id : Identifier} {b : Bool} (a : Annotation) :
    m.valueIs (s id) b → AtomCanBe m s (.ident id a) b
  | const {c : Constant} {a : Annotation} {b : Bool} :
    m.constIs c a.type b → AtomCanBe m s (.const c a) b
  | any (a : Annotation) (b : Bool) : AtomCanBe m s (.any a) b
  | skip (a : Annotation) (b : Bool) : AtomCanBe m s (.skip a) b
  | unary {op : UnaryOp} {e : ValueExpr} {x : α} {b : Bool} (a : Annotation) :
    m.Evaluates s e x → m.unaryIs op x b → AtomCanBe m s (.unary op e a) b
  | binary {op : BinaryOp} {l r : ValueExpr} {x y : α} {b : Bool} (a : Annotation) :
    m.Evaluates s l x → m.Evaluates s r y → m.binaryIs op x y b →
      AtomCanBe m s (.binary op l r a) b
  | ternary {op : TernaryOp} {l e r : ValueExpr} {x y z : α} {b : Bool} (a : Annotation) :
    m.Evaluates s l x → m.Evaluates s e y → m.Evaluates s r z → m.ternaryIs op x y z b →
      AtomCanBe m s (.ternary op l e r a) b

end Semantics

/-! ## Meaning of abstract values -/

/-- The values that every abstract value describes; bottom describes none. -/
structure Concretization (δ α : Type) [BEq δ] [AbstractLattice δ] where
  Describes : δ → α → Prop
  isBottom_of_describes {v : δ} {x : α} : Describes v x → isBottom v = false

/-- The stores that an environment describes, identifier by identifier. -/
def Concretization.Admits {δ α : Type} [BEq δ] [AbstractLattice δ] (c : Concretization δ α)
    (env : ValueEnv δ) (s : Identifier → α) : Prop :=
  ∀ id, c.Describes (env.get id) (s id)

namespace ValueDomain

variable {δ α : Type} [BEq δ] [ValueDomain δ]

/-- Evaluation describes every value that an expression may have. -/
def SoundEval (opts : Options) (c : Concretization δ α) (m : Semantics α) : Prop :=
  ∀ {env : ValueEnv δ} {s : Identifier → α} {e : ValueExpr} {x : α},
    c.Admits env s → m.Evaluates s e x → c.Describes (eval opts env e) x

/-- What a domain evaluates single nodes to describes all their values. -/
structure SoundNodes (opts : Options) (c : Concretization δ α) (m : Semantics α) : Prop where
  ident {v : δ} {x : α} (id : Identifier) :
    c.Describes v x → c.Describes (evalIdentifier id v) x
  null {t : Ty} {x : α} : m.const .null t x → c.Describes evalNull x
  const {k : Constant} {t : Ty} {x : α} :
    k ≠ .null → m.const k t x → c.Describes (evalConstant k t) x
  any {t : Ty} {x : α} : m.any t x → c.Describes (evalAny t) x
  unary {op : UnaryOp} {v : δ} {x y : α} :
    c.Describes v x → m.unary op x y → c.Describes (evalUnary op v) y
  binary {op : BinaryOp} {v w : δ} {x y z : α} :
    c.Describes v x → c.Describes w y → m.binary op x y z →
      c.Describes (evalBinary opts op v w) z
  ternary {op : TernaryOp} {u v w : δ} {x y z r : α} :
    c.Describes u x → c.Describes v y → c.Describes w z → m.ternary op x y z r →
      c.Describes (evalTernary op u v w) r

/-- What a domain says about single nodes that are no connectives allows whatever they may be. -/
structure SoundVerdicts (c : Concretization δ α) (m : Semantics α) : Prop where
  value {v : δ} {x : α} {b : Bool} : c.Describes v x → m.valueIs x b → (satisfiesValue v).Allows b
  null {t : Ty} {b : Bool} : m.constIs .null t b → (satisfiesNull δ).Allows b
  const {k : Constant} {t : Ty} {b : Bool} :
    k ≠ .null → m.constIs k t b → (satisfiesConstant δ k).Allows b
  unary {op : UnaryOp} {v : δ} {x : α} {b : Bool} :
    op ≠ .not → c.Describes v x → m.unaryIs op x b → (satisfiesUnary op v).Allows b
  binary {op : BinaryOp} {v w : δ} {x y : α} {b : Bool} :
    op.isLogical = false → c.Describes v x → c.Describes w y → m.binaryIs op x y b →
      (satisfiesBinary op v w).Allows b
  ternary {op : TernaryOp} {u v w : δ} {x y z : α} {b : Bool} :
    c.Describes u x → c.Describes v y → c.Describes w z → m.ternaryIs op x y z b →
      (satisfiesTernary op u v w).Allows b

/-! ## Evaluation -/

/-- By induction on the value. Operands with values are not bottom, so the operators are asked. -/
theorem SoundNodes.describes_eval {opts : Options} {c : Concretization δ α} {m : Semantics α}
    (h : SoundNodes opts c m) : SoundEval opts c m := by
  intro env s e x hs hx
  induction hx with
  | ident id a => exact h.ident id (hs id)
  | @const k a x hk =>
    cases k with
    | null => exact h.null hk
    | bool | int | str => exact h.const nofun hk
  | any hx => exact h.any hx
  | unary a _ hop ih =>
    rw [eval, c.isBottom_of_describes ih]
    exact h.unary ih hop
  | binary a _ _ hop ihl ihr =>
    rw [eval, c.isBottom_of_describes ihl, c.isBottom_of_describes ihr]
    exact h.binary ihl ihr hop
  | ternary a _ _ _ hop ihl ihm ihr =>
    rw [eval, c.isBottom_of_describes ihl, c.isBottom_of_describes ihm,
      c.isBottom_of_describes ihr]
    exact h.ternary ihl ihm ihr hop

end ValueDomain

/-! ## A domain of truth values -/

namespace Verdict

variable {v w : Verdict} {b c : Bool}

/-- The verdict on a constant. -/
def ofConstant : Constant → Verdict
  | .bool b => ofBool b
  | _ => unknown

/-- The verdict on the equality of two conditions. -/
def same (v w : Verdict) : Verdict := (v.and w).or (v.negate.and w.negate)

theorem allows_same (hv : v.Allows b) (hw : w.Allows c) : (v.same w).Allows (b == c) := by
  have hnegated : (v.negate.and w.negate).Allows (!b && !c) :=
    allows_and (allows_negate_iff.2 (by rwa [Bool.not_not]))
      (allows_negate_iff.2 (by rwa [Bool.not_not]))
  have hor := allows_or (allows_and hv hw) hnegated
  cases b <;> cases c <;> exact hor

/-- Verdicts as the abstract values of truth values, of which constants and equality are known. -/
instance : ValueDomain Verdict where
  evalConstant k _ := ofConstant k
  satisfiesValue v := v
  satisfiesConstant := ofConstant
  satisfiesBinary op v w := if op = .eq then v.same w else unknown

/-- A verdict describes the truth values that it allows. -/
def concretization : Concretization Verdict Bool where
  Describes := Allows
  isBottom_of_describes {v x} h := by cases v <;> first | rfl | exact h.elim

end Verdict

/-- Expressions over truth values. Everything but constants and equality is left open. -/
def Semantics.truth : Semantics Bool where
  const k _ x := ∀ b, k = .bool b → x = b
  any _ _ := True
  unary _ _ _ := True
  binary _ _ _ _ := True
  ternary _ _ _ _ _ := True
  valueIs x b := b = x
  constIs k _ b := ∀ c, k = .bool c → b = c
  unaryIs _ _ _ := True
  binaryIs op x y b := op = .eq → b = (x == y)
  ternaryIs _ _ _ _ _ := True

/-- The boolean variable of a name. -/
def boolVar (name : String) : Identifier := .var name { type := .bool }

namespace Verdict

/-- The condition `!q || p == true`. -/
def sampleCondition : ValueExpr :=
  .binary .or (.unary .not (.ofIdentifier (boolVar "q")) { type := .bool })
    (.binary .eq (.ofIdentifier (boolVar "p")) (.const (.bool true) { type := .bool })
      { type := .bool }) { type := .bool }

theorem allows_ofConstant {k : Constant} {b : Bool} (h : ∀ c, k = .bool c → b = c) :
    (ofConstant k).Allows b := by
  cases k with
  | bool c => exact allows_ofBool_iff.2 (h c rfl)
  | null | int | str => trivial

theorem soundNodes (opts : Options) :
    ValueDomain.SoundNodes opts concretization Semantics.truth where
  ident _ h := h
  null _ := trivial
  const _ h := allows_ofConstant h
  any _ := trivial
  unary _ _ := trivial
  binary _ _ _ := trivial
  ternary _ _ _ _ := trivial

theorem soundVerdicts : ValueDomain.SoundVerdicts concretization Semantics.truth where
  value {v x b} hv hb := by
    rw [show b = x from hb]
    exact hv
  null _ := trivial
  const _ h := allows_ofConstant h
  unary _ _ _ := trivial
  binary {op v w x y b} _ hv hw hb := by
    show (if op = .eq then v.same w else unknown).Allows b
    split
    case isTrue heq =>
      rw [hb heq]
      exact allows_same hv hw
    case isFalse => trivial
  ternary _ _ _ _ := trivial

end Verdict

/-! ## Verdicts -/

namespace ValueDomain

variable {δ α : Type} [BEq δ] [ValueDomain δ] {opts : Options} {c : Concretization δ α}
  {m : Semantics α} {env : ValueEnv δ} {s : Identifier → α} {e : ValueExpr} {b : Bool}

/-- Other operators than connectives are judged by the values of their operands. -/
theorem satisfies_of_not_isLogical {op : BinaryOp} {l r : ValueExpr} {a : Annotation}
    (hop : op.isLogical = false) : satisfies opts env (.binary op l r a) =
      if isBottom (eval opts env l) || isBottom (eval opts env r) then .bottom
      else satisfiesBinary op (eval opts env l) (eval opts env r) := by
  cases op with
  | and | or => cases hop
  | _ => rfl

/-- On anything but a connective, verdicts are sound where those on single nodes are. -/
theorem SoundVerdicts.allows_satisfies_atom (h : SoundVerdicts c m) (heval : SoundEval opts c m)
    (hs : c.Admits env s) (he : e.isConnective = false) (hb : m.AtomCanBe s e b) :
    (satisfies opts env e).Allows b := by
  cases hb with
  | ident a hb => exact h.value (hs _) hb
  | @const k a b hb =>
    cases k with
    | null => exact h.null hb
    | bool | int | str => exact h.const nofun hb
  | any | skip => trivial
  | @unary op e x b a hx hb =>
    have hv := heval hs hx
    have hne := c.isBottom_of_describes hv
    cases op with
    | not => cases he
    | neg | strlen =>
      dsimp only [satisfies]
      rw [hne]
      exact h.unary nofun hv hb
  | @binary op l r x y b a hx hy hb =>
    have hv := heval hs hx
    have hw := heval hs hy
    rw [satisfies_of_not_isLogical he, c.isBottom_of_describes hv, c.isBottom_of_describes hw]
    exact h.binary he hv hw hb
  | ternary a hx hy hz hb =>
    have hu := heval hs hx
    have hv := heval hs hy
    have hw := heval hs hz
    rw [satisfies, c.isBottom_of_describes hu, c.isBottom_of_describes hv,
      c.isBottom_of_describes hw]
    exact h.ternary hu hv hw hb

/-- By induction on what the condition may be. Both operands of a connective may be something, so
neither verdict is bottom. -/
theorem allows_satisfies_of_parts {atom : ValueExpr → Bool → Prop}
    (h : ∀ {p : ValueExpr} {b : Bool}, p.PartOf e → p.isConnective = false → atom p b →
      (satisfies opts env p).Allows b) (hb : CanBe atom e b) : (satisfies opts env e).Allows b := by
  induction hb with
  | not a _ ih =>
    rw [satisfies, Verdict.allows_negate_iff, Bool.not_not]
    exact ih fun hpart => h (.not a hpart)
  | and a _ _ ihl ihr =>
    rw [satisfies]
    exact Verdict.allows_and (ihl fun hpart => h (.left _ a rfl hpart))
      (ihr fun hpart => h (.right _ a rfl hpart))
  | or a _ _ ihl ihr =>
    rw [satisfies]
    exact Verdict.allows_or (ihl fun hpart => h (.left _ a rfl hpart))
      (ihr fun hpart => h (.right _ a rfl hpart))
  | atom he hb => exact h .refl he hb

/-- Where a domain evaluates soundly and judges single nodes soundly, it judges every condition
soundly: one that is satisfied is never false, one that is not satisfied is never true, and one
whose verdict is bottom has no truth value. -/
theorem satisfies_sound (heval : SoundEval opts c m) (h : SoundVerdicts c m)
    (hs : c.Admits env s) (e : ValueExpr) :
    (satisfies opts env e = .satisfied → ¬CanBe (m.AtomCanBe s) e false) ∧
      (satisfies opts env e = .notSatisfied → ¬CanBe (m.AtomCanBe s) e true) ∧
      (satisfies opts env e = .bottom → ∀ b, ¬CanBe (m.AtomCanBe s) e b) := by
  have hallows {b : Bool} (hb : CanBe (m.AtomCanBe s) e b) : (satisfies opts env e).Allows b :=
    allows_satisfies_of_parts (fun _ he => h.allows_satisfies_atom heval hs he) hb
  refine ⟨fun hv hb => ?_, fun hv hb => ?_, fun hv b hb => ?_⟩
  · exact Bool.false_ne_true (hv ▸ hallows hb : Verdict.satisfied.Allows false)
  · exact Bool.false_ne_true (hv ▸ hallows hb : Verdict.notSatisfied.Allows true).symm
  · exact (hv ▸ hallows hb : Verdict.bottom.Allows b)

/-- Whatever the unbound `q` is, `!q || p == true` holds where `p` is true. -/
theorem satisfies_sound_of_equality :
    satisfies {} ((∅ : ValueEnv Verdict).put (boolVar "p") .satisfied) Verdict.sampleCondition =
        .satisfied ∧
      ¬CanBe (Semantics.truth.AtomCanBe fun _ => true) Verdict.sampleCondition false := by
  have hadmits : Verdict.concretization.Admits
      ((∅ : ValueEnv Verdict).put (boolVar "p") .satisfied) fun _ => true :=
    fun id => Pointwise.get_cases (p := (Verdict.Allows · true)) nofun trivial fun v hv => by
      obtain ⟨entry, hentry, -, rfl⟩ := OrdMap.exists_mem_of_find? hv
      obtain rfl := List.mem_singleton.1 hentry
      rfl
  have hsatisfied : satisfies {} ((∅ : ValueEnv Verdict).put (boolVar "p") .satisfied)
      Verdict.sampleCondition = .satisfied := by decide
  exact ⟨hsatisfied, (satisfies_sound (Verdict.soundNodes {}).describes_eval Verdict.soundVerdicts
    hadmits _).1 hsatisfied⟩

end ValueDomain

end Overapprox
