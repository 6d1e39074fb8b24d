import Overapprox.Number.Extended
import Overapprox.Proofs.Order.Identity

/-!
# The orders of map keys

Whatever keys a map is ordered by a list of atoms. Compared from the left these lists say what the
fields of the values say: the kind first, then the fields of this kind in turn, each of them in its
own order, to any depth. An identifier is compared by name before its kind. The orders see all that
equality sees, and both overlook the same annotations.

* `Identifier.compare_key_append`, `Ty.compare_key_append`, `SymExpr.compare_key_append`: sort keys
  compare like the fields, and if these are equal, like what follows the keys.
* `Identifier.bare`, `ValueExpr.bare`, `SymExpr.bare`: what an order sees of a value.
* `IsKeyOrder`: a total order up to equality that sees this and nothing else.
* `key_orders_are_lawful`: the orders of map keys are such orders.
-/

namespace Overapprox

/-! ## Atoms -/

@[simp] theorem Atom.compare_number (m n : Int) :
    compare (Atom.number m) (Atom.number n) = compare m n := rfl

@[simp] theorem Atom.compare_text (s t : String) :
    compare (Atom.text s) (Atom.text t) = compare s t := rfl

@[simp] theorem compare_natCast (m n : Nat) : compare (m : Int) n = compare m n := by
  simp only [compare, compareOfLessAndEq, Int.ofNat_lt, Int.natCast_inj]

@[simp] theorem compare_bool_toNat (v w : Bool) : compare v.toNat w.toNat = compare v w := by
  cases v <;> cases w <;> rfl

@[simp] theorem compare_uint32_toNat (m n : UInt32) : compare m.toNat n.toNat = compare m n := by
  simp [compare, compareOfLessAndEq, UInt32.lt_iff_toNat_lt, UInt32.toNat_inj]

/-- Where nothing follows, the order goes by the fields. -/
theorem SortKey.compare_eq_of_append {α : Type} [SortKey α] {fields : α → α → Ordering}
    (h : ∀ (a b : α) (r s : List Atom),
      compare (key a ++ r) (key b ++ s) = (fields a b).then (compare r s)) (a b : α) :
    (toOrd α).compare a b = fields a b := by
  have hnothing := h a b [] []
  rw [List.append_nil, List.append_nil] at hnothing
  exact hnothing.trans Ordering.then_eq

/-! ## Locations -/

/-- Positions by file, line and column; what has no position comes last. -/
def Location.compareFields : Location → Location → Ordering
  | source f l c, source g m d => (compare f g).then ((compare l m).then (compare c d))
  | a, b => compare a.ctorIdx b.ctorIdx

theorem Location.compare_key_append (a b : Location) (r s : List Atom) :
    compare (a.key ++ r) (b.key ++ s) = (a.compareFields b).then (compare r s) := by
  cases a with
  | source =>
    cases b with
    | source =>
      simp [key, compareFields, List.compare_cons_cons, Ordering.then_assoc]
    | synthetic => rfl
  | synthetic =>
    cases b with
    | source => rfl
    | synthetic => simp [key, compareFields, List.compare_cons_cons]

/-! ## Types -/

namespace Ty

mutual

/-- By kind, every built-in type being one of its own, then units by name and references by their
inner types. -/
def compareFields : Ty → Ty → Ordering
  | builtin a, builtin b => compare a.ctorIdx b.ctorIdx
  | unit m, unit n => compare m n
  | reference xs, reference ys => compareAll xs ys
  | a, b => compare a.ctorIdx b.ctorIdx

/-- From the left; a list comes before its continuations. -/
def compareAll : List Ty → List Ty → Ordering
  | [], [] => .eq
  | [], _ :: _ => .lt
  | _ :: _, [] => .gt
  | x :: xs, y :: ys => (x.compareFields y).then (compareAll xs ys)

end

mutual

/-- By recursion on the types. Types of two kinds differ in the first atom. -/
theorem compare_key_append : ∀ (a b : Ty) (r s : List Atom),
    compare (a.key ++ r) (b.key ++ s) = (a.compareFields b).then (compare r s)
  | builtin a, builtin b, r, s => by simp [key, compareFields, List.compare_cons_cons]
  | builtin a, unit _, _, _ => by cases a <;> rfl
  | builtin a, reference _, _, _ => by cases a <;> rfl
  | unit _, builtin b, _, _ => by cases b <;> rfl
  | unit _, unit _, _, _ => by
    simp [key, compareFields, List.compare_cons_cons]
  | unit _, reference _, _, _ => rfl
  | reference _, builtin b, _, _ => by cases b <;> rfl
  | reference _, unit _, _, _ => rfl
  | reference xs, reference ys, r, s => by
    simpa [key, compareFields, List.compare_cons_cons] using compare_keys_append xs ys r s

theorem compare_keys_append : ∀ (xs ys : List Ty) (r s : List Atom),
    compare (keys xs ++ r) (keys ys ++ s) = (compareAll xs ys).then (compare r s)
  | [], [], _, _ => by simp [keys, compareAll, List.compare_cons_cons]
  | [], _ :: _, _, _ => rfl
  | _ :: _, [], _, _ => rfl
  | x :: xs, y :: ys, r, s => by
    simp [keys, compareAll, List.compare_cons_cons, compare_key_append x y,
      compare_keys_append xs ys, Ordering.then_assoc]

end

end Ty

/-! ## Identifiers -/

namespace Identifier

/-- By kind, then by what a heap location, a pointer or a hidden identifier has besides its name. -/
def compareKinds : Identifier → Identifier → Ordering
  | var _ _, var _ _ => .eq
  | heap v _ _, heap w _ _ => compare v w
  | pointer t _, pointer u _ => (compare t.name u.name).then (t.compareKinds u)
  | outOfScope s i _, outOfScope t j _ =>
    (s.scoper.compareFields t.scoper).then ((compare i.name j.name).then (i.compareKinds j))
  | a, b => compare a.ctorIdx b.ctorIdx

/-- By name, then by kind. -/
def compareFields (a b : Identifier) : Ordering :=
  (compare a.name b.name).then (a.compareKinds b)

/-- The sort key without the name before it. -/
def kindKey : Identifier → List Atom
  | var _ _ => [.number 0]
  | heap weak _ _ => [.number 1, .number weak.toNat]
  | pointer t _ => .number 2 :: t.key
  | outOfScope s i _ => .number 3 :: (s.scoper.key ++ i.key)

theorem key_eq (a : Identifier) : a.key = .text a.name :: a.kindKey := by cases a <;> rfl

/-- The keys of what identifiers are besides their names are compared kind by kind. -/
theorem compare_kindKey_append (a b : Identifier) (r s : List Atom) :
    compare (a.kindKey ++ r) (b.kindKey ++ s) = (a.compareKinds b).then (compare r s) := by
  induction a generalizing b r s with
  | var =>
    cases b with
    | var => simp [kindKey, compareKinds, List.compare_cons_cons]
    | _ => rfl
  | heap =>
    cases b with
    | heap => simp [kindKey, compareKinds, List.compare_cons_cons]
    | _ => rfl
  | pointer t _ ih =>
    cases b with
    | pointer u _ =>
      rw [kindKey, kindKey, key_eq t, key_eq u]
      simp [compareKinds, List.compare_cons_cons, Ordering.then_assoc, ih]
    | _ => rfl
  | outOfScope p i _ ih =>
    cases b with
    | outOfScope q j _ =>
      rw [kindKey, kindKey, key_eq i, key_eq j]
      simp [compareKinds, Location.compare_key_append, List.compare_cons_cons,
        Ordering.then_assoc, ih]
    | _ => rfl

/-- Identifiers are compared by their names first, then by their kinds. -/
theorem compare_key_append (a b : Identifier) (r s : List Atom) :
    compare (a.key ++ r) (b.key ++ s) = (a.compareFields b).then (compare r s) := by
  rw [key_eq, key_eq, compareFields, Ordering.then_assoc]
  simp [List.compare_cons_cons, compare_kindKey_append]

end Identifier

/-! ## Expressions -/

/-- By kind, then by value. -/
def Constant.compareFields : Constant → Constant → Ordering
  | bool v, bool w => compare v w
  | int m, int n => compare m n
  | str s, str t => compare s t
  | c, d => compare c.ctorIdx d.ctorIdx

theorem Constant.compare_key_append (c d : Constant) (r s : List Atom) :
    compare (c.key ++ r) (d.key ++ s) = (c.compareFields d).then (compare r s) := by
  -- Constants of two kinds differ in the first atom.
  cases c <;> cases d <;> first
    | rfl
    | simp [key, compareFields, List.compare_cons_cons]

namespace ValueExpr

/-- By kind, then by operator and operands from the left, then by static type. -/
def compareFields : ValueExpr → ValueExpr → Ordering
  | const c a, const d b => (c.compareFields d).then (a.type.compareFields b.type)
  | ident i a, ident j b => (i.compareFields j).then (a.type.compareFields b.type)
  | any a, any b => a.type.compareFields b.type
  | skip a, skip b => a.type.compareFields b.type
  | unary o e a, unary p f b =>
    (compare o.ctorIdx p.ctorIdx).then ((e.compareFields f).then (a.type.compareFields b.type))
  | binary o l r a, binary p l' r' b =>
    (compare o.ctorIdx p.ctorIdx).then ((l.compareFields l').then ((r.compareFields r').then
      (a.type.compareFields b.type)))
  | ternary o l m r a, ternary p l' m' r' b =>
    (compare o.ctorIdx p.ctorIdx).then ((l.compareFields l').then ((m.compareFields m').then
      ((r.compareFields r').then (a.type.compareFields b.type))))
  | e, f => compare e.ctorIdx f.ctorIdx

/-- The keys of expressions are compared field by field, whatever follows them. -/
theorem compare_key_append (e f : ValueExpr) (r s : List Atom) :
    compare (e.key ++ r) (f.key ++ s) = (e.compareFields f).then (compare r s) := by
  -- Expressions of two kinds differ in the first atom.
  induction e generalizing f r s <;> cases f <;> first
    | rfl
    | simp [key, compareFields, Constant.compare_key_append, Identifier.compare_key_append,
        Ty.compare_key_append, List.compare_cons_cons, Ordering.then_assoc, *]

end ValueExpr

namespace SymExpr

/-- By kind, then by operator and operands from the left, then by static type. -/
def compareFields : SymExpr → SymExpr → Ordering
  | const c a, const d b => (c.compareFields d).then (a.type.compareFields b.type)
  | ident i a, ident j b => (i.compareFields j).then (a.type.compareFields b.type)
  | any a, any b => a.type.compareFields b.type
  | skip a, skip b => a.type.compareFields b.type
  | unary o e a, unary p f b =>
    (compare o.ctorIdx p.ctorIdx).then ((e.compareFields f).then (a.type.compareFields b.type))
  | binary o l r a, binary p l' r' b =>
    (compare o.ctorIdx p.ctorIdx).then ((l.compareFields l').then ((r.compareFields r').then
      (a.type.compareFields b.type)))
  | ternary o l m r a, ternary p l' m' r' b =>
    (compare o.ctorIdx p.ctorIdx).then ((l.compareFields l').then ((m.compareFields m').then
      ((r.compareFields r').then (a.type.compareFields b.type))))
  | child c e a, child d f b =>
    (c.compareFields d).then ((e.compareFields f).then (a.type.compareFields b.type))
  | alloc a, alloc b => a.type.compareFields b.type
  | ref e a, ref f b => (e.compareFields f).then (a.type.compareFields b.type)
  | deref e a, deref f b => (e.compareFields f).then (a.type.compareFields b.type)
  | e, f => compare e.ctorIdx f.ctorIdx

theorem compare_key_append (e f : SymExpr) (r s : List Atom) :
    compare (e.key ++ r) (f.key ++ s) = (e.compareFields f).then (compare r s) := by
  induction e generalizing f r s <;> cases f <;> first
    | rfl
    | simp [key, compareFields, Constant.compare_key_append, Identifier.compare_key_append,
        Ty.compare_key_append, List.compare_cons_cons, Ordering.then_assoc, *]

end SymExpr

/-! ## Extended integers -/

namespace Extended

/-- The infinities are told by where they stand, after a test for equality. -/
def compareFields (a b : Extended) : Ordering :=
  if a = b then .eq
  else
    match a, b with
    | posInf, _ | _, negInf => .gt
    | negInf, _ | _, posInf => .lt
    | finite m, finite n => compare m n

theorem compareFields_finite (m n : Int) : (finite m).compareFields (finite n) = compare m n := by
  by_cases h : m = n <;> simp [compareFields, h]

theorem compare_key_append (a b : Extended) (r s : List Atom) :
    compare (SortKey.key a ++ r) (SortKey.key b ++ s) = (a.compareFields b).then (compare r s) := by
  cases a with
  | negInf =>
    cases b with
    | negInf => simp [SortKey.key, compareFields, List.compare_cons_cons]
    | _ => rfl
  | posInf =>
    cases b with
    | posInf => simp [SortKey.key, compareFields, List.compare_cons_cons]
    | _ => rfl
  | finite m =>
    cases b with
    | finite n => simp [SortKey.key, compareFields_finite, List.compare_cons_cons]
    | _ => rfl

theorem key_append_iff {a b : Extended} {r s : List Atom} :
    SortKey.key a ++ r = SortKey.key b ++ s ↔ (a == b) = true ∧ r = s := by
  cases a <;> cases b <;> simp [SortKey.key]

instance : Std.LawfulBEqOrd Extended := SortKey.lawfulBEqOrd key_append_iff

/-- The order on extended numbers is the one that their keys give. -/
theorem isLE_compare_iff {a b : Extended} : (compare a b).isLE = true ↔ a ≤ b := by
  rw [SortKey.compare_eq_of_append compare_key_append]
  cases a with
  | finite m =>
    cases b with
    | finite n => rw [compareFields_finite, Int.isLE_compare, finite_le_finite]
    | _ => simp [compareFields]
  | _ => cases b <;> simp [compareFields]

end Extended

/-! ## What the orders see -/

/-- An identifier without annotations. -/
def Identifier.bare : Identifier → Identifier
  | var n _ => var n { type := .builtin .untyped }
  | heap weak n _ => heap weak n { type := .builtin .untyped }
  | pointer t _ => pointer t.bare { type := .builtin .untyped }
  | outOfScope s i _ => outOfScope s i.bare { type := .builtin .untyped }

/-- An expression with nothing but the static types of its nodes as annotations. -/
def ValueExpr.bare : ValueExpr → ValueExpr
  | const c a => const c { type := a.type }
  | ident i a => ident i.bare { type := a.type }
  | any a => any { type := a.type }
  | skip a => skip { type := a.type }
  | unary op e a => unary op e.bare { type := a.type }
  | binary op l r a => binary op l.bare r.bare { type := a.type }
  | ternary op l m r a => ternary op l.bare m.bare r.bare { type := a.type }

/-- An expression with nothing but the static types of its nodes as annotations. -/
def SymExpr.bare : SymExpr → SymExpr
  | const c a => const c { type := a.type }
  | ident i a => ident i.bare { type := a.type }
  | any a => any { type := a.type }
  | skip a => skip { type := a.type }
  | unary op e a => unary op e.bare { type := a.type }
  | binary op l r a => binary op l.bare r.bare { type := a.type }
  | ternary op l m r a => ternary op l.bare m.bare r.bare { type := a.type }
  | child c e a => child c.bare e.bare { type := a.type }
  | alloc a => alloc { type := a.type }
  | ref e a => ref e.bare { type := a.type }
  | deref e a => deref e.bare { type := a.type }

/-- Equality of identifiers overlooks their annotations and nothing else. -/
theorem Identifier.beq_iff_bare {a b : Identifier} : (a == b) = true ↔ a.bare = b.bare := by
  show a.same b = true ↔ _
  induction a generalizing b <;> cases b <;> simp [same, bare, *]

theorem ValueExpr.beq_iff_bare {e f : ValueExpr} : (e == f) = true ↔ e.bare = f.bare := by
  show e.same f = true ↔ _
  induction e generalizing f <;> cases f <;>
    simp [same, bare, Identifier.beq_iff_bare, and_assoc, *]

/-- Equality of expressions overlooks annotations other than the static types of nodes. -/
theorem SymExpr.beq_iff_bare {e f : SymExpr} : (e == f) = true ↔ e.bare = f.bare := by
  show e.same f = true ↔ _
  induction e generalizing f <;> cases f <;>
    simp [same, bare, Identifier.beq_iff_bare, and_assoc, *]

theorem Identifier.bare_bare (a : Identifier) : a.bare.bare = a.bare := by
  induction a <;> simp [bare, *]

theorem ValueExpr.bare_bare (e : ValueExpr) : e.bare.bare = e.bare := by
  induction e <;> simp [bare, Identifier.bare_bare, *]

/-- There is nothing left to be dropped from a bare expression. -/
theorem SymExpr.bare_bare (e : SymExpr) : e.bare.bare = e.bare := by
  induction e <;> simp [bare, Identifier.bare_bare, *]

/-! ## The laws -/

/-- The order is total up to equality, it goes by the fields, and it sees nothing but the bare
values, as does equality. -/
structure IsKeyOrder (α : Type) [BEq α] [Ord α] (fields : α → α → Ordering) (bare : α → α) :
    Prop where
  eq_fields : ∀ a b : α, compare a b = fields a b
  eq_swap : ∀ a b : α, compare a b = (compare b a).swap
  total : ∀ a b : α, (compare a b).isLE = true ∨ (compare b a).isLE = true
  antisymm : ∀ a b : α, (compare a b).isLE = true → (compare b a).isLE = true → (a == b) = true
  trans : ∀ a b c : α,
    (compare a b).isLE = true → (compare b c).isLE = true → (compare a c).isLE = true
  eq_iff_beq : ∀ a b : α, compare a b = .eq ↔ (a == b) = true
  beq_iff_bare : ∀ a b : α, (a == b) = true ↔ bare a = bare b
  compare_bare : ∀ a b : α, compare (bare a) (bare b) = compare a b

/-- Keys that are compared field by field and that tell apart what equality does give a lawful
order. -/
theorem IsKeyOrder.of_key {α : Type} [SortKey α] [BEq α] {fields : α → α → Ordering} {bare : α → α}
    (hfields : ∀ (a b : α) (r s : List Atom),
      compare (SortKey.key a ++ r) (SortKey.key b ++ s) = (fields a b).then (compare r s))
    (hlawful : @Std.LawfulBEqOrd α _ (SortKey.toOrd α))
    (hbare : ∀ {a b : α}, (a == b) = true ↔ bare a = bare b)
    (hidem : ∀ a, bare (bare a) = bare a) :
    @IsKeyOrder α _ (SortKey.toOrd α) fields bare := by
  let _ : Ord α := SortKey.toOrd α
  have : Std.TransOrd α := SortKey.transCmp
  have hseen (a : α) : compare (bare a) a = .eq :=
    Std.LawfulBEqOrd.compare_eq_iff_beq.2 (hbare.2 (hidem a))
  refine ⟨SortKey.compare_eq_of_append hfields, fun a b => Std.OrientedOrd.eq_swap, fun a b => ?_,
    fun a b hab hba => ?_, fun a b c => Std.TransOrd.isLE_trans,
    fun a b => Std.LawfulBEqOrd.compare_eq_iff_beq, fun a b => hbare, fun a b => ?_⟩
  · rw [Std.OrientedOrd.eq_swap (a := b) (b := a)]
    cases compare a b <;> simp
  · exact Std.LawfulBEqOrd.compare_eq_iff_beq.1 (Std.OrientedCmp.isLE_antisymm hab hba)
  · rw [compare_congr_left (hseen a), compare_congr_right (hseen b)]

/-- The orders of identifiers, of expressions, of types and of extended integers are lawful. They
see no annotations but the static types of expressions. -/
theorem key_orders_are_lawful :
    IsKeyOrder Identifier Identifier.compareFields Identifier.bare ∧
      IsKeyOrder SymExpr SymExpr.compareFields SymExpr.bare ∧
      IsKeyOrder ValueExpr ValueExpr.compareFields ValueExpr.bare ∧
      IsKeyOrder Ty Ty.compareFields id ∧
      IsKeyOrder Extended Extended.compareFields id ∧
      ∀ a b : Extended, (compare a b).isLE = true ↔ a ≤ b := by
  refine ⟨?_, ?_, ?_, ?_, ?_, fun a b => Extended.isLE_compare_iff⟩
  · exact .of_key Identifier.compare_key_append inferInstance Identifier.beq_iff_bare
      Identifier.bare_bare
  · exact .of_key SymExpr.compare_key_append inferInstance SymExpr.beq_iff_bare SymExpr.bare_bare
  · exact .of_key ValueExpr.compare_key_append inferInstance ValueExpr.beq_iff_bare
      ValueExpr.bare_bare
  · exact .of_key Ty.compare_key_append inferInstance beq_iff_eq fun _ => rfl
  · exact .of_key Extended.compare_key_append inferInstance beq_iff_eq fun _ => rfl

end Overapprox
