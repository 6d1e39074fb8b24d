import Overapprox.Expr.Symbolic

/-!
# Sort keys tell values apart

The order of identifiers and expressions compares sort keys, and their equality compares shapes.
Both see the same parts of a value, so a map or a set has one entry for every value up to equality.
A key also tells where it ends, whatever follows it; this carries the inductions over nested values.

* `Identifier.key_append_iff`, `ValueExpr.key_append_iff`, `SymExpr.key_append_iff`: keys followed
  by something are equal exactly when the values are equal and what follows is.
* `SortKey.lawfulBEqOrd`: with such keys, values compare as equal exactly when they are equal.
-/

namespace Overapprox

/-- Keys that tell where they end, and which values they belong to, order the values lawfully. -/
theorem SortKey.lawfulBEqOrd {α : Type} [SortKey α] [BEq α]
    (h : ∀ {a b : α} {r s : List Atom},
      SortKey.key a ++ r = SortKey.key b ++ s ↔ (a == b) = true ∧ r = s) :
    @Std.LawfulBEqOrd α _ (SortKey.toOrd α) := by
  refine @Std.LawfulBEqCmp.mk _ _ (SortKey.toOrd α).compare fun {a b} => ?_
  have hkey := h (a := a) (b := b) (r := []) (s := [])
  rw [List.append_nil, List.append_nil] at hkey
  exact SortKey.compare_eq_iff.trans (hkey.trans (and_iff_left rfl))

theorem Ty.key_append_iff {a b : Ty} {r s : List Atom} :
    a.key ++ r = b.key ++ s ↔ a = b ∧ r = s :=
  ⟨key_append_inj, by rintro ⟨rfl, rfl⟩; rfl⟩

theorem Location.key_append_iff {a b : Location} {r s : List Atom} :
    a.key ++ r = b.key ++ s ↔ a = b ∧ r = s :=
  ⟨key_append_inj, by rintro ⟨rfl, rfl⟩; rfl⟩

instance : Std.LawfulBEqOrd Location :=
  SortKey.lawfulBEqOrd (Location.key_append_iff.trans (and_congr_left' beq_iff_eq.symm))

/-! ## Identifiers -/

namespace Identifier

/-- Identifiers have the same key when they have the same name and kind, whatever their annotations.
-/
theorem key_append_iff {a b : Identifier} {r s : List Atom} :
    a.key ++ r = b.key ++ s ↔ a.same b = true ∧ r = s := by
  induction a generalizing b r s with
  | var n _ => cases b <;> simp [key, same]
  | heap v n _ =>
    cases b with
    | heap w m _ => cases v <;> cases w <;> simp [key, same]
    | _ => simp [key, same]
  | pointer t _ ih =>
    cases b with
    | pointer u _ =>
      have hname : t.same u = true → t.name = u.name := name_eq_of_beq
      simpa [key, same, ih] using fun h _ => hname h
    | _ => simp [key, same]
  | outOfScope p i _ ih =>
    cases b with
    | outOfScope q j _ =>
      have hname : i.same j = true → i.name = j.name := name_eq_of_beq
      have hscope : p.scoper = q.scoper ↔ p = q := by
        cases p
        cases q
        simp
      simp only [key, same, List.cons_append, List.append_assoc, List.cons.injEq,
        Location.key_append_iff, ih, hscope, Atom.text.injEq, true_and, Bool.and_eq_true,
        beq_iff_eq, and_assoc]
      exact ⟨And.right, fun h => ⟨hname h.2.1, h⟩⟩
    | _ => simp [key, same]

instance : Std.LawfulBEqOrd Identifier := SortKey.lawfulBEqOrd key_append_iff

end Identifier

/-! ## Expressions -/

theorem Constant.key_append_iff {c d : Constant} {r s : List Atom} :
    c.key ++ r = d.key ++ s ↔ c = d ∧ r = s := by
  cases c with
  | bool v =>
    cases d with
    | bool w => cases v <;> cases w <;> simp [key]
    | _ => simp [key]
  | _ => cases d <;> simp [key]

theorem UnaryOp.ctorIdx_inj {o p : UnaryOp} : o.ctorIdx = p.ctorIdx ↔ o = p :=
  ⟨fun h => by rw [← ofNat_ctorIdx o, h, ofNat_ctorIdx], fun h => by rw [h]⟩

theorem BinaryOp.ctorIdx_inj {o p : BinaryOp} : o.ctorIdx = p.ctorIdx ↔ o = p :=
  ⟨fun h => by rw [← ofNat_ctorIdx o, h, ofNat_ctorIdx], fun h => by rw [h]⟩

theorem TernaryOp.ctorIdx_inj {o p : TernaryOp} : o.ctorIdx = p.ctorIdx ↔ o = p :=
  ⟨fun h => by rw [← ofNat_ctorIdx o, h, ofNat_ctorIdx], fun h => by rw [h]⟩

namespace ValueExpr

/-- By induction on the first expression. Its key ends where the expression does, so whatever
follows is the same too. -/
theorem key_append_iff {e f : ValueExpr} {r s : List Atom} :
    e.key ++ r = f.key ++ s ↔ e.same f = true ∧ r = s := by
  induction e generalizing f r s with
  | ident i a =>
    cases f <;> simp [key, same, Identifier.key_append_iff, Ty.key_append_iff, and_assoc]
    exact fun _ _ => rfl
  | _ =>
    cases f <;> simp only [key, same, Constant.key_append_iff, Ty.key_append_iff, Int.natCast_inj,
      UnaryOp.ctorIdx_inj, BinaryOp.ctorIdx_inj, TernaryOp.ctorIdx_inj, and_assoc,
      List.cons_append, List.append_assoc, List.cons.injEq, Atom.number.injEq, Bool.and_eq_true,
      beq_iff_eq, Bool.false_eq_true, Int.reduceEq, false_and, true_and, *]

instance : Std.LawfulBEqOrd ValueExpr := SortKey.lawfulBEqOrd key_append_iff

/-- Equal expressions have the same static type, since equality compares it. -/
theorem type_eq_of_beq {e f : ValueExpr} (h : (e == f) = true) : e.note.type = f.note.type := by
  change e.same f = true at h
  cases e <;> cases f <;> simp_all [same, note]

end ValueExpr

namespace SymExpr

theorem key_append_iff {e f : SymExpr} {r s : List Atom} :
    e.key ++ r = f.key ++ s ↔ e.same f = true ∧ r = s := by
  induction e generalizing f r s with
  | ident i a =>
    cases f <;> simp [key, same, Identifier.key_append_iff, Ty.key_append_iff, and_assoc]
    exact fun _ _ => rfl
  | _ =>
    cases f <;> simp only [key, same, Constant.key_append_iff, Ty.key_append_iff, Int.natCast_inj,
      UnaryOp.ctorIdx_inj, BinaryOp.ctorIdx_inj, TernaryOp.ctorIdx_inj, and_assoc,
      List.cons_append, List.append_assoc, List.cons.injEq, Atom.number.injEq, Bool.and_eq_true,
      beq_iff_eq, Bool.false_eq_true, Int.reduceEq, false_and, true_and, *]

instance : Std.LawfulBEqOrd SymExpr := SortKey.lawfulBEqOrd key_append_iff

end SymExpr

end Overapprox
