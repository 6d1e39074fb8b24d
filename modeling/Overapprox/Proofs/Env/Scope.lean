import Overapprox.Proofs.Lattice.States
import Overapprox.Proofs.Order.Renaming
import Overapprox.State.Analysis

/-!
# Call scopes

A call hides the variables of the caller, and the identifiers that were hidden before, behind its
token. Hiding keeps identifiers apart, so nothing is lost when the scope is popped again. What is
popped under a variable or a hidden identifier was bound to the same one behind the token alone.

* `Identifier.pushScope_beq`, `SymExpr.pushScope_beq`: hiding keeps identifiers and expressions
  apart.
* `ValueEnv.get_pushScope`, `ValueEnv.get_popScope`: reading in a scope and after it.
* `ValueEnv.popScope_pushScope`, `State.popScope_pushScope`: popping undoes pushing.
-/

namespace Overapprox

open AbstractLattice

variable {token : ScopeToken}

/-! ## Identifiers and expressions -/

namespace Identifier

/-- Whether calls hide an identifier: a variable, or one that is hidden already. -/
def isScoped : Identifier → Bool
  | var .. => true
  | outOfScope .. => true
  | _ => false

/-- Whether an identifier is hidden by a call. -/
def isHidden : Identifier → Bool
  | outOfScope .. => true
  | _ => false

variable {a b x : Identifier}

theorem isHidden_eq_of_beq (h : (a == b) = true) : a.isHidden = b.isHidden := by
  change a.same b = true at h
  cases a <;> cases b <;> first | rfl | cases h

theorem isScoped_eq_of_beq (h : (a == b) = true) : a.isScoped = b.isScoped := by
  change a.same b = true at h
  cases a <;> cases b <;> first | rfl | cases h

theorem isScoped_of_isHidden (h : x.isHidden = true) : x.isScoped = true := by
  cases x with
  | outOfScope => rfl
  | _ => cases h

theorem isHidden_pushScope (h : x.isScoped = true) : (x.pushScope token).isHidden = true := by
  cases x with
  | var | outOfScope => rfl
  | _ => cases h

/-- Hiding identifiers behind the same call keeps different ones apart. -/
theorem pushScope_beq (token : ScopeToken) (a b : Identifier) :
    (a.pushScope token == b.pushScope token) = (a == b) := by
  have hhide (i j : Identifier) (c d : Annotation) :
      (outOfScope token i c == outOfScope token j d) = (i == j) := by
    show (token == token && i.same j) = i.same j
    rw [BEq.refl token, Bool.true_and]
  cases a <;> cases b <;> first | rfl | exact hhide _ _ _ _

/-- What is popped under the name of a scoped identifier was hidden by the token, under this
name. -/
theorem exists_popScope?_iff (hx : x.isScoped = true) (j : Identifier) :
    (∃ i, j.popScope? token = some i ∧ (x == i) = true) ↔ (x.pushScope token == j) = true := by
  obtain ⟨a, hpush⟩ : ∃ a, x.pushScope token = outOfScope token x a := by
    cases x with
    | var n a => exact ⟨a, rfl⟩
    | outOfScope s i a => exact ⟨a, rfl⟩
    | _ => cases hx
  -- Locations and pointers pass a pop unchanged, but are never equal to a scoped identifier.
  have hglobal {i : Identifier} (hi : i.isScoped = false) : (x == i) = false := by
    rw [Bool.eq_false_iff]
    intro heq
    rw [← isScoped_eq_of_beq heq, hx] at hi
    cases hi
  rw [hpush]
  cases j with
  | var n b => exact iff_of_false nofun nofun
  | heap w n b =>
    refine iff_of_false ?_ nofun
    rintro ⟨i, hi, heq⟩
    cases hi
    cases (hglobal rfl).symm.trans heq
  | pointer t b =>
    refine iff_of_false ?_ nofun
    rintro ⟨i, hi, heq⟩
    cases hi
    cases (hglobal rfl).symm.trans heq
  | outOfScope s i b =>
    show _ ↔ (token == s && x.same i) = true
    rw [Bool.and_eq_true, beq_iff_eq, popScope?]
    constructor
    · rintro ⟨k, hk, heq⟩
      split at hk
      case isTrue hs =>
        cases hk
        exact ⟨hs.symm, heq⟩
      case isFalse => cases hk
    · rintro ⟨rfl, heq⟩
      exact ⟨i, if_pos rfl, heq⟩

end Identifier

theorem SymExpr.pushScope_beq (token : ScopeToken) (e f : SymExpr) :
    (e.pushScope token == f.pushScope token) = (e == f) := by
  show (e.pushScope token).same (f.pushScope token) = e.same f
  unfold pushScope
  induction e generalizing f with
  | ident i a =>
    cases f with
    | ident j b =>
      exact congrArg (· && (a.type == b.type)) (i.pushScope_beq token j)
    | _ => rfl
  | const | any | skip | alloc => cases f <;> rfl
  | unary _ _ _ ih | ref _ _ ih | deref _ _ ih =>
    cases f with
    | unary | ref | deref => simp only [mapIdentifiers, same, ih]
    | _ => rfl
  | binary _ _ _ _ ihl ihr | child _ _ _ ihl ihr =>
    cases f with
    | binary | child => simp only [mapIdentifiers, same, ihl, ihr]
    | _ => rfl
  | ternary _ _ _ _ _ ihl ihm ihr =>
    cases f with
    | ternary => simp only [mapIdentifiers, same, ihl, ihm, ihr]
    | _ => rfl

/-! ## Functions of identifiers -/

namespace Pointwise

variable {κ ν : Type} [Ord κ] [Std.TransOrd κ] [BEq ν] [AbstractLattice ν] {k l : κ}

/-- Reading under a new name, which just the keys that equal `k` get. -/
theorem get_renameKeys (f : Pointwise κ ν) {rename : κ → Option κ}
    (h : ∀ j, (∃ i, rename j = some i ∧ compare l i = .eq) ↔ compare k j = .eq) :
    (f.renameKeys rename).get l = f.get k := by
  cases f with
  | top => rfl
  | bottom => rfl
  | table m =>
    show ((OrdMap.ofList _).find? l).getD _ = (m.find? k).getD _
    obtain ⟨e, he, hle, hfind⟩ | ⟨hnone, hfind⟩ := OrdMap.find?_ofList_cases l
      (m.entries.filterMap fun e => (rename e.1).map (·, e.2))
    · obtain ⟨d, hd, he⟩ := List.mem_filterMap.1 he
      obtain ⟨i, hi, rfl⟩ := Option.map_eq_some_iff.1 he
      have hkd : compare k d.1 = .eq := (h d.1).1 ⟨i, hi, hle⟩
      rw [hfind, m.find?_congr hkd, m.find?_eq_some_of_mem hd]
    · have hunbound : m.find? k = none := by
        by_contra hbound
        obtain ⟨v, hv⟩ := Option.ne_none_iff_exists'.1 hbound
        obtain ⟨d, hd, hkd, rfl⟩ := OrdMap.exists_mem_of_find? hv
        obtain ⟨i, hi, hli⟩ := (h d.1).2 hkd
        exact hnone (i, d.2) (List.mem_filterMap.2 ⟨d, hd, congrArg (Option.map _) hi⟩) hli
      rw [hfind, hunbound]

omit [BEq ν] [AbstractLattice ν] in
theorem forall_entries_renameKeys {f : Pointwise κ ν} {p : ν → Prop}
    (h : ∀ e ∈ f.entries, p e.2) (rename : κ → Option κ) :
    ∀ e ∈ (f.renameKeys rename).entries, p e.2 := by
  cases f with
  | top | bottom => exact h
  | table m =>
    refine OrdMap.forall_entries_iff.2 fun l u hu => ?_
    change (OrdMap.ofList _).find? l = some u at hu
    obtain ⟨e, he, -, hfind⟩ | ⟨-, hfind⟩ := OrdMap.find?_ofList_cases l
      (m.entries.filterMap fun e => (rename e.1).map (·, e.2))
    · obtain ⟨d, hd, he⟩ := List.mem_filterMap.1 he
      obtain ⟨k, -, rfl⟩ := Option.map_eq_some_iff.1 he
      cases hfind.symm.trans hu
      exact h d hd
    · cases hfind.symm.trans hu

omit [BEq ν] [AbstractLattice ν] in
/-- A renaming that tells keys apart can be undone, and nothing is lost in between. -/
theorem renameKeys_undone (f : Pointwise κ ν) {rename : κ → κ} {back : κ → Option κ}
    (hdiffer : ∀ j k, compare (rename j) (rename k) = .eq → compare j k = .eq)
    (hundo : ∀ k, back (rename k) = some k) :
    (f.renameKeys fun k => some (rename k)).renameKeys back = f := by
  cases f with
  | top => rfl
  | bottom => rfl
  | table m =>
    show table (.ofList ((OrdMap.ofList (m.entries.filterMap fun e =>
      some (rename e.1, e.2))).entries.filterMap _)) = table m
    rw [List.filterMap_eq_map', m.ofList_rename_undone hdiffer hundo]

end Pointwise

/-! ## Environments -/

namespace ValueEnv

variable {δ : Type} [BEq δ] [ValueDomain δ] {x : Identifier}

theorem isBottom_pushScope (env : ValueEnv δ) (token : ScopeToken) :
    isBottom (env.pushScope token) = isBottom env := by
  obtain ⟨f⟩ := env
  cases f <;> rfl

theorem isBottom_popScope (env : ValueEnv δ) (token : ScopeToken) :
    isBottom (env.popScope token) = isBottom env := by
  obtain ⟨f⟩ := env
  cases f <;> rfl

/-- Behind a call a hidden variable has the value that it had before. -/
theorem get_pushScope (env : ValueEnv δ) (token : ScopeToken) (x : Identifier) :
    (env.pushScope token).get (x.pushScope token) = env.get x := by
  show (env.function.renameKeys fun id => some (id.pushScope token)).get _ = env.function.get x
  refine Pointwise.get_renameKeys env.function fun j => ?_
  simp only [Std.LawfulBEqOrd.compare_eq_iff_beq, Option.some.injEq, exists_eq_left',
    Identifier.pushScope_beq]

theorem get_popScope (env : ValueEnv δ) (token : ScopeToken) (hx : x.isScoped = true) :
    (env.popScope token).get x = env.get (x.pushScope token) := by
  refine Pointwise.get_renameKeys env.function fun j => ?_
  simp only [Std.LawfulBEqOrd.compare_eq_iff_beq]
  exact Identifier.exists_popScope?_iff hx j

omit [BEq δ] [ValueDomain δ] in
/-- Entering a call and leaving it again changes nothing. -/
theorem popScope_pushScope (env : ValueEnv δ) (token : ScopeToken) :
    (env.pushScope token).popScope token = env := by
  refine congrArg ValueEnv.mk (env.function.renameKeys_undone (fun i j h => ?_) fun i => ?_)
  · rwa [Std.LawfulBEqOrd.compare_eq_iff_beq, Identifier.pushScope_beq,
      ← Std.LawfulBEqOrd.compare_eq_iff_beq] at h
  · exact i.popScope?_pushScope token

end ValueEnv

/-! ## States -/

theorem Composite.popScope_pushScope (s : Composite SummaryHeap) (token : ScopeToken) :
    (s.pushScope token).popScope token = s := by
  obtain ⟨heap, values, types, stack⟩ := s
  show Composite.mk heap ((values.pushScope token).popScope token)
    ⟨(types.pushScope token).popScope token, stack⟩ = _
  rw [ValueEnv.popScope_pushScope, ValueEnv.popScope_pushScope]

/-- Popping undoes pushing, also on the expressions of the stack. -/
theorem State.popScope_pushScope {s : State SummaryHeap} (h : s.stack ≠ .top)
    (token : ScopeToken) : (s.pushScope token).popScope token = s := by
  obtain ⟨composite, aliasing, stack⟩ := s
  cases stack with
  | top => exact absurd rfl h
  | finite es =>
    show State.mk ((composite.pushScope token).popScope token) aliasing (.finite (.ofList
      ((OrdSet.ofList (es.toList.map (SymExpr.pushScope token))).toList.filterMap _))) = _
    have hdiffer (e f : SymExpr) (hef : compare (e.pushScope token) (f.pushScope token) = .eq) :
        compare e f = .eq := by
      rw [Std.LawfulBEqOrd.compare_eq_iff_beq] at hef ⊢
      rwa [← SymExpr.pushScope_beq token]
    rw [composite.popScope_pushScope,
      es.ofList_rename_undone hdiffer (SymExpr.popScope?_pushScope token)]

end Overapprox
