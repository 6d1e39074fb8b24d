import Overapprox.Proofs.Env.Scope
import Overapprox.Proofs.Heap.Summary

/-!
# What an access through a pointer reaches

An allocation is resolved to the summary of its type. An access through a variable is resolved to
one summary for every reference type of the variable: that of the common supertype of what the
reference may point to. Two different units have no common supertype but `untyped`, so a reference
to several units reaches the summary of none of them.

* `TypeSet.supertype_eq_iff_of_units`: the common supertype of units.
* `Summary.mem_dereferenced_iff`, `Summary.children_of_pointerOfType`: the two steps of an access.
* `Summary.mem_children_dereferenced_iff`: both steps, one after the other.
* `Summary.contains_access_iff`: the summaries that an access reaches.
* `Summary.access_reaches_iff`: when they include that of a unit which the variable may point to.
-/

namespace Overapprox

/-! ## Common supertypes of units -/

/-- Two different units have no common supertype but the most general one. -/
theorem Ty.supertype_of_ne_units {a b : Ty} (ha : a.isInMemory = true) (hb : b.isInMemory = true)
    (hne : a ≠ b) : a.supertype b = .untyped := by
  cases a with
  | unit m => cases b with
    | unit n => simp [supertype, hne, isNumeric, bits?]
    | _ => cases hb
  | _ => cases ha

theorem Ty.foldl_supertype_untyped (ts : List Ty) : ts.foldl supertype .untyped = .untyped := by
  induction ts with
  | nil => rfl
  | cons t ts ih =>
    have hstep : supertype .untyped t = .untyped := by simp [supertype]
    rw [List.foldl_cons, hstep, ih]

/-- A unit is the common supertype of a set of units only where it is the only one. -/
theorem TypeSet.supertype_eq_iff_of_units {s : TypeSet} {t : Ty}
    (hunits : ∀ u ∈ s.toList, u.isInMemory = true) (ht : t ∈ s.toList) :
    s.supertype = t ↔ s = .singleton t := by
  obtain ⟨us, hsorted⟩ := s
  cases us with
  | nil => cases ht
  | cons u us =>
    cases us with
    | nil =>
      cases List.mem_singleton.1 ht
      exact iff_of_true rfl rfl
    | cons w us =>
      have hne : u ≠ w := by
        rintro rfl
        have hlt := (List.pairwise_cons.1 hsorted).1 u List.mem_cons_self
        rw [show compare u u = .eq from Std.ReflCmp.compare_self] at hlt
        cases hlt
      -- Two different units have no supertype but `untyped`, from which nothing leads back.
      have hsupertype : TypeSet.supertype ⟨u :: w :: us, hsorted⟩ = .untyped := by
        show us.foldl Ty.supertype (u.supertype w) = _
        rw [Ty.supertype_of_ne_units (hunits u (by simp)) (hunits w (by simp)) hne,
          Ty.foldl_supertype_untyped]
      refine iff_of_false (fun h => ?_) fun h => ?_
      · have huntyped := hunits t ht
        rw [← h, hsupertype] at huntyped
        cases huntyped
      · cases congrArg (fun s : TypeSet => s.toList) h

/-- The types that a reference type points to can be read back from it. -/
theorem Ty.inner?_referenceTo (s : TypeSet) : (Ty.referenceTo s).inner? = some s :=
  congrArg some (OrdSet.ofList_eq_of_perm (.refl _))

namespace Summary

variable {x : Identifier} {a b c n : Annotation} {loc loc' : Location} {p q : ValueExpr}
  {s inner inner' : TypeSet} {t u : Ty}

/-! ## Summaries and pointers to them -/

/-- Two summaries are one location when their types have one common supertype. -/
theorem location_beq_iff :
    (location inner loc == location inner' loc') = true ↔ inner.supertype = inner'.supertype := by
  obtain ⟨a, note, hlocation, htype⟩ := exists_location inner loc
  obtain ⟨a', note', hlocation', htype'⟩ := exists_location inner' loc'
  rw [hlocation, hlocation']
  show (true == true && inner.supertype.text == inner'.supertype.text &&
    note.type == note'.type) = true ↔ _
  rw [htype, htype', Bool.and_eq_true, beq_iff_eq]
  exact and_iff_right_of_imp fun h => by simp [h]

theorem exists_pointerOfType (t : Ty) (inner : TypeSet) (loc : Location) :
    ∃ p, pointerOfType loc (t, location inner loc) = some p := by
  obtain ⟨id, hid, -⟩ := identifier?_location inner loc
  exact ⟨_, congrArg _ hid⟩

theorem type_of_pointerOfType (h : pointerOfType loc (t, q) = some p) : p.note.type = t := by
  obtain ⟨id, -, rfl⟩ := Option.map_eq_some_iff.1 h
  rfl

/-- A variable is dereferenced to one pointer for each of its reference types. -/
theorem mem_dereferenced_iff (hx : x.isScoped = true) :
    p ∈ dereferenced loc (.ident x a) ↔ ∃ t ∈ x.runtimeTypes.toList, ∃ inner,
      t.inner? = some inner ∧ pointerOfType loc (t, location inner loc) = some p := by
  have hdereferenced : dereferenced loc (.ident x a) =
      (pointees x loc).filterMap (pointerOfType loc) := by
    cases x with
    | var | outOfScope => rfl
    | _ => cases hx
  rw [hdereferenced, pointees, List.filterMap_filterMap, List.mem_filterMap]
  refine exists_congr fun t => and_congr_right fun _ => ?_
  cases t.inner? <;> simp

/-- The children of a pointer to a summary are in the summary. -/
theorem children_of_pointerOfType (hp : pointerOfType loc (t, q) = some p)
    (hinner : t.inner? = some inner) : children loc' p = [location inner loc'] := by
  obtain ⟨id, -, rfl⟩ := Option.map_eq_some_iff.1 hp
  have hpointees (note : Annotation) (h : note.runtimeTypes = .singleton t) :
      pointees (.pointer id note) loc' = [(t, location inner loc')] := by
    rw [pointees, Identifier.runtimeTypes, Identifier.note, h]
    show [t].filterMap _ = _
    simp [hinner]
  exact congrArg (List.map Prod.snd) (hpointees _ rfl)

/-! ## Accesses -/

/-- An allocation of one type denotes the location of this type. -/
theorem rewrite_alloc_of_unit (hn : n.runtimeTypes = .singleton t)
    (ht : t.isInMemory = true) :
    rewriter.rewrite (.alloc n) = .ok (.singleton (location (.singleton t) n.location)) := by
  have hunits : (SymExpr.alloc n).runtimeTypes.toList.filter Ty.isInMemory = [t] := by
    rw [SymExpr.runtimeTypes, SymExpr.note, hn]
    exact List.filter_cons_of_pos ht
  show Except.ok (Powerset.ofList (((SymExpr.alloc n).runtimeTypes.toList.filter
    Ty.isInMemory).map fun t => location (.singleton t) n.location)) = _
  rw [hunits]
  rfl

/-- The pointers that a variable is dereferenced to are kept apart by the types they stand for, so
collecting them in a set loses none of the summaries they lead to. -/
theorem mem_children_dereferenced_iff (hx : x.isScoped = true) :
    q ∈ (Powerset.ofList (dereferenced loc (.ident x a))).toList.flatMap (children loc') ↔
      ∃ t ∈ x.runtimeTypes.toList, ∃ inner, t.inner? = some inner ∧ q = location inner loc' := by
  rw [List.mem_flatMap]
  constructor
  · rintro ⟨p, hp, hq⟩
    obtain ⟨t, ht, inner, hinner, hpointer⟩ :=
      (mem_dereferenced_iff hx).1 (Powerset.mem_of_mem_ofList hp)
    rw [children_of_pointerOfType hpointer hinner, List.mem_singleton] at hq
    exact ⟨t, ht, inner, hinner, hq⟩
  · rintro ⟨t, ht, inner, hinner, rfl⟩
    obtain ⟨p, hpointer⟩ := exists_pointerOfType t inner loc
    have hp : p ∈ dereferenced loc (.ident x a) :=
      (mem_dereferenced_iff hx).2 ⟨t, ht, inner, hinner, hpointer⟩
    -- The set keeps an equal pointer, which stands for the same type.
    obtain ⟨p', hp', hpp'⟩ := Powerset.exists_mem_ofList_of_mem hp
    obtain ⟨t', -, inner', -, hpointer'⟩ :=
      (mem_dereferenced_iff hx).1 (Powerset.mem_of_mem_ofList hp')
    have htype : t' = t := by
      have hsame := ValueExpr.type_eq_of_beq hpp'
      rw [type_of_pointerOfType hpointer, type_of_pointerOfType hpointer'] at hsame
      exact hsame.symm
    subst htype
    refine ⟨p', hp', ?_⟩
    rw [children_of_pointerOfType hpointer' hinner]
    exact List.mem_singleton_self _

/-- An access reaches the location of some types when a reference type of the pointer leads to types
with the same common supertype. -/
theorem contains_access_iff (hx : x.isScoped = true) (child : SymExpr) :
    ∃ choices, rewriter.rewrite (.child (.deref (.ident x a) b) child c) = .ok choices ∧
      ∀ inner loc, choices.contains (location inner loc) = true ↔
        ∃ t ∈ x.runtimeTypes.toList, ∃ i, t.inner? = some i ∧ i.supertype = inner.supertype := by
  obtain ⟨es, hes⟩ := exists_rewrite child
  let pointers := dereferenced b.location (.ident x a)
  let summaries := (Powerset.ofList pointers).toList.flatMap (children c.location)
  have hrewrite : rewriter.rewrite (.child (.deref (.ident x a) b) child c) =
      .ok (.ofList summaries) := by
    rw [Rewriter.rewrite, hes]
    show Except.ok (Powerset.ofList ((Powerset.ofList (pointers ++ [])).toList.flatMap _)) = _
    rw [List.append_nil]
    rfl
  refine ⟨_, hrewrite, fun inner loc => ?_⟩
  have hcontains : (Powerset.ofList summaries).contains (location inner loc) = true ↔
      ∃ q ∈ summaries, (location inner loc == q) = true := by
    show (OrdSet.ofList summaries).contains (location inner loc) = true ↔ _
    simp only [OrdSet.contains_ofList, List.any_eq_true, beq_iff_eq,
      Std.LawfulBEqOrd.compare_eq_iff_beq]
  rw [hcontains]
  constructor
  · rintro ⟨q, hq, hsame⟩
    obtain ⟨t, ht, i, hi, rfl⟩ := (mem_children_dereferenced_iff hx).1 hq
    exact ⟨t, ht, i, hi, (location_beq_iff.1 hsame).symm⟩
  · rintro ⟨t, ht, i, hi, hsupertype⟩
    exact ⟨_, (mem_children_dereferenced_iff hx).2 ⟨t, ht, i, hi, rfl⟩,
      location_beq_iff.2 hsupertype.symm⟩

/-- Where a variable may point to one of some units, an access through it reaches the summary of a
unit among them when there is no other one, or when another reference type of the variable leads to
that summary. -/
theorem access_reaches_iff (hx : x.isScoped = true)
    (hunits : ∀ u ∈ s.toList, u.isInMemory = true) (ht : t ∈ s.toList)
    (hs : .referenceTo s ∈ x.runtimeTypes.toList) (hn : n.runtimeTypes = .singleton t)
    (child : SymExpr) :
    ∃ choices summary, rewriter.rewrite (.child (.deref (.ident x a) b) child c) = .ok choices ∧
      rewriter.rewrite (.alloc n) = .ok (.singleton summary) ∧
      (choices.contains summary = true ↔ s = .singleton t ∨
        ∃ r ∈ x.runtimeTypes.toList, r ≠ .referenceTo s ∧
          ∃ inner, r.inner? = some inner ∧ inner.supertype = t) := by
  obtain ⟨choices, hchoices, hcontains⟩ := contains_access_iff (a := a) (b := b) (c := c) hx child
  refine ⟨choices, _, hchoices, rewrite_alloc_of_unit hn (hunits t ht),
    (hcontains _ _).trans ?_⟩
  rw [show TypeSet.supertype (.singleton t) = t from rfl]
  constructor
  · rintro ⟨r, hr, inner, hinner, hsupertype⟩
    -- The reference type that was asked about reaches the summary only as a single unit.
    by_cases hrs : r = .referenceTo s
    · rw [hrs, Ty.inner?_referenceTo, Option.some.injEq] at hinner
      subst hinner
      exact .inl ((TypeSet.supertype_eq_iff_of_units hunits ht).1 hsupertype)
    · exact .inr ⟨r, hr, hrs, inner, hinner, hsupertype⟩
  · rintro (hsingle | ⟨r, hr, -, hinner⟩)
    · exact ⟨_, hs, s, Ty.inner?_referenceTo s,
        (TypeSet.supertype_eq_iff_of_units hunits ht).2 hsingle⟩
    · exact ⟨r, hr, hinner⟩

/-- A reference to the one unit `A` leads to its summary. -/
theorem access_reaches_single_unit :
    ∃ choices summary,
      rewriter.rewrite (.child (.deref (.ident (.var "x" ⟨.reference [.unit "A"], none, .synthetic⟩)
        ⟨.reference [.unit "A"], none, .synthetic⟩) ⟨.unit "A", none, .synthetic⟩)
        (.skip ⟨.void, none, .synthetic⟩) ⟨.int32, none, .synthetic⟩) = .ok choices ∧
      rewriter.rewrite (.alloc ⟨.unit "A", none, .synthetic⟩) = .ok (.singleton summary) ∧
      choices.contains summary = true := by
  obtain ⟨choices, summary, hchoices, hsummary, hiff⟩ :=
    access_reaches_iff (s := .singleton (.unit "A")) (t := .unit "A")
      (x := .var "x" ⟨.reference [.unit "A"], none, .synthetic⟩)
      (n := ⟨.unit "A", none, .synthetic⟩) rfl (by decide) (by decide) (by decide) rfl
      (.skip ⟨.void, none, .synthetic⟩)
  exact ⟨choices, summary, hchoices, hsummary, hiff.2 (.inl rfl)⟩

/-- A reference to the units `A` and `B` does not lead to the summary of `A`. -/
theorem access_misses_one_of_two_units :
    ∃ choices summary,
      rewriter.rewrite (.child (.deref
        (.ident (.var "x" ⟨.reference [.unit "A", .unit "B"], none, .synthetic⟩)
          ⟨.reference [.unit "A", .unit "B"], none, .synthetic⟩) ⟨.unit "A", none, .synthetic⟩)
        (.skip ⟨.void, none, .synthetic⟩) ⟨.int32, none, .synthetic⟩) = .ok choices ∧
      rewriter.rewrite (.alloc ⟨.unit "A", none, .synthetic⟩) = .ok (.singleton summary) ∧
      choices.contains summary = false :=
  ⟨_, _, rfl, rfl, by decide⟩

end Summary

end Overapprox
