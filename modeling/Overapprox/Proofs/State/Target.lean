import Mathlib.Data.Set.List
import Overapprox.Proofs.Heap.Summary
import Overapprox.Proofs.State.Assignment
import Overapprox.State.Analysis

/-!
# Assignments through expressions

An assignment through an expression assigns to every location that the target denotes. What a
constant, an unknown value, a statement or an operator denotes is never a location, and what a heap
expression denotes always is one, whatever the operands are. So only the outermost node of the
target decides whether the assignment has a result, unless the target denotes nothing at all.

* `Summary.identifier?_of_isComputed`, `Summary.exists_identifier?_of_mem_rewrite`: what denotes a
  location.
* `State.assignExpr_of_identifiers`: the state after the assignment to some locations.
* `State.assignExpr_covers_locations`: when there is such a state, and that it is the least above
  the single assignments.
-/

namespace Overapprox

open AbstractLattice
open scoped LawfulLattice

/-- Whether the outermost node is a constant, an unknown value, a statement or an operator. -/
def SymExpr.isComputed : SymExpr → Bool
  | const .. | any _ | skip _ | unary .. | binary .. | ternary .. => true
  | ident .. | child .. | alloc _ | ref .. | deref .. => false

theorem ValueExpr.identifier?_withRuntimeTypes (e : ValueExpr) (ts : TypeSet) :
    (e.withRuntimeTypes ts).identifier? = e.identifier?.map (·.withRuntimeTypes ts) := by
  cases e <;> rfl

/-! ## What denotes a location -/

namespace Summary

variable {e : SymExpr} {choices : Choices} {c : ValueExpr}

/-- The node is made anew for every choice of operands, so it is never an identifier. -/
theorem identifier?_of_isComputed (he : e.isComputed = true)
    (h : rewriter.rewrite e = .ok choices) (hc : c ∈ choices.toList) : c.identifier? = none := by
  cases rewritesTo_of_mem h hc with
  | const | any | skip | unary | binary | ternary => rfl
  | ident | child | alloc | ref | deref => cases he

/-- Every child of a container is an identifier. -/
theorem exists_identifier?_of_mem_children {loc : Location} {container : ValueExpr}
    (h : c ∈ children loc container) : ∃ id, c.identifier? = some id := by
  unfold children at h
  split at h
  · obtain ⟨⟨t, d⟩, hd, rfl⟩ := List.mem_map.1 h
    obtain ⟨_, -, hd⟩ := List.mem_filterMap.1 hd
    obtain ⟨inner, -, heq⟩ := Option.map_eq_some_iff.1 hd
    cases heq
    obtain ⟨id, hid, -⟩ := identifier?_location inner loc
    exact ⟨id, hid⟩
  case h_2 hid =>
    obtain rfl := List.mem_singleton.1 h
    exact ⟨_, hid⟩
  · cases h

theorem exists_identifier?_of_mem_dereferenced {loc : Location} {operand : ValueExpr}
    (h : c ∈ dereferenced loc operand) : ∃ id, c.identifier? = some id := by
  unfold dereferenced at h
  split at h
  case h_1 hid =>
    obtain rfl := List.mem_singleton.1 h
    exact ⟨_, hid⟩
  · cases h
  · obtain ⟨p, -, hp⟩ := List.mem_filterMap.1 h
    obtain ⟨id, -, rfl⟩ := Option.map_eq_some_iff.1 hp
    exact ⟨_, ValueExpr.identifier?_withRuntimeTypes _ _⟩
  · cases h

/-- Heap expressions are resolved to summaries, to pointers to them, and to operands that are
locations already. -/
theorem exists_identifier?_of_mem_rewrite (he : e.isComputed = false)
    (h : rewriter.rewrite e = .ok choices) (hc : c ∈ choices.toList) :
    ∃ id, c.identifier? = some id := by
  cases rewritesTo_of_mem h hc with
  | const | any | skip | unary | binary | ternary => cases he
  | ident id => exact ⟨id, rfl⟩
  | child _ _ _ hc => exact exists_identifier?_of_mem_children hc
  | alloc =>
    obtain ⟨id, hid, -⟩ := identifier?_location _ _
    exact ⟨id, hid⟩
  | ref =>
    rw [pointerTo, ValueExpr.identifier?_withRuntimeTypes]
    exact ⟨_, rfl⟩
  | deref _ _ hc => exact exists_identifier?_of_mem_dereferenced hc

end Summary

/-- Where a target is not computed, or denotes nothing, all that it denotes are locations. -/
theorem Summary.exists_identifiers_of_rewrite {e : SymExpr} {choices : Choices}
    (h : rewriter.rewrite e = .ok choices)
    (he : ¬(e.isComputed = true ∧ choices.isEmpty = false)) :
    ∃ ids : List Identifier, choices.toList.map ValueExpr.identifier? = ids.map some := by
  have hlocations : ∀ c ∈ choices.toList, ∃ id, c.identifier? = some id := by
    cases hcomputed : e.isComputed with
    | false => exact fun c hc => exists_identifier?_of_mem_rewrite hcomputed h hc
    | true =>
      have hempty : choices.toList.isEmpty = true := by
        rw [← Bool.not_eq_false]
        exact fun hne => he ⟨hcomputed, hne⟩
      rw [List.isEmpty_iff.1 hempty]
      exact nofun
  obtain ⟨ids, hids⟩ : choices.toList.map ValueExpr.identifier? ∈ Set.range (List.map some) := by
    rw [Set.range_list_map]
    intro x hx
    obtain ⟨c, hc, rfl⟩ := List.mem_map.1 hx
    obtain ⟨id, hid⟩ := hlocations c hc
    exact ⟨id, hid.symm⟩
  exact ⟨ids, hids.symm⟩

/-! ## Assignments to some locations -/

/-- An expression can be assigned to every identifier. -/
theorem Composite.exists_assigned (opts : Options) (s : Composite SummaryHeap) (e : SymExpr) :
    ∃ assigned : Identifier → Composite SummaryHeap,
      ∀ id, s.assign opts id e = .ok (assigned id) := by
  obtain ⟨choices, hrewrite⟩ := s.exists_rewrite e
  exact ⟨_, fun _ => assign_eq hrewrite⟩

namespace State

variable {opts : Options} {s : State SummaryHeap} {target e : SymExpr}
  {assigned : Identifier → Composite SummaryHeap} {locations : List ValueExpr}
  {ids : List Identifier}

/-- By induction on the locations; all of them start from the state before. -/
theorem foldlM_assignLocation (hassign : ∀ id, s.composite.assign opts id e = .ok (assigned id))
    (hids : locations.map ValueExpr.identifier? = ids.map some)
    (sofar : Composite SummaryHeap × ExprSet) :
    locations.foldlM (s.assignLocation opts target e) sofar =
      .ok (ids.foldl (fun c id => join c (assigned id)) sofar.1,
        ids.foldl (fun stack id => stack.add (.ofIdentifier id)) sofar.2) := by
  induction ids generalizing locations sofar with
  | nil =>
    obtain rfl := List.map_eq_nil_iff.1 hids
    rfl
  | cons id ids ih =>
    obtain ⟨location, rest, rfl, hid, hrest⟩ := List.map_eq_cons_iff.1 hids
    have hlocation : s.assignLocation opts target e sofar location =
        .ok (join sofar.1 (assigned id), sofar.2.add (.ofIdentifier id)) := by
      rw [assignLocation, hid]
      dsimp only
      rw [hassign]
      rfl
    rw [List.foldlM_cons, hlocation]
    exact ih hrest _

theorem foldl_add_ofIdentifier (ids : List Identifier) (stack : OrdSet SymExpr) :
    ids.foldl (fun stack id => stack.add (.ofIdentifier id)) (Powerset.finite stack) =
      .finite (stack.insertAll (ids.map .ofIdentifier)) := by
  induction ids generalizing stack with
  | nil => rfl
  | cons id ids ih => exact ih (stack.insert (.ofIdentifier id))

variable {choices : Choices}

/-- An assignment to a target that denotes locations joins the assignments to all of them. -/
theorem assignExpr_of_identifiers (h : target.identifier? = none)
    (hrewrite : s.composite.rewrite target = .ok choices)
    (hassign : ∀ id, s.composite.assign opts id e = .ok (assigned id))
    (hids : choices.toList.map ValueExpr.identifier? = ids.map some) :
    s.assignExpr opts target e = .ok
      { s with composite := joinOver assigned ids, stack := .ofList (ids.map .ofIdentifier) } := by
  rw [assignExpr, h]
  dsimp only
  rw [hrewrite]
  show (choices.toList.foldlM (s.assignLocation opts target e) (bottom, .empty) >>= _) = _
  rw [foldlM_assignLocation hassign hids]
  exact congrArg (fun stack => Except.ok { s with composite := joinOver assigned ids, stack })
    (foldl_add_ofIdentifier ids .empty)

theorem assignExpr_of_not_identifier (h : target.identifier? = none)
    (hrewrite : s.composite.rewrite target = .ok choices) {c : ValueExpr}
    {rest : List ValueExpr} (hchoices : choices.toList = c :: rest)
    (hc : c.identifier? = none) :
    s.assignExpr opts target e = .error (.notAnIdentifier target c) := by
  rw [assignExpr, h]
  dsimp only
  rw [hrewrite]
  show (choices.toList.foldlM (s.assignLocation opts target e) (bottom, .empty) >>= _) = _
  rw [hchoices, List.foldlM_cons, assignLocation, hc]
  rfl

/-- An assignment through an expression that is no identifier has no result exactly where the target
is computed and denotes something. Otherwise all that the target denotes are identifiers: these are
left on the stack, and the state is the least above the assignments to each of them. -/
theorem assignExpr_covers_locations (opts : Options) (s : State SummaryHeap) (target : SymExpr)
    (h : target.identifier? = none) (e : SymExpr) :
    ∃ choices, s.composite.rewrite target = .ok choices ∧
      ((∃ err, s.assignExpr opts target e = .error err) ↔
        target.isComputed = true ∧ choices.isEmpty = false) ∧
      (∀ err, s.assignExpr opts target e = .error err →
        ∃ c ∈ choices.toList, err = .notAnIdentifier target c) ∧
      (¬(target.isComputed = true ∧ choices.isEmpty = false) → ∃ s' ids,
        s.assignExpr opts target e = .ok s' ∧
        choices.toList.map ValueExpr.identifier? = ids.map some ∧
        s'.stack = .ofList (ids.map .ofIdentifier) ∧
        (∀ id ∈ ids, ∃ c, s.composite.assign opts id e = .ok c ∧ c ≤ s'.composite) ∧
        (∀ upper, (∀ id ∈ ids, ∀ c, s.composite.assign opts id e = .ok c → c ≤ upper) →
          s'.composite ≤ upper) ∧
        (ids = [] → s'.composite = bottom) ∧ s'.aliasing = s.aliasing) := by
  obtain ⟨choices, hrewrite⟩ : ∃ choices, s.composite.rewrite target = .ok choices :=
    Summary.exists_rewrite target
  obtain ⟨assigned, hassign⟩ := s.composite.exists_assigned opts e
  refine ⟨choices, hrewrite, ?_⟩
  by_cases hfails : target.isComputed = true ∧ choices.isEmpty = false
  · obtain ⟨c, rest, hchoices⟩ : ∃ c rest, choices.toList = c :: rest :=
      List.ne_nil_iff_exists_cons.1 (List.isEmpty_eq_false_iff.1 hfails.2)
    have hmem : c ∈ choices.toList := hchoices ▸ List.mem_cons_self
    -- A computed target denotes no identifier at all, so the first choice is already refused.
    have hnone := Summary.identifier?_of_isComputed hfails.1 hrewrite hmem
    have herror : s.assignExpr opts target e = _ :=
      assignExpr_of_not_identifier h hrewrite hchoices hnone
    refine ⟨iff_of_true ⟨_, herror⟩ hfails, fun err herr => ⟨c, hmem, ?_⟩, absurd hfails⟩
    rw [herror] at herr
    cases herr
    rfl
  · obtain ⟨ids, hids⟩ := Summary.exists_identifiers_of_rewrite hrewrite hfails
    have hok : s.assignExpr opts target e = _ := assignExpr_of_identifiers h hrewrite hassign hids
    refine ⟨iff_of_false ?_ hfails, fun err herr => ?_, fun _ => ⟨_, ids, hok, hids, rfl, ?_⟩⟩
    · rintro ⟨err, herr⟩
      rw [hok] at herr
      cases herr
    · rw [hok] at herr
      cases herr
    · refine ⟨fun id hid => ⟨_, hassign id, le_joinOver hid⟩, fun upper hupper => ?_, ?_, rfl⟩
      · exact joinOver_le_iff.2 fun id hid => hupper id hid _ (hassign id)
      · rintro rfl
        rfl

/-- An allocation of a unit denotes its summary, and a constant denotes no location. -/
theorem assignExpr_covers_locations_of_allocation :
    (∃ s' id, ({ composite := .binding (intVar "x") (.singleton 1) } : State SummaryHeap).assignExpr
        {} (.alloc { type := .unit "A" }) (.const (.int 1) { type := .int32 }) = .ok s' ∧
      s'.stack = .singleton (.ofIdentifier id)) ∧
    ∃ err, ({ composite := .binding (intVar "x") (.singleton 1) } : State SummaryHeap).assignExpr
      {} (.const (.int 0) { type := .int32 }) (.const (.int 1) { type := .int32 }) =
        .error err := by
  constructor
  · obtain ⟨choices, hrewrite, -, -, hok⟩ := assignExpr_covers_locations {}
      { composite := .binding (intVar "x") (.singleton 1) }
      (.alloc { type := .unit "A" }) rfl (.const (.int 1) { type := .int32 })
    obtain ⟨s', ids, hassign, hids, hstack, -⟩ := hok fun h => Bool.false_ne_true h.1
    cases hrewrite
    match ids, hids with
    | [id], _ => exact ⟨s', id, hassign, hstack⟩
  · obtain ⟨choices, hrewrite, hfails, -⟩ := assignExpr_covers_locations {}
      { composite := .binding (intVar "x") (.singleton 1) }
      (.const (.int 0) { type := .int32 }) rfl (.const (.int 1) { type := .int32 })
    cases hrewrite
    exact hfails.2 ⟨rfl, rfl⟩

end State

end Overapprox
