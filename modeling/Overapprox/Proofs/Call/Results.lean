import Overapprox.Call.Semantics
import Overapprox.Proofs.Lattice.States
import Overapprox.Proofs.State.Target

/-!
# Results of calls

A call that returns something assigns each returned expression to its result variable in the state
in which the target returned, and evaluates the variable there. It joins these states from bottom,
so its result is least above them. A join keeps one operand where the other one is bottom and leaves
the stack of that one out; as every state has the result variable alone on its stack, so has the
join, unless it never gets past the bottom state that it starts from.

* `Call.returnsNothing_iff`: the calls that return nothing.
* `Call.exists_storesAs`: every expression can be stored in the result variable.
* `State.stack_joinOver`, `joinOver_eq_bottom`: what a join leaves on the stack.
* `Call.semantics_covers_returned`: the result of a call, whatever its target returns.
-/

namespace Overapprox

open AbstractLattice
open scoped LawfulLattice

/-! ## Stacks of joins -/

theorem joinOver_eq_bottom {α ι : Type} [BEq α] [AbstractLattice α] {f : ι → α} {is : List ι}
    (h : ∀ i ∈ is, isBottom (f i) = true) : joinOver f is = bottom :=
  List.foldlRecOn (motive := (· = bottom)) is _ rfl fun _ ha i hi =>
    (join_of_isBottom_right (h i hi)).trans ha

namespace State

/-- The state has this stack, or is bottom. -/
def LeavesOnly (stack : ExprSet) (s : State SummaryHeap) : Prop :=
  s.stack = stack ∨ isBottom s = true

variable {ι : Type} {f : ι → State SummaryHeap} {is : List ι} {stack : ExprSet}
  {a b : State SummaryHeap}

theorem LeavesOnly.join (ha : a.LeavesOnly stack) (hb : b.LeavesOnly stack) :
    (join a b).LeavesOnly stack := by
  refine join_cases (p := LeavesOnly stack) (fun _ => ha) (fun _ => hb) fun hpa hpb => .inl ?_
  have hsa : a.stack = stack := ha.resolve_right (Bool.eq_false_iff.1 hpa.2)
  have hsb : b.stack = stack := hb.resolve_right (Bool.eq_false_iff.1 hpb.2)
  show AbstractLattice.join a.stack b.stack = stack
  rw [hsa, hsb, join_self]

/-- A join of states with one stack has this stack, unless all of them are bottom. -/
theorem stack_joinOver (h : ∀ i ∈ is, (f i).stack = stack) {i : ι} (hi : i ∈ is)
    (hne : isBottom (f i) = false) : (joinOver f is).stack = stack := by
  have hleaves : (joinOver f is).LeavesOnly stack :=
    joinOver_keeps (p := LeavesOnly stack) (.inr rfl) LeavesOnly.join fun i hi => .inl (h i hi)
  refine hleaves.resolve_right fun hbottom => ?_
  rw [LawfulLattice.isBottom_of_le (le_joinOver hi) hbottom] at hne
  cases hne

end State

/-! ## Storing one expression -/

/-- Every expression can be evaluated, and is left on the stack. -/
theorem State.exists_evaluated (opts : Options) (s : State SummaryHeap) (e : SymExpr) :
    ∃ s', s.step opts e = .ok s' ∧ s'.stack = .singleton e := by
  obtain ⟨choices, hrewrite⟩ := s.composite.exists_rewrite e
  have hstep : s.composite.step opts e = _ := Composite.transfer_of_rewrite _ rfl hrewrite _
  exact ⟨_, by rw [step, hstep]; rfl, rfl⟩

theorem State.exists_assigned (opts : Options) (s : State SummaryHeap) (id : Identifier)
    (e : SymExpr) : ∃ s', s.assign opts id e = .ok s' := by
  obtain ⟨assigned, hassign⟩ := s.composite.exists_assigned opts e
  exact ⟨_, by rw [assign, hassign]; rfl⟩

namespace Call

variable {opts : Options} {c : Call} {r entry : State SummaryHeap}
  {resolve : Resolver SummaryHeap} {parameters : List ExprSet}
  {stored : SymExpr → State SummaryHeap}

/-- What becomes of a state when an expression is stored in the result variable: the variable is
assigned to and evaluated. -/
def StoresAs (opts : Options) (c : Call) (r : State SummaryHeap)
    (stored : SymExpr → State SummaryHeap) : Prop :=
  ∀ e, ∃ s, r.assign opts c.metaVariable e = .ok s ∧
    s.step opts (.ofIdentifier c.metaVariable) = .ok (stored e)

/-- Nothing can go wrong when a returned expression is stored. -/
theorem exists_storesAs (opts : Options) (c : Call) (r : State SummaryHeap) :
    ∃ stored, c.StoresAs opts r stored := by
  have hstores (e : SymExpr) : ∃ s', ∃ s, r.assign opts c.metaVariable e = .ok s ∧
      s.step opts (.ofIdentifier c.metaVariable) = .ok s' := by
    obtain ⟨s, hassign⟩ := r.exists_assigned opts c.metaVariable e
    obtain ⟨s', hstep, -⟩ := s.exists_evaluated opts (.ofIdentifier c.metaVariable)
    exact ⟨s', s, hassign, hstep⟩
  exact Classical.axiomOfChoice hstores

/-- After each expression is stored, the result variable alone is on the stack. -/
theorem StoresAs.stack_eq (h : c.StoresAs opts r stored) (e : SymExpr) :
    (stored e).stack = .singleton (.ofIdentifier c.metaVariable) := by
  obtain ⟨s, -, hstep⟩ := h e
  obtain ⟨s', hstep', hstack⟩ := s.exists_evaluated opts (.ofIdentifier c.metaVariable)
  rw [hstep'] at hstep
  cases hstep
  exact hstack

theorem StoresAs.store_eq (h : c.StoresAs opts r stored) (e : SymExpr) :
    c.store opts r e = .ok (stored e) := by
  obtain ⟨s, hassign, hstep⟩ := h e
  rw [store, hassign]
  exact hstep

/-! ## All returned expressions -/

/-- Whether a call leaves no value when its target returns some expressions. -/
def LeavesNothing (c : Call) (returned : List SymExpr) : Prop :=
  c.type = .void ∨ (c.type = .untyped ∧ returned = []) ∨ ∃ a, returned = [.skip a]

/-- The calls that leave nothing, by their type and by what is returned. -/
theorem returnsNothing_iff (es : OrdSet SymExpr) :
    c.returnsNothing (.finite es) = true ↔ c.LeavesNothing es.toList := by
  have hskip : (Powerset.finite es).only?.any SymExpr.isSkip = true ↔
      ∃ a, es.toList = [.skip a] := by
    show es.only?.any SymExpr.isSkip = true ↔ _
    unfold OrdSet.only?
    split
    next e he => cases e <;> simp [he, SymExpr.isSkip]
    next hmany => exact iff_of_false Bool.false_ne_true fun ⟨a, ha⟩ => hmany _ ha
  rw [returnsNothing, Bool.or_eq_true, Bool.or_eq_true, Bool.and_eq_true, beq_iff_eq, beq_iff_eq,
    hskip, or_assoc]
  exact or_congr_right (or_congr_left (and_congr_right' List.isEmpty_iff))

/-- The statement is evaluated in the state of the return. -/
theorem semantics_eq_step
    (hresolve : resolve c { entry with stack := .empty } parameters = .ok r)
    (hreturns : c.returnsNothing r.stack = true) :
    c.semantics opts resolve entry parameters = r.step opts (.skip ⟨.void, none, c.location⟩) := by
  rw [semantics, hresolve]
  show (if c.returnsNothing r.stack then _ else _) = _
  rw [hreturns, if_pos rfl]

/-- All expressions are stored in the state of the return, none in what was joined before. -/
theorem semantics_eq_joinOver
    (hresolve : resolve c { entry with stack := .empty } parameters = .ok r)
    (hreturns : c.returnsNothing r.stack = false) (hstored : c.StoresAs opts r stored) :
    c.semantics opts resolve entry parameters = .ok (joinOver stored r.stack.toList) := by
  have hstep : (fun (result : State SummaryHeap) e =>
      (return join result (← c.store opts r e) : Outcome (State SummaryHeap))) =
      fun result e => pure (join result (stored e)) :=
    funext₂ fun result e => by rw [hstored.store_eq]; rfl
  rw [semantics, hresolve]
  show (if c.returnsNothing r.stack then _ else List.foldlM _ bottom r.stack.toList) = _
  rw [hreturns, if_neg Bool.false_ne_true, hstep, List.foldlM_pure]
  rfl

/-- Whatever the entry state, the parameters and the resolver, as long as it never leaves the set of
everything on the stack: an error of the resolver is the result of the call. Where the target
returns and the call leaves nothing, the result is what evaluating a statement makes of the state of
the return. Otherwise it is the least state above what storing each returned expression makes of
that state, with the result variable alone on the stack, but bottom with nothing on the stack where
all of those are bottom. The stack at the entry does not matter. -/
theorem semantics_covers_returned (opts : Options) (c : Call) (resolve : Resolver SummaryHeap)
    (hproper : ∀ c s ps r, resolve c s ps = .ok r → isTop r.stack = false)
    (entry : State SummaryHeap) (parameters : List ExprSet) :
    (∀ err, resolve c { entry with stack := .empty } parameters = .error err →
      c.semantics opts resolve entry parameters = .error err) ∧
    (∀ r, resolve c { entry with stack := .empty } parameters = .ok r →
      ∃ es, r.stack = .finite es ∧
        (c.LeavesNothing es.toList → ∃ s,
          r.step opts (.skip ⟨.void, none, c.location⟩) = .ok s ∧
          c.semantics opts resolve entry parameters = .ok s) ∧
        (¬c.LeavesNothing es.toList → ∃ stored result, c.StoresAs opts r stored ∧
          c.semantics opts resolve entry parameters = .ok result ∧
          (∀ e ∈ es.toList, stored e ≤ result) ∧
          (∀ upper, (∀ e ∈ es.toList, stored e ≤ upper) → result ≤ upper) ∧
          ((∀ e ∈ es.toList, isBottom (stored e) = true) →
            isBottom result = true ∧ result.stack = .empty) ∧
          ((∃ e ∈ es.toList, isBottom (stored e) = false) →
            result.stack = .singleton (.ofIdentifier c.metaVariable)))) ∧
    ∀ stack, c.semantics opts resolve { entry with stack := stack } parameters =
      c.semantics opts resolve entry parameters := by
  refine ⟨fun err => semantics_of_error opts, fun r hresolve => ?_, fun _ => rfl⟩
  cases hstack : r.stack with
  | top =>
    have hfalse := hproper _ _ _ _ hresolve
    rw [hstack] at hfalse
    cases hfalse
  | finite es =>
    refine ⟨es, rfl, fun hnothing => ?_, fun hsome => ?_⟩
    · obtain ⟨s, hstep, -⟩ := r.exists_evaluated opts (.skip ⟨.void, none, c.location⟩)
      refine ⟨s, hstep, ?_⟩
      rw [semantics, hresolve]
      show (if c.returnsNothing r.stack then _ else _) = _
      rw [hstack, (returnsNothing_iff es).2 hnothing]
      exact hstep
    · obtain ⟨stored, hstored⟩ := exists_storesAs opts c r
      -- Something is returned, so every returned expression is stored and the results are joined.
      have hreturns : c.returnsNothing r.stack = false := by
        rw [hstack, Bool.eq_false_iff]
        exact mt (returnsNothing_iff es).1 hsome
      have hresult := semantics_eq_joinOver hresolve hreturns hstored
      rw [hstack] at hresult
      refine ⟨stored, _, hstored, hresult, fun e he => le_joinOver he,
        fun upper => joinOver_le_iff.2, fun hbottom => ?_, fun hsome => ?_⟩
      · rw [show joinOver stored (Powerset.finite es).toList = bottom from
          joinOver_eq_bottom hbottom]
        exact ⟨rfl, rfl⟩
      · obtain ⟨e, he, hne⟩ := hsome
        exact State.stack_joinOver (fun e _ => hstored.stack_eq e) he hne

/-- A statement that is returned beside a constant does not hide it. -/
theorem semantics_covers_returned_of_skip_or_one :
    ∃ result, ({ location := .synthetic, target := "f", type := .int32 } : Call).semantics {}
        (Resolver.returning [.skip { type := .void }, .const (.int 1) { type := .int32 }])
        ({ composite := .binding (intVar "x") (.singleton 1) } : State SummaryHeap) [] =
          .ok result ∧
      result.stack = .singleton (.ofIdentifier
        ({ location := .synthetic, target := "f", type := .int32 } : Call).metaVariable) := by
  obtain ⟨-, hreturns, -⟩ := semantics_covers_returned {}
    { location := .synthetic, target := "f", type := .int32 }
    (Resolver.returning [.skip { type := .void }, .const (.int 1) { type := .int32 }])
    (fun _ _ _ _ h => by cases h; rfl)
    { composite := .binding (intVar "x") (.singleton 1) } []
  obtain ⟨es, hes, -, hsome⟩ := hreturns _ rfl
  cases hes
  obtain ⟨stored, result, hstored, hresult, -, -, -, hstack⟩ := hsome fun h => by
    rcases h with h | ⟨h, -⟩ | ⟨a, h⟩
    · cases h
    · cases h
    · cases congrArg List.length h
  obtain ⟨s, hassign, hstep⟩ := hstored (.const (.int 1) { type := .int32 })
  cases hassign
  refine ⟨result, hresult, hstack ⟨.const (.int 1) { type := .int32 }, .head _, ?_⟩⟩
  rw [← Except.ok.inj hstep]
  rfl

end Call

end Overapprox
