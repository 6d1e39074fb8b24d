import Overapprox.Proofs.Call.Recordings
import Overapprox.Proofs.Call.ResultVariable

/-!
# Resolvers without code

Some targets are known without any code: one that returns at once, one that hands back its
parameters, and the members of a list, each with what it returns. Nothing happens between the entry
and the return of such a target, so whatever it returns, a call of it changes nothing but its result
variable. Members are found by name or through recorded aliases, so more recordings only add to what
a call returns.

* `Resolver.OnlyReturns`: the state of the return is that of the entry, but for the stack.
* `Resolver.stack_parameters_le_iff`: the returned set is the least above all parameters.
* `Resolver.exists_members_iff`, `Resolver.contains_members_iff`: the calls that some member
  answers, and what they return.
* `Resolver.members_mono`: more recordings return more.
* `Call.knows_semantics_of_onlyReturns`: what a call leaves alone.
* `Call.semantics_of_returns_empty`: a target that returns no expression.
-/

namespace Overapprox

open AbstractLattice
open scoped LawfulLattice

namespace Resolver

/-! ## Nothing but a return -/

section

variable {η : Type}

/-- The state of the return is that of the entry, with something else on the stack. -/
def OnlyReturns (resolve : Resolver η) : Prop :=
  ∀ {c s ps r}, resolve c s ps = .ok r → ∃ stack, r = { s with stack := stack }

theorem onlyReturns_entry : OnlyReturns (entry (η := η)) := fun h => by
  cases h
  exact ⟨_, rfl⟩

theorem onlyReturns_returning (es : List SymExpr) : OnlyReturns (returning (η := η) es) :=
  fun h => by
    cases h
    exact ⟨_, rfl⟩

theorem onlyReturns_parameters : OnlyReturns (parameters (η := η)) := fun h => by
  cases h
  exact ⟨_, rfl⟩

theorem onlyReturns_failing (reason : String) : OnlyReturns (failing (η := η) reason) := nofun

theorem onlyReturns_refusing (message : String) : OnlyReturns (refusing (η := η) message) := nofun

end

/-! ## Parameters -/

section

variable {η : Type} {c : Call} {s r : State η} {ps : List ExprSet}

/-- Handing back the parameters returns the least set that contains all of them. -/
theorem stack_parameters_le_iff (h : parameters c s ps = .ok r) {t : ExprSet} :
    r.stack ≤ t ↔ ∀ p ∈ ps, p ≤ t := by
  cases h
  exact joinOver_le_iff (f := id)

/-- What is returned is only everything when a parameter is. -/
theorem isTop_stack_parameters_iff (h : parameters c s ps = .ok r) :
    isTop r.stack = true ↔ ∃ p ∈ ps, isTop p = true := by
  cases h
  have hproper : ¬isTop (joinOver id ps) = true ↔ ∀ p ∈ ps, ¬isTop p = true :=
    joinOver_iff (p := fun t : ExprSet => ¬isTop t = true) Bool.false_ne_true fun {a b} => by
      rw [Powerset.isTop_join_iff, not_or]
  exact not_iff_not.1 (hproper.trans (by simp only [not_exists, not_and]))

end

/-! ## Members -/

section

variable {η : Type} {c : Call} {s r : State η} {ps : List ExprSet} {ms : List Member} {e : SymExpr}

/-- Whether a call matches a member. -/
def Member.isMatchedBy (m : Member) (c : Call) (aliasing : SymbolAliasing) : Bool :=
  c.matchesMember m.qualifier m.name aliasing

/-- Either some member matches, and what the matching ones return is returned, or there is no
result. -/
theorem members_cases (ms : List Member) (c : Call) (s : State η) (ps : List ExprSet) :
    ((∃ m ∈ ms, m.isMatchedBy c s.aliasing = true) ∧ members ms c s ps = .ok { s with
      stack := .ofList ((ms.filter (·.isMatchedBy c s.aliasing)).flatMap (·.returns)) }) ∨
    (∀ m ∈ ms, m.isMatchedBy c s.aliasing = false) ∧
      members ms c s ps = failing "no matching member" c s ps := by
  unfold members
  split
  case h_1 hnil =>
    refine .inr ⟨fun m hm => ?_, rfl⟩
    exact Bool.eq_false_iff.2 (List.filter_eq_nil_iff.1 hnil m hm)
  case h_2 hne =>
    obtain ⟨m, hm⟩ := List.exists_mem_of_ne_nil _ hne
    exact .inl ⟨⟨m, List.mem_filter.1 hm⟩, rfl⟩

/-- The calls that some member answers. -/
theorem exists_members_iff :
    (∃ r, members ms c s ps = .ok r) ↔ ∃ m ∈ ms, m.isMatchedBy c s.aliasing = true := by
  obtain ⟨hsome, heq⟩ | ⟨hnone, heq⟩ := members_cases ms c s ps
  · exact iff_of_true ⟨_, heq⟩ hsome
  · refine iff_of_false ?_ fun ⟨m, hm, hmatch⟩ => ?_
    · rintro ⟨r, hr⟩
      rw [heq] at hr
      cases hr
    · rw [hnone m hm] at hmatch
      cases hmatch

/-- The state of the return, where there is one. -/
theorem eq_of_members (h : members ms c s ps = .ok r) : r = { s with
    stack := .ofList ((ms.filter (·.isMatchedBy c s.aliasing)).flatMap (·.returns)) } := by
  obtain ⟨-, heq⟩ | ⟨-, heq⟩ := members_cases ms c s ps
  · rw [heq] at h
    cases h
    rfl
  · rw [heq] at h
    cases h

theorem isTop_stack_members (h : members ms c s ps = .ok r) : isTop r.stack = false := by
  rw [eq_of_members h]
  rfl

theorem onlyReturns_members (ms : List Member) : OnlyReturns (members (η := η) ms) :=
  fun h => ⟨_, eq_of_members h⟩

/-- What is returned is what some matching member returns, up to annotations. -/
theorem contains_members_iff (h : members ms c s ps = .ok r) :
    r.stack.contains e = true ↔ ∃ m ∈ ms, m.isMatchedBy c s.aliasing = true ∧
      ∃ e' ∈ m.returns, compare e e' = .eq := by
  rw [eq_of_members h]
  show (OrdSet.ofList _).contains e = true ↔ _
  simp only [OrdSet.contains_ofList, List.any_eq_true, List.mem_flatMap, List.mem_filter,
    beq_iff_eq]
  constructor
  · rintro ⟨e', ⟨m, ⟨hm, hmatch⟩, he'⟩, heq⟩
    exact ⟨m, hm, hmatch, e', he', heq⟩
  · rintro ⟨m, hm, hmatch, e', he', heq⟩
    exact ⟨e', ⟨m, ⟨hm, hmatch⟩, he'⟩, heq⟩

/-- A call that is answered after some recordings is answered after more of them, and may return
more then. -/
theorem members_mono {rs rs' : List (Symbol × Symbol)} (hsub : rs ⊆ rs')
    (h : members ms c { s with aliasing := .ofRecords rs } ps = .ok r) :
    ∃ r', members ms c { s with aliasing := .ofRecords rs' } ps = .ok r' ∧ r.stack ≤ r'.stack := by
  have hmatch {m : Member} (hm : m.isMatchedBy c (.ofRecords rs) = true) :
      m.isMatchedBy c (.ofRecords rs') = true :=
    Call.matchesMember_ofRecords_mono hsub hm
  obtain ⟨m, hmem, hm⟩ := exists_members_iff.1 ⟨r, h⟩
  obtain ⟨r', h'⟩ : ∃ r', members ms c { s with aliasing := .ofRecords rs' } ps = .ok r' :=
    exists_members_iff.2 ⟨m, hmem, hmatch hm⟩
  refine ⟨r', h', ?_⟩
  obtain rfl := eq_of_members h
  obtain rfl := eq_of_members h'
  refine Powerset.le_iff_included.2 (.finite (OrdSet.subset_iff.2 fun e he => ?_))
  obtain ⟨m, hm, hmatched, hreturned⟩ := (contains_members_iff h).1 he
  exact (contains_members_iff h').2 ⟨m, hm, hmatch hmatched, hreturned⟩

end

end Resolver

/-! ## Calls -/

namespace Call

variable {opts : Options} {c : Call} {r entry s : State SummaryHeap} {y : Identifier}
  {resolve : Resolver SummaryHeap} {parameters : List ExprSet} {v : Interval} {ts : InferredTypes}

/-- Where the target does nothing but return, a call keeps what is known about every identifier
except its result variable. -/
theorem knows_semantics_of_onlyReturns (hresolve : resolve.OnlyReturns)
    (hentry : entry.composite.Knows y v ts) (hy : compare y c.metaVariable ≠ .eq)
    (hcall : c.semantics opts resolve entry parameters = .ok s) : s.composite.Knows y v ts := by
  cases hr : resolve c { entry with stack := .empty } parameters with
  | error err =>
    rw [semantics_of_error opts hr] at hcall
    cases hcall
  | ok r =>
    obtain ⟨stack, rfl⟩ := hresolve hr
    obtain ⟨s', hs', hknows⟩ := exists_semantics_of_ne hr hentry hy
    rw [hcall] at hs'
    cases hs'
    exact hknows

/-- A target that returns no expression leaves a statement where no value is expected, and nothing
where one is. -/
theorem semantics_of_returns_empty
    (hresolve : resolve c { entry with stack := .empty } parameters = .ok r)
    (hempty : r.stack = .empty) : c.semantics opts resolve entry parameters =
      if c.type = .void ∨ c.type = .untyped then r.step opts (.skip ⟨.void, none, c.location⟩)
      else .ok bottom := by
  have hnothing : c.returnsNothing r.stack = true ↔ c.type = .void ∨ c.type = .untyped := by
    rw [hempty]
    refine (returnsNothing_iff .empty).trans (or_congr_right ?_)
    refine ⟨fun h => ?_, fun h => .inl ⟨h, rfl⟩⟩
    obtain ⟨h, -⟩ | ⟨a, ha⟩ := h
    · exact h
    · cases ha
  split
  case isTrue htype => exact semantics_eq_step hresolve (hnothing.2 htype)
  case isFalse htype =>
    obtain ⟨stored, hstored⟩ := exists_storesAs opts c r
    rw [semantics_eq_joinOver hresolve (Bool.eq_false_iff.2 (mt hnothing.1 htype)) hstored, hempty]
    rfl

/-- A target that returns at once leaves no state behind a call that expects a value. -/
theorem semantics_entry (opts : Options) (c : Call) (entry : State SummaryHeap)
    (parameters : List ExprSet) : c.semantics opts .entry entry parameters =
      if c.type = .void ∨ c.type = .untyped then
        State.step opts { entry with stack := .empty } (.skip ⟨.void, none, c.location⟩)
      else .ok bottom :=
  semantics_of_returns_empty rfl rfl

/-- The error carries the call that is not resolved, and the reason. -/
theorem semantics_failing (reason : String) : c.semantics opts (.failing reason) entry parameters =
    .error (.unresolvedCall c reason) :=
  semantics_of_error opts rfl

theorem semantics_refusing (message : String) :
    c.semantics opts (.refusing message) entry parameters = .error (.domain message) :=
  semantics_of_error opts rfl

end Call

end Overapprox
