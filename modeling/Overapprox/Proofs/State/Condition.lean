import Overapprox.Proofs.Concrete.Expression
import Overapprox.Proofs.Env.Condition
import Overapprox.Proofs.Heap.Summary
import Overapprox.Proofs.State.Transfer

/-!
# Verdicts and refinements of composite states

A composite state judges a condition by all that the condition may denote, and where the condition
holds it joins what is left for each of these. What the values and the types leave of a state for a
single one is decided by their verdicts on it, so the two agree also for all of them together.

* `Composite.satisfies_eq`, `Composite.assume_eq`: the verdict and the refined state.
* `Composite.verdict_decides_assume`: the verdict tells what is left of the state.
-/

namespace Overapprox

open AbstractLattice
open scoped LawfulLattice

variable {opts : Options} {es : List ValueExpr} {v : Verdict}

/-! ## Verdicts on all that a condition may denote -/

namespace Verdict

theorem isBottom_iff {v : Verdict} : isBottom v = true ↔ v = bottom := beq_iff_eq

theorem eq_or_eq_bottom_of_le {v w : Verdict} (h : v ≤ w) (hw : w ≠ unknown) :
    v = w ∨ v = bottom := by
  revert h hw
  rw [le_def]
  cases v <;> cases w <;> decide

/-- A heap that leaves a condition open, and types that do at most not allow it, leave the verdict
to the values. -/
theorem both_cases {v : Verdict} (hv : v = unknown ∨ v = bottom) (w : Verdict) :
    (unknown.both v).both w = if v = bottom then bottom else w := by
  rcases hv with rfl | rfl <;> cases w <;> rfl

end Verdict

namespace Composite

variable {judge : ValueExpr → Verdict}

/-- The verdict over several rewritings is the join of the verdicts. -/
theorem verdictOver_eq_joinOver (judge : ValueExpr → Verdict) (es : List ValueExpr) :
    verdictOver judge es = joinOver judge es := by
  unfold verdictOver joinOver
  simp only [Verdict.either_eq_join]
  rfl

/-- A decided verdict over several rewritings is the verdict on each of them, or bottom there. -/
theorem judge_of_verdictOver (h : verdictOver judge es = v) (hv : v ≠ .unknown) :
    ∀ e ∈ es, judge e = v ∨ judge e = .bottom := by
  intro e he
  rw [verdictOver_eq_joinOver] at h
  exact Verdict.eq_or_eq_bottom_of_le (h ▸ le_joinOver he) hv

theorem verdictOver_cases (h : ∀ e ∈ es, judge e = v ∨ judge e = .bottom) :
    verdictOver judge es = v ∨ verdictOver judge es = .bottom := by
  rw [verdictOver_eq_joinOver, ← Verdict.isBottom_iff]
  exact eq_or_isBottom_joinOver fun e he => (h e he).imp_right Verdict.isBottom_iff.2

theorem exists_of_verdictOver_ne_bottom (h : verdictOver judge es ≠ .bottom) :
    ∃ e ∈ es, judge e ≠ .bottom := by
  by_contra hall
  push Not at hall
  rw [verdictOver_eq_joinOver, Ne, ← Verdict.isBottom_iff] at h
  exact h (isBottom_joinOver fun e he => Verdict.isBottom_iff.2 (hall e he))

/-- What a refinement leaves for each member of a list is left for all of them, where the verdicts
on the members are `v` or that there is no state at all. -/
theorem joinOver_eq_of_verdictOver {α : Type} [BEq α] [ReflBEq α] [AbstractLattice α]
    [LawfulLattice α] {a : α} {refine : ValueExpr → α}
    (hjudge : ∀ e ∈ es, judge e = v ∨ judge e = .bottom)
    (hover : verdictOver judge es ≠ .bottom) (hv : ∀ e, judge e = v → refine e = a)
    (hbottom : ∀ e, judge e = .bottom → isBottom (refine e) = true)
    (hne : ∀ e, judge e ≠ .bottom → isBottom a = false) : joinOver refine es = a := by
  obtain ⟨e, he, hjudged⟩ := exists_of_verdictOver_ne_bottom hover
  refine joinOver_eq_of_forall (fun e he => (hjudge e he).imp (hv e) (hbottom e)) he ?_
    (hne e hjudged)
  exact hv e ((hjudge e he).resolve_right hjudged)

end Composite

/-! ## Refinements by all that a condition may denote -/

namespace ValueEnv

variable {δ : Type} [BEq δ] [ReflBEq δ] [ValueDomain δ] [LawfulLattice δ] {env : ValueEnv δ}

/-- Where all rewritings are satisfied, the environment stays as it is. -/
theorem joinOver_assume_of_satisfied
    (h : Composite.verdictOver (env.satisfies opts) es = .satisfied) :
    joinOver (env.assume opts) es = env := by
  refine Composite.joinOver_eq_of_verdictOver (Composite.judge_of_verdictOver h nofun) (h ▸ nofun)
    (fun _ => assume_of_satisfied) (fun _ he => isBottom_assume (.inr he)) fun _ he => ?_
  exact isBottom_eq_false_of_satisfies he

omit [ReflBEq δ] in
theorem isBottom_joinOver_assume
    (h : Composite.verdictOver (env.satisfies opts) es = .notSatisfied ∨
      Composite.verdictOver (env.satisfies opts) es = .bottom) :
    isBottom (joinOver (env.assume opts) es) = true := by
  refine isBottom_joinOver fun e he => isBottom_assume ?_
  rcases h with h | h
  · exact Composite.judge_of_verdictOver h nofun e he
  · exact .inr ((Composite.judge_of_verdictOver h nofun e he).elim id id)

end ValueEnv

namespace TypeEnv

variable {t : TypeEnv}

/-- Types leave a condition open, or give it no verdict. -/
theorem verdictOver_cases (opts : Options) (t : TypeEnv) (es : List ValueExpr) :
    Composite.verdictOver (t.satisfies opts) es = .unknown ∨
      Composite.verdictOver (t.satisfies opts) es = .bottom :=
  Composite.verdictOver_cases fun e _ => satisfies_cases opts t e

theorem joinOver_assume_of_ne_bottom
    (h : Composite.verdictOver (t.satisfies opts) es ≠ .bottom) :
    joinOver (t.assume opts) es = t := by
  refine Composite.joinOver_eq_of_verdictOver (fun e _ => satisfies_cases opts t e) h
    (fun _ => assume_of_unknown) (fun _ => isBottom_assume) fun _ he => ?_
  exact t.env.isBottom_eq_false_of_satisfies he

theorem isBottom_joinOver_assume (h : Composite.verdictOver (t.satisfies opts) es = .bottom) :
    isBottom (joinOver (t.assume opts) es) = true := by
  refine isBottom_joinOver fun e he => isBottom_assume ?_
  exact (Composite.judge_of_verdictOver h nofun e he).elim id id

end TypeEnv

/-! ## Composite states -/

namespace Composite

variable {s : Composite SummaryHeap} {e : SymExpr} {choices : Choices}

/-- The conditions that the values and the types get to see. -/
def conditions (opts : Options) (s : Composite SummaryHeap) (choices : Choices) : List ValueExpr :=
  choices.toList.map (annotateInferred opts s.types)

theorem satisfies_eq (h : s.rewrite e = .ok choices) :
    s.satisfies opts e = .ok
      (if verdictOver (s.types.satisfies opts) (s.conditions opts choices) = .bottom then .bottom
      else verdictOver (s.values.satisfies opts) (s.conditions opts choices)) := by
  rw [satisfies, h]
  exact congrArg Except.ok (Verdict.both_cases (TypeEnv.verdictOver_cases opts s.types _) _)

/-- What a condition leaves is the join over its rewritings, part by part. -/
theorem assume_eq (h : s.rewrite e = .ok choices) :
    s.assume opts e = .ok
      (if choices.isEmpty then s
      else ⟨s.heap, joinOver (s.values.assume opts) (s.conditions opts choices),
        joinOver (s.types.assume opts) (s.conditions opts choices)⟩) := by
  rw [conditions, joinOver_map, joinOver_map]
  exact transfer_of_rewrite s rfl h _

/-- A condition never adds anything to a state. -/
theorem assume_le (h : s.rewrite e = .ok choices) {s' : Composite SummaryHeap}
    (hassume : s.assume opts e = .ok s') : s' ≤ s := by
  rw [assume_eq h] at hassume
  cases hassume
  split
  · exact le_rfl
  · refine orderedBy.le_iff.2 ⟨⟨le_rfl, ?_⟩, ?_⟩
    · exact joinOver_le_iff.2 fun c _ => ValueEnv.assume_le opts s.values c
    · exact joinOver_le_iff.2 fun c _ => TypeEnv.assume_le opts s.types c

/-- The verdict on a condition decides what is left of a state where the condition holds. A state
that satisfies it is left as it is. Where it is not satisfied, or has no value, there are no values
left or no types. Nothing is ever added to a state. -/
theorem verdict_decides_assume (opts : Options) (s : Composite SummaryHeap) (e : SymExpr) :
    ∃ choices verdict s', s.rewrite e = .ok choices ∧ s.satisfies opts e = .ok verdict ∧
      s.assume opts e = .ok s' ∧ s' ≤ s ∧
      (choices.isEmpty = false →
        (verdict = .satisfied → s' = s) ∧
        (verdict = .notSatisfied ∨ verdict = .bottom →
          isBottom s'.values = true ∨ isBottom s'.types = true)) := by
  obtain ⟨choices, h⟩ : ∃ choices, s.rewrite e = .ok choices := Summary.exists_rewrite e
  refine ⟨choices, _, _, h, satisfies_eq h, assume_eq h, assume_le h (assume_eq h), fun hne => ?_⟩
  rw [hne, if_neg Bool.false_ne_true]
  split
  case isTrue htypes =>
    exact ⟨nofun, fun _ => .inr (TypeEnv.isBottom_joinOver_assume htypes)⟩
  case isFalse htypes =>
    refine ⟨fun hvalues => ?_, fun hvalues => .inl (ValueEnv.isBottom_joinOver_assume hvalues)⟩
    rw [ValueEnv.joinOver_assume_of_satisfied hvalues, TypeEnv.joinOver_assume_of_ne_bottom htypes]

/-- The comparison of an integer variable with 10. -/
def comparedWithTen (op : BinaryOp) : SymExpr :=
  .binary op (.ofIdentifier (intVar "x")) (.const (.int 10) { type := .int32 }) { type := .bool }

/-- That 3 is below 10 leaves everything of a state, and that it is not leaves nothing. -/
theorem verdict_decides_assume_three :
    (binding (intVar "x") (.singleton 3)).assume {} (comparedWithTen .lt) =
        .ok (binding (intVar "x") (.singleton 3)) ∧
      ∃ s', (binding (intVar "x") (.singleton 3)).assume {} (comparedWithTen .ge) = .ok s' ∧
        (isBottom s'.values = true ∨ isBottom s'.types = true) := by
  constructor
  · obtain ⟨choices, v, s', hrewrite, hverdict, hassume, -, h⟩ :=
      verdict_decides_assume {} (binding (intVar "x") (.singleton 3)) (comparedWithTen .lt)
    have hsatisfied : (binding (intVar "x") (.singleton 3)).satisfies {} (comparedWithTen .lt) =
        .ok .satisfied := by rfl
    rw [hsatisfied] at hverdict
    cases hverdict
    cases hrewrite
    rw [hassume, (h rfl).1 rfl]
  · obtain ⟨choices, v, s', hrewrite, hverdict, hassume, -, h⟩ :=
      verdict_decides_assume {} (binding (intVar "x") (.singleton 3)) (comparedWithTen .ge)
    have hnot : (binding (intVar "x") (.singleton 3)).satisfies {} (comparedWithTen .ge) =
        .ok .notSatisfied := by rfl
    rw [hnot] at hverdict
    cases hverdict
    cases hrewrite
    exact ⟨s', hassume, (h rfl).2 (.inl rfl)⟩

end Composite

end Overapprox
