import Overapprox.Proofs.Env.Frame
import Overapprox.Proofs.Env.History
import Overapprox.Proofs.Interval.Refinement

/-!
# What a condition narrows

A condition that is read at one of the locations that a weak identifier summarizes says nothing of
the others. It narrows the identifier all the same, as it narrows a strong one: neither the
refinement nor the meet that follows it looks at what an identifier stands for. So a summary keeps
its value where it is no target of the condition, where the verdict leaves nothing to refine, and
where the refinement does not restrict it.

* `ValueEnv.mem_get_assume_guard`: a guard leaves the integers of its identifier that satisfy it.
* `ValueEnv.assume_retains_iff`: when an identifier, weak or not, keeps its value.
-/

namespace Overapprox

open AbstractLattice
open scoped LawfulLattice

open History (summary)

namespace ValueEnv

variable {opts : Options} {env : ValueEnv Interval} {w : Identifier} {e : ValueExpr}

/-- What an open guard leaves of a location are the values that pass it. -/
theorem mem_get_assume_guard {p : Int → Bool} {n : Int} (h : env.IsRegular)
    (hguard : Interval.Guard w e p) (hopen : env.satisfies opts e = .unknown) :
    n ∈ (env.assume opts e).get w ↔ n ∈ env.get w ∧ p n = true := by
  obtain ⟨v, hassume, -, hv⟩ := Interval.exists_assume_guard hguard opts env
  rw [assume_of_unknown hopen, hassume, Interval.mem_get_meet_put_iff h, hv]

/-- Where something is left of an environment, an identifier has the value that it had exactly where
the verdict is not open or the refinement allows all of that value. It has it where no comparison
refines the identifier, and loses what does not satisfy a guard on the identifier. -/
theorem assume_retains_iff (opts : Options) (e : ValueExpr) (env : ValueEnv Interval)
    (w : Identifier) :
    ((env.assume opts e).Retains w (env.get w) ↔
      isBottom (env.assume opts e) = true ∨ env.satisfies opts e ≠ .unknown ∨
        env.get w ≤ (ValueDomain.assume opts e env).get w) ∧
    ((∀ x ∈ e.targets, compare w x ≠ .eq) → (env.assume opts e).Retains w (env.get w)) ∧
    (env.IsRegular → env.satisfies opts e = .unknown → ∀ p, Interval.Guard w e p →
      ∀ n : Int, n ∈ (env.assume opts e).get w ↔ n ∈ env.get w ∧ p n = true) := by
  refine ⟨retains_assume_iff opts e env w, retains_assume opts env, ?_⟩
  intro hregular hopen p hguard n
  exact mem_get_assume_guard hregular hguard hopen

/-- The location of several integers, between 0 and 10. -/
def digits : ValueEnv Interval :=
  (∅ : ValueEnv Interval).put summary (.ofBounds 0 (.finite 10))

/-- A condition on a variable leaves the summary as it is, and a condition on the summary leaves 4
and not 5. -/
theorem assume_retains_iff_below_five :
    (digits.assume {} (compareInt .lt (intVar "x") 5)).Retains summary
        (digits.get summary) ∧
      4 ∈ (digits.assume {} (compareInt .lt summary 5)).get summary ∧
      5 ∉ (digits.assume {} (compareInt .lt summary 5)).get summary := by
  have hregular : digits.IsRegular := isRegular_put _ isRegular_empty
    (Interval.isRegular_of_mem (n := 0) (Interval.mem_ofBounds.2 ⟨by decide, by decide⟩))
  have hguard : Interval.Guard summary (compareInt .lt summary 5) fun m => decide (m < 5) :=
    .left .lt 5 _ _ _ rfl (by decide)
  have hmem := (assume_retains_iff {} _ _ _).2.2 hregular (by decide) _ hguard
  refine ⟨(assume_retains_iff {} _ _ _).2.1 (by decide), (hmem 4).2 ⟨?_, rfl⟩, fun h => ?_⟩
  · rw [digits, get_put_self]
    exact Interval.mem_ofBounds.2 ⟨by decide, by decide⟩
  · exact absurd ((hmem 5).1 h).2 (by decide)

/-- A condition on one of its concrete locations narrows the whole summary. -/
theorem assume_narrows_summary :
    ∃ (env : ValueEnv Interval) (e : ValueExpr) (w : Identifier), w.isWeak = true ∧
      env.get w = .ofBounds 0 (.finite 10) ∧ isBottom (env.assume {} e) = false ∧
      (env.assume {} e).get w = .ofBounds 0 (.finite 4) ∧
      ¬(isBottom (env.assume {} e) = true ∨ (env.assume {} e).get w = env.get w) :=
  ⟨digits, compareInt .lt summary 5, summary, rfl, by decide, by decide, by decide,
    by decide⟩

end ValueEnv

end Overapprox
