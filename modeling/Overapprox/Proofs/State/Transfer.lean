import Overapprox.Proofs.Heap.Summary
import Overapprox.Proofs.Lattice.Joins
import Overapprox.Proofs.Lattice.States

/-!
# Transfers without a substitution

A transfer for which the heap asks no substitution joins what a step makes of each value expression
that the expression at hand may denote, values and types apart.

* `ValueEnv.get_joinOver_le_iff`: reading joined environments.
* `Composite.transfer_of_rewrite`: the state after such a transfer.
-/

namespace Overapprox

open AbstractLattice
open scoped LawfulLattice

theorem ValueEnv.get_joinOver_le_iff {ι : Type} {f : ι → ValueEnv Interval} {is : List ι}
    {x : Identifier} {v : Interval} :
    (joinOver f is).get x ≤ v ↔ ∀ i ∈ is, (f i).get x ≤ v :=
  joinOver_iff (p := fun env : ValueEnv Interval => env.get x ≤ v) (le_of_isBottom rfl)
    get_join_le_iff

namespace Composite

/-- The state over an empty heap in which an identifier has an interval. -/
def binding (x : Identifier) (v : Interval) : Composite SummaryHeap :=
  ⟨{}, (∅ : ValueEnv Interval).put x v, {}⟩

/-- Every expression denotes something, perhaps nothing at all. -/
theorem exists_rewrite (s : Composite SummaryHeap) (e : SymExpr) :
    ∃ choices, s.rewrite e = .ok choices :=
  Summary.exists_rewrite e

/-- What a step gives for several expressions is joined values by values and types by types. -/
theorem joinAll_eq (step : ValueExpr → ValueEnv Interval × TypeEnv) (es : List ValueExpr) :
    joinAll step es =
      (joinOver (fun e => (step e).1) es, joinOver (fun e => (step e).2) es) := by
  unfold joinAll joinOver
  generalize (bottom : ValueEnv Interval) = v, (bottom : TypeEnv) = t
  induction es generalizing v t with
  | nil => rfl
  | cons e es ih => exact ih _ _

variable {η : Type} [BEq η] [HeapDomain η]

/-- What a transfer does over a resolved expression, where the heap replaces nothing. -/
theorem transfer_of_rewrite (s : Composite η) {update : HeapUpdate η} {e : SymExpr}
    {choices : Choices} (hsub : update.substitution = [])
    (h : HeapDomain.rewrite update.heap e = .ok choices)
    (step : ValueEnv Interval → TypeEnv → ValueExpr → ValueEnv Interval × TypeEnv) :
    s.transfer update e step = .ok
      (if choices.isEmpty then ⟨update.heap, s.values, s.types⟩
      else ⟨update.heap, joinOver (fun c => (step s.values s.types c).1) choices.toList,
        joinOver (fun c => (step s.values s.types c).2) choices.toList⟩) := by
  simp only [transfer, substitute, h, hsub, joinAll_eq, List.isEmpty_nil, if_true, bind,
    Except.bind, pure, Except.pure]
  split <;> rfl

end Composite

end Overapprox
