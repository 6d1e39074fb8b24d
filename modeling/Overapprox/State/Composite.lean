import Overapprox.Domain.Interval
import Overapprox.Env.Types
import Overapprox.Heap.Basic

/-!
# Composite states

A composite state joins a heap, an environment of intervals and a type environment. A transfer runs
the heap first and makes the substitution it asks for. Then the types and the values follow every
value expression that the heap makes of the expression at hand, and the results are joined. The
types annotate what the values get to see.

* `Composite.isBottom_iff`: a composite state is bottom only when all of its parts are.
* `Composite.transfer_of_rewrite_error`: what cannot be rewritten cannot be followed.
-/

namespace Overapprox

open AbstractLattice

/-- An abstract state of heap, values and types. -/
structure Composite (η : Type) where
  heap : η
  values : ValueEnv Interval
  types : TypeEnv

namespace Composite

variable {η : Type}

instance [BEq η] : BEq (Composite η) :=
  ⟨fun a b => a.heap == b.heap && a.values == b.values && a.types == b.types⟩

instance [Render η] : Render (Composite η) where
  render s :=
    "heap: " ++ render s.heap ++ ", value: " ++ render s.values ++ ", type: " ++ render s.types
  report s := .ofFields
    [("heap", report s.heap), ("value", report s.values), ("type", report s.types)]

instance [BEq η] [AbstractLattice η] : AbstractLattice (Composite η) where
  top := ⟨top, top, top⟩
  bottom := ⟨bottom, bottom, bottom⟩
  isTop s := isTop s.heap && isTop s.values && isTop s.types
  isBottom s := isBottom s.heap && isBottom s.values && isBottom s.types
  properJoin a b := ⟨join a.heap b.heap, join a.values b.values, join a.types b.types⟩
  properMeet a b := ⟨meet a.heap b.heap, meet a.values b.values, meet a.types b.types⟩
  properWiden a b := ⟨widen a.heap b.heap, widen a.values b.values, widen a.types b.types⟩
  properLe a b := le a.heap b.heap && le a.values b.values && le a.types b.types

variable [BEq η] [HeapDomain η]

/-- The value expressions that an expression may denote in the heap. -/
def rewrite (s : Composite η) (e : SymExpr) : Outcome Choices := HeapDomain.rewrite s.heap e

/-- Makes a substitution in the values and the types. Nothing is looked at when there is nothing to
replace. -/
def substitute (s : Composite η) (sub : Substitution) :
    Outcome (ValueEnv Interval × TypeEnv) := do
  if sub.isEmpty then return (s.values, s.types)
  sub.check
  return (← s.values.substitute sub, ← s.types.substitute sub)

/-- Joins the values and the types that a step makes of each of some expressions. -/
def joinAll (step : ValueExpr → ValueEnv Interval × TypeEnv) (es : List ValueExpr) :
    ValueEnv Interval × TypeEnv :=
  es.foldl (fun (v, t) e => (join v (step e).1, join t (step e).2)) (bottom, bottom)

/-- Follows an expression after the heap did. An expression that denotes nothing leaves the values
and the types as the substitution made them. -/
def transfer (s : Composite η) (update : HeapUpdate η) (e : SymExpr)
    (step : ValueEnv Interval → TypeEnv → ValueExpr → ValueEnv Interval × TypeEnv) :
    Outcome (Composite η) := do
  let choices ← HeapDomain.rewrite update.heap e
  let (values, types) ← s.substitute update.substitution
  if choices.isEmpty then return ⟨update.heap, values, types⟩
  let (values, types) := joinAll (step values types) choices.toList
  return ⟨update.heap, values, types⟩

/-- Annotates an expression with the types of the last expression, if any are known. -/
def annotate (types : TypeEnv) (e : ValueExpr) : ValueExpr :=
  if types.runtimeTypes.isEmpty then e else e.withRuntimeTypes types.runtimeTypes

/-- Annotates an expression with the types that are inferred for it, if any are. -/
def annotateInferred (opts : Options) (types : TypeEnv) (e : ValueExpr) : ValueExpr :=
  annotate (types.step opts e) e

/-- What an assignment of one value expression does to values and types. -/
def assignStep (opts : Options) (id : Identifier) (values : ValueEnv Interval) (types : TypeEnv)
    (e : ValueExpr) : ValueEnv Interval × TypeEnv :=
  let types := types.assign opts id e
  let inferred := types.runtimeTypes
  let values :=
    if inferred.isEmpty then values.assign opts id e
    else values.assign opts (id.withRuntimeTypes inferred) (e.withRuntimeTypes inferred)
  (values, types)

/-- What an evaluation of one value expression does to values and types. -/
def evalStep (opts : Options) (values : ValueEnv Interval) (types : TypeEnv) (e : ValueExpr) :
    ValueEnv Interval × TypeEnv :=
  let types := types.step opts e
  (values.step (annotate types e), types)

/-- What a condition does to values and types. -/
def assumeStep (opts : Options) (values : ValueEnv Interval) (types : TypeEnv) (e : ValueExpr) :
    ValueEnv Interval × TypeEnv :=
  let e := annotateInferred opts types e
  (values.assume opts e, types.assume opts e)

/-- Assigns an expression to an identifier. -/
def assign (opts : Options) (s : Composite η) (id : Identifier) (e : SymExpr) :
    Outcome (Composite η) :=
  s.transfer (HeapDomain.assign s.heap id e) e (assignStep opts id)

/-- Evaluates an expression. -/
def step (opts : Options) (s : Composite η) (e : SymExpr) : Outcome (Composite η) :=
  s.transfer (HeapDomain.step s.heap e) e (evalStep opts)

/-- The state where a condition holds. -/
def assume (opts : Options) (s : Composite η) (e : SymExpr) : Outcome (Composite η) :=
  s.transfer (HeapDomain.assume s.heap e) e (assumeStep opts)

/-- The verdict of one domain on a condition, over all that the condition may denote. A condition
that denotes nothing has no value. -/
def verdictOver (judge : ValueExpr → Verdict) (es : List ValueExpr) : Verdict :=
  es.foldl (fun v e => v.either (judge e)) .bottom

/-- What the three domains together tell about a condition. -/
def satisfies (opts : Options) (s : Composite η) (e : SymExpr) : Outcome Verdict := do
  let es := (← s.rewrite e).toList.map (annotateInferred opts s.types)
  return ((HeapDomain.satisfies s.heap e).both (verdictOver (s.types.satisfies opts) es)).both
    (verdictOver (s.values.satisfies opts) es)

/-- Drops what is known about an identifier. -/
def forget (s : Composite η) (id : Identifier) : Composite η :=
  ⟨HeapDomain.forget s.heap id, s.values.forget id, s.types.forget id⟩

/-- Hides the variables behind a call. -/
def pushScope (s : Composite η) (token : ScopeToken) : Composite η :=
  ⟨HeapDomain.pushScope s.heap token, s.values.pushScope token, s.types.pushScope token⟩

/-- Shows again the variables that were hidden behind a call. -/
def popScope (s : Composite η) (token : ScopeToken) : Composite η :=
  ⟨HeapDomain.popScope s.heap token, s.values.popScope token, s.types.popScope token⟩

omit [HeapDomain η] in
/-- A composite state is bottom only where all of its parts are. -/
theorem isBottom_iff [AbstractLattice η] (s : Composite η) :
    isBottom s = true ↔
      (isBottom s.heap = true ∧ isBottom s.values = true) ∧ isBottom s.types = true := by
  change (isBottom s.heap && isBottom s.values && isBottom s.types) = true ↔ _
  rw [Bool.and_eq_true, Bool.and_eq_true]

/-- Where the heap cannot tell what an expression denotes, there is no transfer. -/
theorem transfer_of_rewrite_error (s : Composite η) {update : HeapUpdate η} {e : SymExpr}
    {err : AnalysisError} (h : HeapDomain.rewrite update.heap e = .error err)
    (step : ValueEnv Interval → TypeEnv → ValueExpr → ValueEnv Interval × TypeEnv) :
    s.transfer update e step = .error err := by
  simp [transfer, h, bind, Except.bind]

end Composite

end Overapprox
