import Overapprox.Domain.Basic
import Overapprox.Heap.Replacement

/-!
# Transfers of value environments

What assignments, conditions, scopes and heap substitutions do to an environment of abstract
values. A bottom environment stays bottom, and an assignment that the domain does not follow
changes nothing.

* `ValueEnv.assign_of_untracked`: identifiers that the domain does not track are never bound.
* `ValueEnv.replaceAll_append`: a concatenated substitution is made in two parts.
-/

namespace Overapprox

open AbstractLattice

namespace ValueEnv

variable {δ : Type} [BEq δ] [ValueDomain δ]

/-- Assigns the value of an expression to an identifier. -/
def assign (opts : Options) (env : ValueEnv δ) (id : Identifier) (e : ValueExpr) : ValueEnv δ :=
  if isBottom env || !ValueDomain.tracks δ id || !e.hasPlainValues then env
  else env.bind id (ValueDomain.eval opts env e)

/-- Evaluates an expression, which stores nothing. -/
def step (env : ValueEnv δ) (_ : ValueExpr) : ValueEnv δ := env

/-- The verdict on a condition. -/
def satisfies (opts : Options) (env : ValueEnv δ) (e : ValueExpr) : Verdict :=
  if isBottom env then .bottom else ValueDomain.satisfies opts env e

/-- The environment where a condition holds: bottom where it cannot hold, and refined by it where
it is not known to hold anyway. -/
def assume (opts : Options) (env : ValueEnv δ) (e : ValueExpr) : ValueEnv δ :=
  if isBottom env then env
  else
    match ValueDomain.satisfies opts env e with
    | .notSatisfied => bottom
    | .bottom => bottom
    | .satisfied => env
    | .unknown => meet (ValueDomain.assume opts e env) env

/-- Drops what is known about an identifier. -/
def forget (env : ValueEnv δ) (id : Identifier) : ValueEnv δ := ⟨env.function.forget id⟩

/-- Hides the variables behind a call. -/
def pushScope (env : ValueEnv δ) (token : ScopeToken) : ValueEnv δ :=
  ⟨env.function.renameKeys fun id => some (id.pushScope token)⟩

/-- Shows again the variables that were hidden behind a call, and drops those of the call. -/
def popScope (env : ValueEnv δ) (token : ScopeToken) : ValueEnv δ :=
  ⟨env.function.renameKeys (Identifier.popScope? token)⟩

/-- Gives the join of the values of the sources of a replacement to each of its targets. -/
def replace (f : Pointwise Identifier δ) (r : Replacement) : Pointwise Identifier δ :=
  let joined := r.sources.toList.foldl (fun v id => join v (f.get id)) bottom
  r.targets.toList.foldl (fun g id => g.put id joined) (r.forgotten.toList.foldl .forget f)

/-- Makes the replacements of a substitution in order. -/
def replaceAll (f : Pointwise Identifier δ) (s : Substitution) : Pointwise Identifier δ :=
  s.foldl replace f

/-- Makes a substitution, if it is consistent. -/
def substitute (env : ValueEnv δ) (s : Substitution) : Outcome (ValueEnv δ) := do
  if isBottom env then return env
  s.check
  return ofFunction (replaceAll env.function s)

/-- An assignment to an identifier that the domain does not track is ignored. -/
theorem assign_of_untracked (opts : Options) (env : ValueEnv δ) {id : Identifier}
    (h : ValueDomain.tracks δ id = false) (e : ValueExpr) : env.assign opts id e = env := by
  simp [assign, h]

/-- Replacements are made one after the other, so a substitution may be cut anywhere. -/
theorem replaceAll_append (f : Pointwise Identifier δ) (s t : Substitution) :
    replaceAll f (s ++ t) = replaceAll (replaceAll f s) t :=
  List.foldl_append

end ValueEnv

end Overapprox
