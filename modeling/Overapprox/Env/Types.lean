import Overapprox.Domain.InferredTypes
import Overapprox.Env.Value

/-!
# Type environments

A type environment maps identifiers to the runtime types of their values and remembers the types of
the expression that was evaluated last, which its user reads back to annotate expressions. Every
identifier is bound, also those of pointers and heap objects.

* `TypeEnv.isBottom_iff`: whether it is bottom depends on the bindings alone.
-/

namespace Overapprox

open AbstractLattice

/-- The runtime types of identifiers and of the last expression. -/
structure TypeEnv where
  /-- The types of identifiers. -/
  env : ValueEnv InferredTypes
  /-- The types of the last expression. -/
  stack : InferredTypes

namespace TypeEnv

/-- The environment without bindings, before any evaluation. -/
def empty : TypeEnv := ⟨.empty, bottom⟩

instance : EmptyCollection TypeEnv := ⟨empty⟩

instance : Inhabited TypeEnv := ⟨empty⟩

instance : BEq TypeEnv := ⟨fun a b => a.env == b.env && a.stack == b.stack⟩

instance : AbstractLattice TypeEnv where
  top := ⟨top, top⟩
  bottom := ⟨bottom, bottom⟩
  isTop t := isTop t.env && isTop t.stack
  isBottom t := isBottom t.env
  properJoin a b := ⟨join a.env b.env, join a.stack b.stack⟩
  properMeet a b := ⟨meet a.env b.env, meet a.stack b.stack⟩
  properWiden a b := ⟨widen a.env b.env, widen a.stack b.stack⟩
  properLe a b := le a.env b.env && le a.stack b.stack

instance : Render TypeEnv where
  render t := render t.env ++ " [stack: " ++ render t.stack ++ "]"
  report t :=
    if isBottom t || isTop t then report t.env
    else .ofFields [("environment", report t.env), ("stack", report t.stack)]

/-- The types of an identifier. -/
def get (t : TypeEnv) (id : Identifier) : InferredTypes := t.env.get id

/-- The types of the last expression. -/
def runtimeTypes (t : TypeEnv) : TypeSet := t.stack.runtimeTypes

/-- The common supertype of the types of the last expression; `untyped` when nothing is known. -/
def dynamicType (t : TypeEnv) : Ty := t.runtimeTypes.supertype

/-- Assigns the types of an expression to an identifier and remembers them. -/
def assign (opts : Options) (t : TypeEnv) (id : Identifier) (e : ValueExpr) : TypeEnv :=
  if isBottom t then t
  else
    let v := ValueDomain.eval opts t.env e
    ⟨t.env.bind id v, v⟩

/-- Remembers the types of an expression. -/
def step (opts : Options) (t : TypeEnv) (e : ValueExpr) : TypeEnv :=
  if isBottom t then t else { t with stack := ValueDomain.eval opts t.env e }

/-- The environment where a condition holds. -/
def assume (opts : Options) (t : TypeEnv) (e : ValueExpr) : TypeEnv :=
  let env := t.env.assume opts e
  if isBottom env then bottom else { t with env }

/-- The verdict on a condition. -/
def satisfies (opts : Options) (t : TypeEnv) (e : ValueExpr) : Verdict := t.env.satisfies opts e

/-- Drops what is known about an identifier. -/
def forget (t : TypeEnv) (id : Identifier) : TypeEnv := { t with env := t.env.forget id }

/-- Hides the variables behind a call. -/
def pushScope (t : TypeEnv) (token : ScopeToken) : TypeEnv :=
  { t with env := t.env.pushScope token }

/-- Shows again the variables that were hidden behind a call. -/
def popScope (t : TypeEnv) (token : ScopeToken) : TypeEnv :=
  { t with env := t.env.popScope token }

/-- Makes a substitution, if it is consistent. -/
def substitute (t : TypeEnv) (s : Substitution) : Outcome TypeEnv := do
  return { t with env := ← t.env.substitute s }

/-- The type of the last expression does not count for whether anything is left. -/
theorem isBottom_iff (t : TypeEnv) : isBottom t = isBottom t.env := rfl

end TypeEnv

end Overapprox
