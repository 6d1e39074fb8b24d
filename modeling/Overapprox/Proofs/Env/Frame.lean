import Overapprox.Proofs.Env.Assignment
import Overapprox.Proofs.Env.Condition
import Overapprox.Proofs.Env.Scope
import Overapprox.Proofs.Interval.Assume

/-!
# What transfers leave alone

A transfer of an environment only touches the identifiers that it is about. Any other one keeps its
value, unless nothing is left of the environment, and so it does where environments are joined or
widened. While a condition is assumed such a value may get lost, but only for a greater one, and the
meet with the environment before brings it back.

* `ValueEnv.Retains`: an identifier has a value, unless there are no values.
* `ValueEnv.Retains.assign`, `ValueEnv.Retains.assume`, `ValueEnv.Retains.forget`: transfers.
* `ValueEnv.retains_assume_iff`: what a condition does to a single identifier, exactly.
* `ValueEnv.Retains.pushScope`, `ValueEnv.Retains.popScope`: scopes.
* `TypeEnv.retains_join`, `TypeEnv.retains_assign`, `TypeEnv.retains_assume`: the same for types.
-/

namespace Overapprox

open AbstractLattice
open scoped LawfulLattice

/-! ## Functions -/

namespace Pointwise

variable {κ ν : Type} [Ord κ] [Std.TransOrd κ] [BEq κ] [BEq ν] [AbstractLattice ν]
  {f g : Pointwise κ ν} {k : κ} {v : ν}

/-- A key has a value, unless the function is the bottom one. -/
def Retains (f : Pointwise κ ν) (k : κ) (v : ν) : Prop := isBottom f = true ∨ f.get k = v

theorem Retains.get_eq (h : f.Retains k v) (hne : isBottom f = false) : f.get k = v :=
  h.resolve_left (Bool.eq_false_iff.1 hne)

/-- Two functions that agree on a key, combined by what changes nothing of the value there. -/
theorem Retains.zipCommon {op : ν → ν → ν} (hop : op v v = v) (hpf : IsProper f) (hpg : IsProper g)
    (hf : f.Retains k v) (hg : g.Retains k v) : (zipCommon op f g).Retains k v := by
  right
  have hfne : f ≠ bottom := fun h => Bool.eq_false_iff.1 hpf.2 (isBottom_iff.2 h)
  have hgne : g ≠ bottom := fun h => Bool.eq_false_iff.1 hpg.2 (isBottom_iff.2 h)
  have hfv := hf.get_eq hpf.2
  have hgv := hg.get_eq hpg.2
  obtain ⟨u, w, hu, hw, hget⟩ | ⟨hnone, hget⟩ := get_zipCommon (f := f) (g := g) (k := k) op
  · rw [get_of_find? hu] at hfv
    rw [get_of_find? hw] at hgv
    rw [hget, hfv, hgv, hop]
  · rw [hget]
    rcases hnone with hnone | hnone
    · rw [← hfv, get_of_find?_none hfne hnone]
    · rw [← hgv, get_of_find?_none hgne hnone]

variable [ReflBEq ν]

/-- Where two functions have the same value at a key, so has their join. -/
theorem Retains.join (hf : f.Retains k v) (hg : g.Retains k v) : (join f g).Retains k v :=
  join_keeps (p := fun f : Pointwise κ ν => f.Retains k v) (.zipCommon (join_self v)) hf hg

theorem Retains.widen (hf : f.Retains k v) (hg : g.Retains k v) : (widen f g).Retains k v :=
  widen_keeps (p := fun f : Pointwise κ ν => f.Retains k v) (.zipCommon (widen_self v)) hf hg

end Pointwise

/-! ## Environments -/

namespace ValueEnv

section Retains

variable {δ : Type} [BEq δ] [ValueDomain δ] {env a b : ValueEnv δ} {x y : Identifier} {v : δ}

/-- An identifier has a value, unless no identifier has one. -/
def Retains (env : ValueEnv δ) (x : Identifier) (v : δ) : Prop :=
  isBottom env = true ∨ env.get x = v

/-- All environments without values are the same. -/
theorem eq_of_isBottom (ha : isBottom a = true) (hb : isBottom b = true) : a = b := by
  have hfa : a.function = .bottom := Pointwise.isBottom_iff.1 ha
  have hfb : b.function = .bottom := Pointwise.isBottom_iff.1 hb
  exact congrArg ValueEnv.mk (hfa.trans hfb.symm)

theorem retains_get (env : ValueEnv δ) (x : Identifier) : env.Retains x (env.get x) := .inr rfl

theorem Retains.get_eq (h : env.Retains x v) (hne : isBottom env = false) : env.get x = v :=
  h.resolve_left (Bool.eq_false_iff.1 hne)

/-- What both operands of a join know of an identifier, the join knows. -/
theorem Retains.join [ReflBEq δ] (ha : a.Retains x v) (hb : b.Retains x v) :
    (join a b).Retains x v :=
  join_keeps (p := fun env : ValueEnv δ => env.Retains x v)
    (fun _ _ ha hb => Pointwise.Retains.join ha hb) ha hb

theorem Retains.widen [ReflBEq δ] (ha : a.Retains x v) (hb : b.Retains x v) :
    (widen a b).Retains x v :=
  widen_keeps (p := fun env : ValueEnv δ => env.Retains x v)
    (fun _ _ ha hb => Pointwise.Retains.widen ha hb) ha hb

theorem Retains.joinOver [ReflBEq δ] {ι : Type} {f : ι → ValueEnv δ} {is : List ι}
    (h : ∀ i ∈ is, (f i).Retains x v) : (joinOver f is).Retains x v :=
  joinOver_keeps (p := fun env : ValueEnv δ => env.Retains x v) (.inl rfl) Retains.join h

/-- Binding one identifier leaves another one with its value. -/
theorem Retains.bind (h : env.Retains y v) (hne : isBottom env = false)
    (hy : compare y x ≠ .eq) (u : δ) : (env.bind x u).Retains y v := by
  cases hbind : isBottom (env.bind x u) with
  | true => exact .inl hbind
  | false =>
    right
    rw [get_bind_of_ne hy hne hbind]
    exact h.get_eq hne

/-- An assignment leaves every identifier but its target with its value. -/
theorem Retains.assign {opts : Options} {e : ValueExpr} (h : env.Retains y v)
    (hy : compare y x ≠ .eq) : (env.assign opts x e).Retains y v := by
  rw [ValueEnv.assign]
  split
  case isTrue => exact h
  case isFalse hplain =>
    simp only [Bool.or_eq_true, not_or, Bool.not_eq_true] at hplain
    exact h.bind hplain.1.1 hy _

theorem Retains.forget (h : env.Retains y v) (hy : compare y x ≠ .eq) :
    (env.forget x).Retains y v := by
  refine h.imp (fun hbottom => ?_) fun hget => ?_
  · rwa [isBottom_forget]
  · exact (Pointwise.get_forget_of_ne env.function hy).trans hget

theorem Retains.pushScope (h : env.Retains x v) (token : ScopeToken) :
    (env.pushScope token).Retains (x.pushScope token) v := by
  rwa [Retains, isBottom_pushScope, get_pushScope]

/-- A variable that was hidden behind a call has its value again after the return. -/
theorem Retains.popScope {token : ScopeToken} (hx : x.isScoped = true)
    (h : env.Retains (x.pushScope token) v) : (env.popScope token).Retains x v := by
  rwa [Retains, isBottom_popScope, get_popScope env token hx]

end Retains

/-! ## Conditions -/

section Conditions

variable {opts : Options} {env a b : ValueEnv Interval} {y : Identifier} {v : Interval}
  {e : ValueExpr}

/-- An identifier may have a value, unless no identifier has one. -/
def Allows (env : ValueEnv Interval) (x : Identifier) (v : Interval) : Prop :=
  isBottom env = true ∨ v ≤ env.get x

theorem Allows.of_le (h : a.Allows y v) (hab : a ≤ b) (hne : isBottom a = false) :
    b.Allows y v :=
  .inr ((h.resolve_left (Bool.eq_false_iff.1 hne)).trans (get_le_get hab y))

/-- A join allows whatever its operands allow. -/
theorem Allows.join (ha : a.Allows y v) (hb : b.Allows y v) : (join a b).Allows y v := by
  cases hane : isBottom a with
  | false => exact ha.of_le (LawfulLattice.le_join_left a b) hane
  | true =>
    cases hbne : isBottom b with
    | false => exact hb.of_le (LawfulLattice.le_join_right a b) hbne
    | true => rwa [join_of_isBottom_right hbne]

/-- A write to an environment that has lost everything leaves the other identifiers open. -/
theorem Allows.put {x : Identifier} (h : env.Allows y v) (hy : compare y x ≠ .eq) (w : Interval) :
    (env.put x w).Allows y v := by
  right
  cases hne : isBottom env with
  | false =>
    rw [get_put_of_ne w hy (function_ne_bottom hne)]
    exact h.resolve_left (Bool.eq_false_iff.1 hne)
  | true =>
    have hget : (env.put x w).get y = top := by
      show (Pointwise.put env.function x w).get y = top
      rw [Pointwise.isBottom_iff.1 hne]
      exact Pointwise.get_of_find?_none (Pointwise.table_ne_bottom _)
        (OrdMap.find?_insert_of_ne .empty w hy)
    rw [hget]
    exact le_of_isTop rfl

/-- A meet allows what both of its operands allow, unless it is bottom. -/
theorem le_get_meet (hne : isBottom (meet a b) = false) (ha : v ≤ a.get y) (hb : v ≤ b.get y) :
    v ≤ (meet a b).get y := by
  revert hne
  refine meet_cases (p := fun m : ValueEnv Interval => isBottom m = false → v ≤ m.get y)
    (fun _ _ => ha) (fun _ _ => hb) fun _ _ hne => ?_
  change isBottom (ofFunction (meet a.function b.function)) = false at hne
  show v ≤ (ofFunction (meet a.function b.function)).get y
  unfold ofFunction at hne ⊢
  split at hne
  case isTrue => cases hne
  case isFalse hkeep =>
    rw [if_neg hkeep]
    exact Pointwise.le_get_meet (Interval.respectsMeets v) ha hb

/-- A condition may lose the values of identifiers that it does not refine, but never restricts
them. -/
theorem allows_assumeNormal (h : env.Allows y v) (he : ∀ x ∈ e.compared, compare y x ≠ .eq) :
    (ValueDomain.assumeNormal opts e env).Allows y v := by
  have hinvariant : Interval.AssumeInvariant opts (fun x => compare y x ≠ .eq)
      fun refined => refined.Allows y v :=
    ⟨.inl rfl, Allows.join, fun henv hx _ _ _ => henv.put hx _⟩
  exact Interval.assumeNormal_invariant hinvariant he h

theorem compare_ne_of_mem_targets {x : Identifier} (he : e.mentions y = false)
    (hx : x ∈ e.targets) : compare y x ≠ .eq := by
  intro heq
  have hsame := ValueExpr.mentions_congr (Std.LawfulBEqOrd.compare_eq_iff_beq.1 heq) e
  rw [he, ValueExpr.mentions_of_mem_targets hx] at hsame
  cases hsame

/-- Refining by a condition takes no value away from an identifier that is not compared. -/
theorem allows_assume (opts : Options) (env : ValueEnv Interval)
    (he : ∀ x ∈ e.targets, compare y x ≠ .eq) :
    (ValueDomain.assume opts e env).Allows y (env.get y) := by
  rw [ValueDomain.assume_eq_assumeNormal]
  exact allows_assumeNormal (.inr le_rfl) he

/-- The meet with an environment brings back a value that was lost, unless it is restricted. -/
theorem retains_meet_iff (a env : ValueEnv Interval) (y : Identifier) :
    (meet a env).Retains y (env.get y) ↔
      isBottom (meet a env) = true ∨ env.get y ≤ a.get y := by
  constructor
  · exact Or.imp_right fun h => h.ge.trans (get_le_get (LawfulLattice.meet_le_left a env) y)
  · intro h
    cases hmeet : isBottom (meet a env) with
    | true => exact .inl hmeet
    | false =>
      have hle := h.resolve_left (Bool.eq_false_iff.1 hmeet)
      exact .inr (Interval.eq_of_le_of_ge (get_le_get (LawfulLattice.meet_le_right a env) y)
        (le_get_meet hmeet hle le_rfl))

/-- What is left of an identifier is what it had before, unless the verdict is open and the
refinement restricts the identifier: the meet allows nothing more, and otherwise nothing less. -/
theorem retains_assume_iff (opts : Options) (e : ValueExpr) (env : ValueEnv Interval)
    (y : Identifier) :
    (env.assume opts e).Retains y (env.get y) ↔
      isBottom (env.assume opts e) = true ∨ env.satisfies opts e ≠ .unknown ∨
        env.get y ≤ (ValueDomain.assume opts e env).get y := by
  cases h : env.satisfies opts e with
  | satisfied =>
    rw [assume_of_satisfied h]
    exact iff_of_true (env.retains_get y) (.inr (.inl nofun))
  | notSatisfied =>
    have hbottom := isBottom_assume (.inl h)
    exact iff_of_true (.inl hbottom) (.inl hbottom)
  | bottom =>
    have hbottom := isBottom_assume (.inr h)
    exact iff_of_true (.inl hbottom) (.inl hbottom)
  | unknown =>
    rw [assume_of_unknown h, retains_meet_iff]
    exact or_congr_right (or_iff_right fun hne => hne rfl).symm

/-- An identifier that a condition does not refine keeps its value. -/
theorem retains_assume (opts : Options) (env : ValueEnv Interval)
    (he : ∀ x ∈ e.targets, compare y x ≠ .eq) :
    (env.assume opts e).Retains y (env.get y) := by
  refine assume_cases (p := fun left : ValueEnv Interval => left.Retains y (env.get y))
    (env.retains_get y) (.inl rfl) fun _ _ => ?_
  rw [retains_meet_iff]
  refine (allows_assume opts env he).imp_left fun hbottom => ?_
  exact LawfulLattice.isBottom_of_le (LawfulLattice.meet_le_left _ env) hbottom

/-- A condition leaves an identifier that it does not mention with its value. -/
theorem Retains.assume (h : env.Retains y v) (he : e.mentions y = false) :
    (env.assume opts e).Retains y v := by
  rcases h with hbottom | rfl
  · rw [assume_of_isBottom hbottom]
    exact .inl hbottom
  · exact retains_assume opts env fun _ => compare_ne_of_mem_targets he

end Conditions

end ValueEnv

/-! ## Types -/

namespace TypeEnv

variable {opts : Options} {t u : TypeEnv} {x y : Identifier} {v : InferredTypes}

theorem retains_join (ht : t.env.Retains x v) (hu : u.env.Retains x v) :
    (join t u).env.Retains x v :=
  join_keeps (p := fun t : TypeEnv => t.env.Retains x v) (fun _ _ ht hu => ht.join hu) ht hu

theorem retains_widen (ht : t.env.Retains x v) (hu : u.env.Retains x v) :
    (widen t u).env.Retains x v :=
  widen_keeps (p := fun t : TypeEnv => t.env.Retains x v) (fun _ _ ht hu => ht.widen hu) ht hu

theorem retains_joinOver {ι : Type} {f : ι → TypeEnv} {is : List ι}
    (h : ∀ i ∈ is, (f i).env.Retains x v) : (joinOver f is).env.Retains x v :=
  joinOver_keeps (p := fun t : TypeEnv => t.env.Retains x v) (.inl rfl) retains_join h

theorem retains_assign {e : ValueExpr} (h : t.env.Retains y v) (hy : compare y x ≠ .eq) :
    (t.assign opts x e).env.Retains y v := by
  rw [assign]
  split
  case isTrue => exact h
  case isFalse hne => exact h.bind (Bool.eq_false_iff.2 hne) hy _

/-- Conditions never change the types of identifiers. -/
theorem retains_assume (h : t.env.Retains y v) (e : ValueExpr) :
    (t.assume opts e).env.Retains y v := by
  rcases satisfies_cases opts t e with hopen | hbottom
  · rwa [assume_of_unknown hopen]
  · exact .inl (isBottom_assume hbottom)

end TypeEnv

end Overapprox
