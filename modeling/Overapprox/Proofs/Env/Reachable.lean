import Overapprox.Proofs.Env.Frame
import Overapprox.Proofs.Widening.States

/-!
# Environments that an analysis reaches

Joins, widenings and renamings do not look for bindings to bottom, and a condition may bind
identifiers to anything while it is assumed. Environments stay well formed all the same: bindings
are regular intervals, and every operation keeps them so. An evaluation then gives bottom or a
regular interval, whose lower bound is not `+∞` and whose upper bound is not `-∞`, so no sum and no
difference of bounds is one of opposite infinities.

* `ValueEnv.isRegular_assign`, `ValueEnv.isRegular_assume`, `ValueEnv.isRegular_substitute`: what
  transfers do to regular environments.
* `ValueEnv.Reachable`, `ValueEnv.isRegular_of_reachable`: what an analysis makes of the first
  environments.
* `ValueEnv.reachable_isWellFormed`: what is known of all of these.
-/

namespace Overapprox

open AbstractLattice
open scoped LawfulLattice

namespace ValueEnv

/-! ## Replacements -/

section Replacements

variable {δ : Type} [BEq δ] [ValueDomain δ] {f : Pointwise Identifier δ} {p : δ → Prop}

/-- A replacement binds its targets to a join of values that were read. -/
theorem forall_entries_replace (htop : p top) (hbottom : p bottom)
    (hjoin : ∀ {v w}, p v → p w → p (join v w)) (hf : ∀ e ∈ f.entries, p e.2) (r : Replacement) :
    ∀ e ∈ (replace f r).entries, p e.2 := by
  have hjoined : p (r.sources.toList.foldl (fun v id => join v (f.get id)) bottom) :=
    List.foldlRecOn _ _ hbottom fun v hv id _ =>
      hjoin hv (Pointwise.get_of_forall_entries htop hbottom hf id)
  have hforgotten : ∀ e ∈ (r.forgotten.toList.foldl Pointwise.forget f).entries, p e.2 :=
    List.foldlRecOn (motive := fun g : Pointwise Identifier δ => ∀ e ∈ g.entries, p e.2) _ _ hf
      fun g hg id _ => Pointwise.forall_entries_forget hg id
  exact List.foldlRecOn (motive := fun g : Pointwise Identifier δ => ∀ e ∈ g.entries, p e.2) _ _
    hforgotten fun g hg id _ => Pointwise.forall_entries_put hg hjoined

theorem forall_entries_replaceAll (htop : p top) (hbottom : p bottom)
    (hjoin : ∀ {v w}, p v → p w → p (join v w)) (hf : ∀ e ∈ f.entries, p e.2) (s : Substitution) :
    ∀ e ∈ (replaceAll f s).entries, p e.2 :=
  List.foldlRecOn (motive := fun g : Pointwise Identifier δ => ∀ e ∈ g.entries, p e.2) s _ hf
    fun _ hg r _ => forall_entries_replace htop hbottom hjoin hg r

end Replacements

/-! ## Regular environments -/

variable {opts : Options} {env a b refined : ValueEnv Interval} {id : Identifier} {v : Interval}

theorem isRegular_bottom : IsRegular bottom := fun _ he => nomatch he

theorem isRegular_join (ha : a.IsRegular) (hb : b.IsRegular) : (join a b).IsRegular :=
  forall_entries_join ha hb fun hv _ =>
    Interval.isRegular_of_le hv (LawfulLattice.le_join_left _ _)

theorem isRegular_widen (ha : a.IsRegular) (hb : b.IsRegular) : (widen a b).IsRegular :=
  widen_keeps (p := IsRegular) (fun _ _ ha hb => Pointwise.forall_entries_widen ha hb
    fun hv _ => Interval.isRegular_of_le hv (LawfulWidening.le_widen _ _).1) ha hb

/-- A value that is bottom makes the environment bottom, also where it is joined with the value
that a weak identifier has. -/
theorem isRegular_bind (h : env.IsRegular) (hv : isBottom v = false → v.IsRegular) :
    (env.bind id v).IsRegular := by
  have hput {u : Interval} (hu : isBottom u = false → u.IsRegular) :
      (if isBottom u then bottom else env.put id u).IsRegular := by
    split
    case isTrue => exact isRegular_bottom
    case isFalse hne => exact isRegular_put id h (hu (Bool.eq_false_iff.2 hne))
  unfold bind
  apply hput
  split
  case isTrue => exact Interval.isRegular_join (isRegular_get_of_not_isBottom h) hv
  case isFalse => exact hv

/-- What is assigned is regular, or bottom and therefore not bound. -/
theorem isRegular_assign (h : env.IsRegular) (opts : Options) (id : Identifier) (e : ValueExpr) :
    (env.assign opts id e).IsRegular := by
  rw [assign]
  split
  case isTrue => exact h
  case isFalse => exact isRegular_bind h (isRegular_eval opts h)

/-- Being regular is kept by every step of a refinement. -/
theorem assumeInvariant_isRegular (opts : Options) :
    Interval.AssumeInvariant opts (fun _ => True) IsRegular where
  bottom := isRegular_bottom
  join := isRegular_join
  put henv _ hne _ hw := isRegular_put _ henv (hw (isRegular_eval opts henv hne))

theorem isRegular_assume (h : env.IsRegular) (opts : Options) (e : ValueExpr) :
    (env.assume opts e).IsRegular :=
  assume_cases h isRegular_bottom fun _ _ => isRegular_meet
    (Interval.assume_invariant (assumeInvariant_isRegular opts) (fun _ _ => trivial) h) h

/-- The joins of sources may be bottom, but not in the environment that is made of them. -/
theorem isRegular_substitute (h : env.IsRegular) {s : Substitution}
    (hrun : env.substitute s = .ok a) : a.IsRegular := by
  have hreplaced : (ofFunction (replaceAll env.function s)).IsRegular :=
    forall_entries_ofFunction (forall_entries_replaceAll
      (p := fun v : Interval => isBottom v = false → v.IsRegular)
      (fun _ => Interval.isRegular_top) nofun Interval.isRegular_join (fun e he _ => h e he) s)
  unfold substitute at hrun
  split at hrun
  case isTrue =>
    cases hrun
    exact h
  case isFalse =>
    cases hcheck : s.check with
    | ok =>
      rw [hcheck] at hrun
      cases hrun
      exact hreplaced
    | error =>
      rw [hcheck] at hrun
      cases hrun

/-! ## Reachable environments -/

/-- What is done to one environment. -/
inductive Transfer where
  | assign (id : Identifier) (e : ValueExpr)
  | step (e : ValueExpr)
  | assume (e : ValueExpr)
  | forget (id : Identifier)
  | pushScope (token : ScopeToken)
  | popScope (token : ScopeToken)
  | substitute (s : Substitution)

/-- The environment after a transfer. -/
def run (opts : Options) (env : ValueEnv Interval) : Transfer → Outcome (ValueEnv Interval)
  | .assign id e => .ok (env.assign opts id e)
  | .step e => .ok (env.step e)
  | .assume e => .ok (env.assume opts e)
  | .forget id => .ok (env.forget id)
  | .pushScope token => .ok (env.pushScope token)
  | .popScope token => .ok (env.popScope token)
  | .substitute s => env.substitute s

/-- The environments that are made of the empty, the top and the bottom one. -/
inductive Reachable : ValueEnv Interval → Prop where
  | empty : Reachable ∅
  | top : Reachable AbstractLattice.top
  | bottom : Reachable AbstractLattice.bottom
  | run {env a : ValueEnv Interval} (opts : Options) (t : Transfer) :
    Reachable env → env.run opts t = .ok a → Reachable a
  | join {a b : ValueEnv Interval} : Reachable a → Reachable b → Reachable (join a b)
  | meet {a b : ValueEnv Interval} : Reachable a → Reachable b → Reachable (meet a b)
  | widen {a b : ValueEnv Interval} : Reachable a → Reachable b → Reachable (widen a b)

/-- Every transfer keeps an environment regular. -/
theorem isRegular_run (h : env.IsRegular) (t : Transfer) (hrun : env.run opts t = .ok a) :
    a.IsRegular := by
  cases t with
  | assign id e =>
    cases hrun
    exact isRegular_assign h opts id e
  | step e =>
    cases hrun
    exact h
  | assume e =>
    cases hrun
    exact isRegular_assume h opts e
  | forget id =>
    cases hrun
    exact Pointwise.forall_entries_forget h id
  | pushScope token =>
    cases hrun
    exact Pointwise.forall_entries_renameKeys h fun id => some (id.pushScope token)
  | popScope token =>
    cases hrun
    exact Pointwise.forall_entries_renameKeys h (Identifier.popScope? token)
  | substitute s => exact isRegular_substitute h hrun

/-- By induction on how the environment was reached. -/
theorem isRegular_of_reachable (h : Reachable env) : env.IsRegular := by
  induction h with
  | empty => exact isRegular_empty
  | top | bottom => exact fun _ he => nomatch he
  | run opts t _ hrun ih => exact isRegular_run ih t hrun
  | join _ _ iha ihb => exact isRegular_join iha ihb
  | meet _ _ iha ihb => exact isRegular_meet iha ihb
  | widen _ _ iha ihb => exact isRegular_widen iha ihb

/-- No transfer makes anything of the bottom environment. -/
theorem run_of_isBottom (h : isBottom env = true) (opts : Options) (t : Transfer) :
    env.run opts t = .ok env := by
  have hforget (id : Identifier) : env.forget id = env :=
    eq_of_isBottom ((isBottom_forget env id).trans h) h
  have hpush (token : ScopeToken) : env.pushScope token = env :=
    eq_of_isBottom ((isBottom_pushScope env token).trans h) h
  have hpop (token : ScopeToken) : env.popScope token = env :=
    eq_of_isBottom ((isBottom_popScope env token).trans h) h
  cases t with
  | assign id e => simp [run, assign, h]
  | step e => rfl
  | assume e => simp [run, assume, h]
  | forget id => rw [run, hforget]
  | pushScope token => rw [run, hpush]
  | popScope token => rw [run, hpop]
  | substitute s =>
    rw [run, substitute, if_pos h]
    rfl

theorem isBottom_meet (h : isBottom a = true) (b : ValueEnv Interval) :
    isBottom (meet a b) = true ∧ isBottom (meet b a) = true :=
  ⟨LawfulLattice.isBottom_of_le (LawfulLattice.meet_le_left a b) h,
    LawfulLattice.isBottom_of_le (LawfulLattice.meet_le_right b a) h⟩

/-! ## Well-formedness -/

/-- The environments in which a condition and its parts are evaluated while they are assumed. -/
inductive Refined (opts : Options) (env : ValueEnv Interval) : ValueEnv Interval → Prop where
  | start : Refined opts env env
  | assume {a : ValueEnv Interval} (e : ValueExpr) :
    Refined opts env a → Refined opts env (ValueDomain.assume opts e a)
  | assumeNormal {a : ValueEnv Interval} (e : ValueExpr) :
    Refined opts env a → Refined opts env (ValueDomain.assumeNormal opts e a)

theorem isRegular_of_refined (h : env.IsRegular) (hrefined : Refined opts env refined) :
    refined.IsRegular := by
  have hinvariant := assumeInvariant_isRegular opts
  induction hrefined with
  | start => exact h
  | assume e _ ih => exact Interval.assume_invariant hinvariant (fun _ _ => trivial) ih
  | assumeNormal e _ ih =>
    exact Interval.assumeNormal_invariant hinvariant (fun _ _ => trivial) ih

/-- What is known of an environment that an analysis reaches. -/
structure IsWellFormed (env : ValueEnv Interval) : Prop where
  not_top_and_bottom : ¬ (isTop env = true ∧ isBottom env = true)
  entries_of_mark : env.function = .top ∨ env.function = .bottom → env.function.entries = []
  bindings : ∀ e ∈ env.function.entries, isBottom e.2 = false ∧
    ∃ b, e.2 = .range b ∧ b.low ≤ b.high ∧ b.low ≠ .posInf ∧ b.high ≠ .negInf
  /-- All operations but joins and widenings with another environment keep bottom. -/
  stays_bottom : isBottom env = true →
    (∀ opts t, env.run opts t = .ok env) ∧
    (∀ other, isBottom (meet env other) = true ∧ isBottom (meet other env) = true) ∧
    isBottom (join env env) = true ∧ isBottom (widen env env) = true
  /-- Whatever is evaluated, also while a condition is assumed. -/
  summable : ∀ opts refined, Refined opts env refined → ∀ l r a b,
    ValueDomain.eval opts refined l = .range a → ValueDomain.eval opts refined r = .range b →
      a.Summable b

theorem reachable_isWellFormed {env : ValueEnv Interval} (h : Reachable env) :
    env.IsWellFormed where
  not_top_and_bottom := by
    rintro ⟨htop, hbottom⟩
    cases hbottom.symm.trans (LawfulLattice.isBottom_eq_false htop)
  entries_of_mark := by
    rintro (hmark | hmark) <;> rw [hmark] <;> rfl
  bindings e he := by
    obtain ⟨b, hb, hlow, hhigh⟩ := isRegular_of_reachable h e he
    exact ⟨hb ▸ rfl, b, hb, b.low_le_high, hlow, hhigh⟩
  stays_bottom hbottom := by
    refine ⟨run_of_isBottom hbottom, isBottom_meet hbottom, ?_, ?_⟩
    · rwa [join_self]
    · rwa [widen_self]
  summable opts refined hrefined l r a b hl hr := by
    have hregular := isRegular_of_refined (isRegular_of_reachable h) hrefined
    refine Interval.summable_of_isRegular (hl ▸ ?_) (hr ▸ ?_)
    · exact isRegular_eval opts hregular (hl ▸ rfl)
    · exact isRegular_eval opts hregular (hr ▸ rfl)

/-- A counter that is widened. -/
theorem reachable_isWellFormed_counter :
    (widen
      ((∅ : ValueEnv Interval).assign {} (intVar "x") (.const (.int 0) { type := .int32 }))
      ((∅ : ValueEnv Interval).assign {} (intVar "x")
        (.const (.int 1) { type := .int32 }))).IsWellFormed :=
  reachable_isWellFormed
    (.widen (.run {} (.assign _ _) .empty rfl) (.run {} (.assign _ _) .empty rfl))

end ValueEnv

end Overapprox
