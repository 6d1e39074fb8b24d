import Overapprox.Proofs.Env.Frame
import Overapprox.Proofs.Lattice.Keys

/-!
# What environments list

An assignment to an identifier that only holds pointers and heap objects is ignored. A condition
refines such an identifier like any other, and from then on the environment lists it. An identifier
comes back from behind a call with the annotations that it had there, which need not be those of the
hidden identifier that was listed. Nothing else makes an environment list what is not tracked.

* `ValueEnv.mem_keys_assume`: a condition lists nothing but its targets.
* `ValueEnv.bindsTracked_apply_iff`: when a change lists nothing but tracked identifiers.
* `Derivation.binds_tracked_iff`: which environments list nothing but tracked identifiers.
-/

namespace Overapprox

open AbstractLattice

variable {opts : Options}

/-! ## Identifiers -/

/-- Whether an identifier is tracked, and so are those that it hides. -/
def Identifier.isTrackedThroughout : Identifier → Bool
  | .outOfScope s i a => ValueDomain.tracks Interval (.outOfScope s i a) && i.isTrackedThroughout
  | x => ValueDomain.tracks Interval x

theorem Identifier.tracks_of_isTrackedThroughout {x : Identifier}
    (h : x.isTrackedThroughout = true) : ValueDomain.tracks Interval x = true := by
  cases x with
  | outOfScope => exact (Bool.and_eq_true_iff.1 h).1
  | _ => exact h

/-- A hidden identifier has the annotations of the one that it hides. -/
theorem Identifier.tracks_pushScope (token : ScopeToken) (x : Identifier) :
    ValueDomain.tracks Interval (x.pushScope token) = ValueDomain.tracks Interval x := by
  cases x <;> rfl

theorem Identifier.isTrackedThroughout_pushScope {x : Identifier} (token : ScopeToken)
    (h : x.isTrackedThroughout = true) : (x.pushScope token).isTrackedThroughout = true := by
  cases x with
  | heap | pointer => exact h
  | var => exact Bool.and_eq_true_iff.2 ⟨h, h⟩
  | outOfScope =>
    have htracked := tracks_of_isTrackedThroughout h
    exact Bool.and_eq_true_iff.2 ⟨htracked, h⟩

/-- What is tracked together with all that it hides is so after a return too. -/
theorem Identifier.isTrackedThroughout_of_popScope? {x y : Identifier} {token : ScopeToken}
    (h : x.isTrackedThroughout = true) (hpop : x.popScope? token = some y) :
    y.isTrackedThroughout = true := by
  cases x with
  | var => cases hpop
  | heap | pointer =>
    cases hpop
    exact h
  | outOfScope s i a =>
    rw [popScope?] at hpop
    split at hpop
    · cases hpop
      exact (Bool.and_eq_true_iff.1 h).2
    · cases hpop

/-! ## Changes of one environment -/

namespace ValueEnv

variable {env a b : ValueEnv Interval} {x y : Identifier} {e : ValueExpr}

/-- A condition brings in no identifiers but those that it compares. -/
theorem mem_keys_assume (h : y ∈ (env.assume opts e).keys) : y ∈ env.keys ∨ y ∈ e.targets := by
  have hinvariant : Interval.AssumeInvariant opts (· ∈ e.targets)
      fun a => ∀ y ∈ a.keys, y ∈ env.keys ∨ y ∈ e.targets := by
    refine ⟨fun _ hy => (nomatch hy), fun ha hb y hy => ?_, fun ha hx _ _ _ y hy => ?_⟩
    · exact (mem_keys_join hy).elim (ha y) (hb y)
    · rcases Pointwise.mem_keys_put hy with rfl | hy
      · exact .inr hx
      · exact ha y hy
  revert h
  refine assume_cases (p := fun a : ValueEnv Interval =>
    y ∈ a.keys → y ∈ env.keys ∨ y ∈ e.targets) .inl (fun hy => nomatch hy) fun _ _ hy => ?_
  have hassume := Interval.assume_invariant hinvariant (fun _ hx => hx) fun _ => .inl
  exact (mem_keys_meet hy).elim (hassume y) .inl

/-- Only identifiers that the domain tracks are listed. -/
def BindsTracked (env : ValueEnv Interval) : Prop :=
  ∀ x ∈ env.keys, ValueDomain.tracks Interval x = true

instance (env : ValueEnv Interval) : Decidable env.BindsTracked :=
  inferInstanceAs (Decidable (∀ x ∈ env.keys, ValueDomain.tracks Interval x = true))

/-- What is done to one environment, apart from substitutions. -/
inductive Change where
  | assign (id : Identifier) (e : ValueExpr)
  | step (e : ValueExpr)
  | assume (e : ValueExpr)
  | forget (id : Identifier)
  | pushScope (token : ScopeToken)
  | popScope (token : ScopeToken)

/-- The environment after a change. -/
def Change.apply (opts : Options) (env : ValueEnv Interval) : Change → ValueEnv Interval
  | .assign id e => env.assign opts id e
  | .step e => env.step e
  | .assume e => env.assume opts e
  | .forget id => env.forget id
  | .pushScope token => env.pushScope token
  | .popScope token => env.popScope token

/-- The targets of a condition that are listed after it are tracked, and so are the identifiers that
come back from behind a call. -/
def Change.ListsTracked (opts : Options) (env : ValueEnv Interval) : Change → Prop
  | .assume e => ∀ x ∈ e.targets, x ∈ (env.assume opts e).keys →
      ValueDomain.tracks Interval x = true
  | .popScope token => ∀ x ∈ env.keys, ∀ y, x.popScope? token = some y →
      y ∈ (env.popScope token).keys → ValueDomain.tracks Interval y = true
  | _ => True

/-- The identifiers that are assigned to, and the targets of conditions, are tracked throughout. An
assignment that is ignored anyway may have any target. -/
def Change.namesTracked : Change → Bool
  | .assign id _ => !ValueDomain.tracks Interval id || id.isTrackedThroughout
  | .assume e => e.targets.all Identifier.isTrackedThroughout
  | _ => true

/-- A change keeps to tracked identifiers exactly when those that it lists are tracked. -/
theorem bindsTracked_apply_iff (h : env.BindsTracked) (c : Change) :
    (c.apply opts env).BindsTracked ↔ c.ListsTracked opts env := by
  cases c with
  | assign id e =>
    refine iff_of_true (fun x hx => ?_) trivial
    rcases mem_keys_assign hx with ⟨rfl, htracked⟩ | hx
    · exact htracked
    · exact h x hx
  | step e => exact iff_of_true h trivial
  | assume e =>
    refine ⟨fun hafter x _ hx => hafter x hx, fun hlists x hx => ?_⟩
    rcases mem_keys_assume hx with hold | htarget
    · exact h x hold
    · exact hlists x htarget hx
  | forget id => exact iff_of_true (fun x hx => h x (mem_keys_forget hx)) trivial
  | pushScope token =>
    refine iff_of_true (fun y hy => ?_) trivial
    obtain ⟨x, hx, rfl⟩ := mem_keys_pushScope hy
    rw [Identifier.tracks_pushScope]
    exact h x hx
  | popScope token =>
    refine ⟨fun hafter _ _ y _ hy => hafter y hy, fun hlists y hy => ?_⟩
    obtain ⟨x, hx, hpop⟩ := mem_keys_popScope hy
    exact hlists x hx y hpop hy

theorem isTrackedThroughout_apply (h : ∀ x ∈ env.keys, x.isTrackedThroughout = true) {c : Change}
    (hc : c.namesTracked = true) : ∀ x ∈ (c.apply opts env).keys, x.isTrackedThroughout = true := by
  intro x hx
  cases c with
  | assign id e =>
    rcases mem_keys_assign hx with ⟨rfl, htracked⟩ | hx
    · rwa [Change.namesTracked, htracked, Bool.not_true, Bool.false_or] at hc
    · exact h x hx
  | step e => exact h x hx
  | assume e => exact (mem_keys_assume hx).elim (h x) (List.all_eq_true.1 hc x)
  | forget id => exact h x (mem_keys_forget hx)
  | pushScope token =>
    obtain ⟨y, hy, rfl⟩ := mem_keys_pushScope hx
    exact Identifier.isTrackedThroughout_pushScope token (h y hy)
  | popScope token =>
    obtain ⟨y, hy, hpop⟩ := mem_keys_popScope hx
    exact Identifier.isTrackedThroughout_of_popScope? (h y hy) hpop

end ValueEnv

/-! ## Derivations -/

/-- How one environment is made of two. -/
inductive ValueEnv.Combination where
  | join
  | meet
  | widen

/-- The environment that is made of two. -/
def ValueEnv.Combination.apply (a b : ValueEnv Interval) : Combination → ValueEnv Interval
  | join => AbstractLattice.join a b
  | meet => AbstractLattice.meet a b
  | widen => AbstractLattice.widen a b

/-- Combining two environments brings in no identifiers. -/
theorem ValueEnv.mem_keys_combine {a b : ValueEnv Interval} {c : Combination} {x : Identifier}
    (h : x ∈ (c.apply a b).keys) : x ∈ a.keys ∨ x ∈ b.keys := by
  cases c with
  | join => exact mem_keys_join h
  | meet => exact mem_keys_meet h
  | widen => exact mem_keys_widen h

/-- How an environment is derived from new ones. -/
inductive Derivation where
  | new
  | change (c : ValueEnv.Change) (d : Derivation)
  | combine (c : ValueEnv.Combination) (l r : Derivation)

namespace Derivation

variable {c : ValueEnv.Change} {d t u : Derivation}

/-- The environment that is derived. -/
def env (opts : Options) : Derivation → ValueEnv Interval
  | new => ∅
  | change c d => c.apply opts (d.env opts)
  | combine c l r => c.apply (l.env opts) (r.env opts)

/-- The derivations of all the environments on the way, the last one included. -/
def parts : Derivation → List Derivation
  | new => [new]
  | change c d => change c d :: d.parts
  | combine c l r => combine c l r :: (l.parts ++ r.parts)

/-- The last change lists nothing but tracked identifiers. -/
def ListsTracked (opts : Options) : Derivation → Prop
  | change c d => c.ListsTracked opts (d.env opts)
  | _ => True

/-- The last change is about nothing but identifiers that are tracked throughout. -/
def namesTracked : Derivation → Bool
  | change c _ => c.namesTracked
  | _ => true

theorem mem_parts_self (d : Derivation) : d ∈ d.parts := by
  cases d <;> exact List.mem_cons_self

theorem parts_subset (h : t ∈ d.parts) : t.parts ⊆ d.parts := by
  induction d with
  | new =>
    cases List.mem_singleton.1 h
    exact fun _ hu => hu
  | change c d ih =>
    rcases List.mem_cons.1 h with rfl | h
    · exact fun _ hu => hu
    · exact List.subset_cons_of_subset _ (ih h)
  | combine c l r ihl ihr =>
    rcases List.mem_cons.1 h with rfl | h
    · exact fun _ hu => hu
    · refine List.subset_cons_of_subset _ ?_
      rcases List.mem_append.1 h with h | h
      · exact List.subset_append_of_subset_left _ (ihl h)
      · exact List.subset_append_of_subset_right _ (ihr h)

/-- A property of identifiers that all changes keep holds of all that is listed. By induction on the
derivation; what is listed in an environment that is made of two was listed in one of them. -/
theorem forall_keys_of_changes {p : Identifier → Prop}
    (h : ∀ c t, change c t ∈ d.parts → (∀ x ∈ (t.env opts).keys, p x) →
      ∀ x ∈ (c.apply opts (t.env opts)).keys, p x) : ∀ x ∈ (d.env opts).keys, p x := by
  induction d with
  | new => exact fun _ hx => nomatch hx
  | change c d ih =>
    have hbefore := ih fun c' t hmem => h c' t (List.mem_cons_of_mem _ hmem)
    exact h c d (mem_parts_self _) hbefore
  | combine c l r ihl ihr =>
    have hl := ihl fun c t hmem => h c t (List.mem_cons_of_mem _ (List.mem_append_left _ hmem))
    have hr := ihr fun c t hmem => h c t (List.mem_cons_of_mem _ (List.mem_append_right _ hmem))
    exact fun x hx => (ValueEnv.mem_keys_combine hx).elim (hl x) (hr x)

/-- The environments on the way list nothing but tracked identifiers exactly when no condition and
no return from a call lists another one. None does where the identifiers that are assigned to and
the targets of conditions are tracked, and so are those that they hide. -/
theorem binds_tracked_iff (opts : Options) (d : Derivation) :
    ((∀ t ∈ d.parts, (t.env opts).BindsTracked) ↔ ∀ t ∈ d.parts, t.ListsTracked opts) ∧
    ((∀ t ∈ d.parts, t.namesTracked = true) → ∀ t ∈ d.parts, (t.env opts).BindsTracked) := by
  refine ⟨⟨fun h t ht => ?_, fun h t ht => ?_⟩, fun h t ht => ?_⟩
  · cases t with
    | new | combine => trivial
    | change c u =>
      have hu : u ∈ d.parts := parts_subset ht (List.mem_cons_of_mem _ (mem_parts_self u))
      exact (ValueEnv.bindsTracked_apply_iff (h u hu) c).1 (h _ ht)
  · refine forall_keys_of_changes fun c u hu hbefore => ?_
    exact (ValueEnv.bindsTracked_apply_iff hbefore c).2 (h _ (parts_subset ht hu))
  · refine fun x hx => Identifier.tracks_of_isTrackedThroughout ?_
    refine forall_keys_of_changes (p := fun x => x.isTrackedThroughout = true) ?_ x hx
    exact fun c u hu hbefore =>
      ValueEnv.isTrackedThroughout_apply hbefore (h _ (parts_subset ht hu))

/-- A reference to one unit. -/
def pointerVar : Identifier := .var "p" { type := .referenceTo (.ofList [.unit "A"]) }

/-- A variable that a condition refines is hidden and shown again, and a reference is assigned
to. -/
theorem binds_tracked_iff_of_variables :
    ∀ t ∈ (change (.assign pointerVar (.const (.int 5) { type := .int32 }))
        (change (.popScope ⟨.synthetic⟩) (change (.pushScope ⟨.synthetic⟩)
          (change (.assume (compareInt .eq (intVar "x") 5)) new)))).parts,
      (t.env {}).BindsTracked :=
  (binds_tracked_iff {} _).2 (by decide)

/-- A condition on a reference makes an environment list it. -/
theorem condition_binds_reference :
    ∃ (d : Derivation) (x : Identifier), (d.env {}).keys = [x] ∧
      ValueDomain.tracks Interval x = false ∧ ¬ (d.env {}).BindsTracked :=
  ⟨change (.assume (compareInt .eq pointerVar 5)) new, pointerVar, by decide, by decide, by decide⟩

end Derivation

end Overapprox
