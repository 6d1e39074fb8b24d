import Overapprox.Proofs.Env.Agreement

/-!
# Conjunctions and their conjuncts

The conjuncts of a conjunction refine an environment one after the other, with one verdict before
them and one meet after them. When they are assumed one by one, every conjunct has a verdict and a
meet of its own, so the second one starts from values that were cut down to what the environment
allowed. A comparison replaces what it refines, so the second conjunct of a conjunction loses what
the first one found out about an identifier that both refine, and evaluates with values that are no
longer those of the environment. Identifiers that the second conjunct does not refine lose nothing.

A condition may bind an identifier in what is left of an environment that it has emptied; `revives`
finds such conditions.

* `ValueEnv.retains_assumeNormal`: an identifier that a condition does not refine, before the meet.
* `ValueEnv.conjunction_le_iff`: when a conjunction is as precise as its conjuncts one by one.
-/

namespace Overapprox

open AbstractLattice
open scoped LawfulLattice

namespace ValueEnv

variable {opts : Options} {env a b : ValueEnv Interval} {e l r : ValueExpr} {x y : Identifier}
  {note : Annotation}

/-! ## Bindings -/

/-- What a condition leaves binds nothing to bottom. -/
theorem bindsNoBottom_assume (h : env.BindsNoBottom) (opts : Options) (e : ValueExpr) :
    (env.assume opts e).BindsNoBottom := by
  have hinvariant : Interval.AssumeInvariant opts (fun _ => True) BindsNoBottom :=
    ⟨bindsNoBottom_bottom, bindsNoBottom_join, fun henv _ _ hw _ => bindsNoBottom_put henv hw _⟩
  refine assume_cases (p := fun left : ValueEnv Interval => left.BindsNoBottom) h
    bindsNoBottom_bottom fun _ _ => bindsNoBottom_meet ?_ h
  exact Interval.assume_invariant hinvariant (fun _ _ => trivial) h

/-! ## Identifiers that a condition does not refine -/

/-- Whether a condition in normal form binds an identifier in what is left of an environment that it
has emptied, so that something is left again: the right operand of a conjunction does, after the
left one. -/
def revives (opts : Options) : ValueExpr → ValueEnv Interval → Bool
  | .binary .and l r _, env =>
    let first := ValueDomain.assumeNormal opts l env
    revives opts l env || revives opts r first ||
      isBottom first && !isBottom (ValueDomain.assumeNormal opts r first)
  | .binary .or l r _, env => revives opts l env || revives opts r env
  | _, _ => false

theorem revives_and_eq_false_iff :
    revives opts (.binary .and l r note) env = false ↔
      revives opts l env = false ∧ revives opts r (ValueDomain.assumeNormal opts l env) = false ∧
        (isBottom (ValueDomain.assumeNormal opts l env) = true →
          isBottom (ValueDomain.assumeNormal opts r (ValueDomain.assumeNormal opts l env)) =
            true) := by
  rw [revives, Bool.or_eq_false_iff, Bool.or_eq_false_iff, and_assoc]
  refine and_congr_right fun _ => and_congr_right fun _ => ?_
  cases isBottom (ValueDomain.assumeNormal opts l env) with
  | false => exact iff_of_true rfl nofun
  | true => rw [Bool.true_and, Bool.not_eq_false', forall_prop_of_true rfl]

/-- By induction on the condition. What is left of an environment is not bound to anything before a
comparison, as long as nothing is brought back. -/
theorem retains_assumeNormal (hne : isBottom env = false) (hr : revives opts e env = false)
    (he : ∀ x ∈ e.compared, compare y x ≠ .eq) :
    (ValueDomain.assumeNormal opts e env).Retains y (env.get y) := by
  induction e generalizing env with
  | const | ident | any | skip | ternary => exact env.retains_get y
  | unary op e _ => cases op <;> exact env.retains_get y
  | binary op l r note ihl ihr =>
    have hconnective (hop : op.isLogical = true) :
        (∀ x ∈ l.compared, compare y x ≠ .eq) ∧ ∀ x ∈ r.compared, compare y x ≠ .eq := by
      rw [ValueExpr.compared, if_pos hop] at he
      exact ⟨fun x hx => he x (List.mem_append_left _ hx),
        fun x hx => he x (List.mem_append_right _ hx)⟩
    have hcomparison (hop : op.isLogical = false) :
        (Interval.assumeComparison (ValueDomain.eval opts) op l r env).Retains y (env.get y) := by
      refine Interval.assumeComparison_cases (p := fun a : ValueEnv Interval =>
        a.Retains y (env.get y)) (.inl rfl) (env.retains_get y) fun hrefines x _ w hx _ _ _ => ?_
      refine .inr (get_put_of_ne w (he x ?_) (function_ne_bottom hne))
      rw [ValueExpr.compared, hop, if_neg Bool.false_ne_true, if_pos hrefines, hx]
      exact List.mem_singleton_self x
    cases op with
    | and =>
      obtain ⟨hl, hr, hkeep⟩ := revives_and_eq_false_iff.1 hr
      have hleft := ihl hne hl (hconnective rfl).1
      -- The second conjunct is assumed even where the first one left nothing; that it brings
      -- nothing back is what `revives` rules out.
      cases hfirst : isBottom (ValueDomain.assumeNormal opts l env) with
      | true => exact .inl (hkeep hfirst)
      | false =>
        rw [← hleft.get_eq hfirst]
        exact ihr hfirst hr (hconnective rfl).2
    | or =>
      obtain ⟨hl, hr⟩ := Bool.or_eq_false_iff.1 hr
      exact (ihl hne hl (hconnective rfl).1).join (ihr hne hr (hconnective rfl).2)
    | _ => exact hcomparison rfl

theorem retains_refinement (hne : isBottom env = false)
    (hr : revives opts e.removeNegations env = false) (he : ∀ x ∈ e.targets, compare y x ≠ .eq) :
    (ValueDomain.assume opts e env).Retains y (env.get y) := by
  rw [ValueDomain.assume_eq_assumeNormal]
  exact retains_assumeNormal hne hr he

/-! ## Conjunctions -/

/-- The verdict on a conjunction comes from the verdicts of its operands. -/
theorem satisfies_and (hne : isBottom env = false) :
    env.satisfies opts (.binary .and l r note) =
      (env.satisfies opts l).and (env.satisfies opts r) := by
  simp only [satisfies_of_not_isBottom hne, ValueDomain.satisfies]

/-- A conjunction that leaves something has no operand that is refuted or has no value. -/
theorem satisfies_operands (h : isBottom (env.assume opts (.binary .and l r note)) = false) :
    (env.satisfies opts l = .satisfied ∨ env.satisfies opts l = .unknown) ∧
      (env.satisfies opts r = .satisfied ∨ env.satisfies opts r = .unknown) := by
  have hne := LawfulLattice.isBottom_eq_false_of_le (assume_le opts env _) h
  have hverdict := satisfied_or_unknown h
  rw [satisfies_and hne] at hverdict
  generalize env.satisfies opts l = v, env.satisfies opts r = w at hverdict
  cases v <;> cases w <;> simp_all [Verdict.and]

/-- Where the verdict on an operand is open, a conjunction leaves what both operands refine in turn,
up to the meet with the environment. -/
theorem assume_and_eq (h : isBottom (env.assume opts (.binary .and l r note)) = false)
    (hopen : env.satisfies opts l = .unknown ∨ env.satisfies opts r = .unknown) :
    env.assume opts (.binary .and l r note) =
      meet (ValueDomain.assume opts r (ValueDomain.assume opts l env)) env := by
  have hne := LawfulLattice.isBottom_eq_false_of_le (assume_le opts env _) h
  have hunknown : env.satisfies opts (.binary .and l r note) = .unknown := by
    have hoperands := satisfies_operands h
    rw [satisfies_and hne]
    generalize env.satisfies opts l = v, env.satisfies opts r = w at hopen hoperands
    cases v <;> cases w <;> simp_all [Verdict.and]
  rw [assume_of_unknown hunknown]
  rfl

/-- Values are compared at some identifiers and at those that differ from all of them. -/
theorem get_le_of_targets {ts : List Identifier} (ht : ∀ t ∈ ts, a.get t ≤ b.get t)
    (hx : ∀ x, (∀ t ∈ ts, compare x t ≠ .eq) → a.get x ≤ b.get x) (x : Identifier) :
    a.get x ≤ b.get x := by
  by_cases h : ∃ t ∈ ts, compare x t = .eq
  · obtain ⟨t, htmem, hxt⟩ := h
    have ha : a.get x = a.get t := Pointwise.get_congr _ hxt
    have hb : b.get x = b.get t := Pointwise.get_congr _ hxt
    rw [ha, hb]
    exact ht t htmem
  · exact hx x fun t htmem hxt => h ⟨t, htmem, hxt⟩

/-- Nothing is brought back while a conjunction is assumed. -/
structure KeepsBottom (opts : Options) (l r : ValueExpr) (env : ValueEnv Interval) : Prop where
  left : revives opts l.removeNegations env = false
  right : revives opts r.removeNegations (ValueDomain.assume opts l env) = false
  isBottom_of : isBottom (ValueDomain.assume opts l env) = true →
    isBottom (ValueDomain.assume opts r (ValueDomain.assume opts l env)) = true

theorem keepsBottom_of_revives
    (h : revives opts (.binary .and l r note : ValueExpr).removeNegations env = false) :
    KeepsBottom opts l r env := by
  obtain ⟨hl, hr, hkeep⟩ := revives_and_eq_false_iff.1 h
  rw [← ValueDomain.assume_eq_assumeNormal] at hr hkeep
  rw [← ValueDomain.assume_eq_assumeNormal] at hkeep
  exact ⟨hl, hr, hkeep⟩

section Precision

variable (h : env.BindsNoBottom) (hkeep : KeepsBottom opts l r env)
  (hboth : isBottom (env.assume opts (.binary .and l r note)) = false)

include hboth in
/-- What a conjunction leaves is below what its operands refine, one after the other. -/
theorem le_assume_both (hopen : env.satisfies opts l = .unknown ∨ env.satisfies opts r = .unknown) :
    env.assume opts (.binary .and l r note) ≤
      ValueDomain.assume opts r (ValueDomain.assume opts l env) := by
  rw [assume_and_eq hboth hopen]
  exact LawfulLattice.meet_le_left _ env

include hkeep hboth in
theorem isBottom_assume_left
    (hopen : env.satisfies opts l = .unknown ∨ env.satisfies opts r = .unknown) :
    isBottom (ValueDomain.assume opts l env) = false := by
  have hafter := LawfulLattice.isBottom_eq_false_of_le (le_assume_both hboth hopen) hboth
  exact Bool.eq_false_iff.2 fun hbottom => Bool.eq_false_iff.1 hafter (hkeep.isBottom_of hbottom)

include h hkeep hboth in
/-- A conjunction is at least as precise as its first conjunct if it is at the identifiers that the
second one refines. -/
theorem le_assume_left
    (ht : env.satisfies opts l = .unknown → ∀ x ∈ r.targets,
      (env.assume opts (.binary .and l r note)).get x ≤ (ValueDomain.assume opts l env).get x) :
    env.assume opts (.binary .and l r note) ≤ env.assume opts l := by
  have hle := assume_le opts env (.binary .and l r note)
  rcases (satisfies_operands hboth).1 with hsatisfied | hopen
  · rwa [assume_of_satisfied hsatisfied]
  · have hafter := le_assume_both hboth (.inl hopen)
    have hafterne := LawfulLattice.isBottom_eq_false_of_le hafter hboth
    have hne := isBottom_assume_left hkeep hboth (.inl hopen)
    have hrespects := respectsMeets Interval.respectsMeets
      (bindsNoBottom_assume h opts (.binary .and l r note))
    rw [assume_of_unknown hopen]
    refine hrespects.le_meet (le_of_get_le hne ?_) hle
    refine get_le_of_targets (ht hopen) fun x hx => ?_
    have hretains := retains_refinement hne hkeep.right hx
    exact (get_le_get hafter x).trans (hretains.get_eq hafterne).le

include h in
/-- A conjunction that is at least as precise as its first conjunct is so with the second one after
it, if it is at the identifiers that the second one refines. -/
theorem le_assume_right
    (hleft : env.assume opts (.binary .and l r note) ≤ env.assume opts l)
    (hverdict : (env.assume opts l).satisfies opts r = .satisfied ∨
      (env.assume opts l).satisfies opts r = .unknown)
    (ht : (env.assume opts l).satisfies opts r = .unknown →
      isBottom (ValueDomain.assume opts r (env.assume opts l)) = false ∧
        ∀ x ∈ r.targets, (env.assume opts (.binary .and l r note)).get x ≤
          (ValueDomain.assume opts r (env.assume opts l)).get x) :
    env.assume opts (.binary .and l r note) ≤ (env.assume opts l).assume opts r := by
  rcases hverdict with hsatisfied | hopen
  · rwa [assume_of_satisfied hsatisfied]
  · have hrespects := respectsMeets Interval.respectsMeets
      (bindsNoBottom_assume h opts (.binary .and l r note))
    obtain ⟨hne, ht⟩ := ht hopen
    rw [assume_of_unknown hopen]
    refine hrespects.le_meet (le_of_get_le hne (get_le_of_targets ht fun x hx => ?_)) hleft
    have hallows := (allows_assume opts (env.assume opts l) hx).resolve_left
      (Bool.eq_false_iff.1 hne)
    exact (get_le_get hleft x).trans hallows

include h hkeep hboth in
/-- By the agreement of what the first conjunct refines and what is left after it: the second one
does the same to both. -/
theorem le_assume_of_apart (hapart : ∀ x ∈ l.targets, r.mentions x = false) :
    env.assume opts (.binary .and l r note) ≤ (env.assume opts l).assume opts r := by
  have hreads {x : Identifier} (hx : r.mentions x = true) : ∀ t ∈ l.targets, compare x t ≠ .eq := by
    intro t ht heq
    have hsame := ValueExpr.mentions_congr (Std.LawfulBEqOrd.compare_eq_iff_beq.1 heq) r
    rw [hx, hapart t ht] at hsame
    cases hsame
  have hleft : env.assume opts (.binary .and l r note) ≤ env.assume opts l := by
    refine le_assume_left h hkeep hboth fun hopen x hx => ?_
    have hne := isBottom_assume_left hkeep hboth (.inl hopen)
    have hallows := allows_assume opts env (hreads (ValueExpr.mentions_of_mem_targets hx))
    exact (get_le_get (assume_le opts env _) x).trans
      (hallows.resolve_left (Bool.eq_false_iff.1 hne))
  have hleftne := LawfulLattice.isBottom_eq_false_of_le hleft hboth
  have henv := LawfulLattice.isBottom_eq_false_of_le (assume_le opts env l) hleftne
  -- The second conjunct reads nothing that was refined, so it is judged as before.
  have hverdict : (env.assume opts l).satisfies opts r = env.satisfies opts r := by
    rw [satisfies_of_not_isBottom hleftne, satisfies_of_not_isBottom henv]
    exact satisfies_congr fun x hx => (retains_assume opts env (hreads hx)).get_eq hleftne
  refine le_assume_right h hleft (hverdict ▸ (satisfies_operands hboth).2) fun hopen => ?_
  rw [hverdict] at hopen
  have hne := isBottom_assume_left hkeep hboth (.inr hopen)
  have hagree : Agree (fun x => ∀ t ∈ l.targets, compare x t ≠ .eq)
      (ValueDomain.assume opts l env) (env.assume opts l) := by
    refine ⟨hne.trans hleftne.symm, fun {x} hx => ?_⟩
    have hretains := retains_refinement henv hkeep.left hx
    rw [hretains.get_eq hne, (retains_assume opts env hx).get_eq hleftne]
  have hafter : Agree (fun x => ∀ t ∈ l.targets, compare x t ≠ .eq)
      (ValueDomain.assume opts r (ValueDomain.assume opts l env))
      (ValueDomain.assume opts r (env.assume opts l)) := hagree.assume fun x hx => hreads hx
  have hle := le_assume_both hboth (.inr hopen)
  refine ⟨?_, fun x hx => ?_⟩
  · rw [← hafter.isBottom_eq]
    exact LawfulLattice.isBottom_eq_false_of_le hle hboth
  · rw [← hafter.get_eq (hreads (ValueExpr.mentions_of_mem_targets hx))]
    exact get_le_get hle x

end Precision

/-- A conjunction is at least as precise as its first conjunct exactly if it is at the identifiers
that the second one refines, and at least as precise as the conjuncts one by one exactly if it is
at these and the conjuncts leave something where it does. That is so where the second conjunct does
not read what the first one refines. -/
theorem conjunction_le_iff (opts : Options) (l r : ValueExpr) (note : Annotation)
    {env : ValueEnv Interval} (h : env.BindsNoBottom)
    (hr : revives opts (.binary .and l r note : ValueExpr).removeNegations env = false) :
    (env.assume opts (.binary .and l r note) ≤ env.assume opts l ↔
      ∀ x ∈ r.targets, (env.assume opts (.binary .and l r note)).get x ≤
        (env.assume opts l).get x) ∧
    (env.assume opts (.binary .and l r note) ≤ (env.assume opts l).assume opts r ↔
      isBottom (env.assume opts (.binary .and l r note)) = true ∨
        isBottom ((env.assume opts l).assume opts r) = false ∧
          ∀ x ∈ r.targets, (env.assume opts (.binary .and l r note)).get x ≤
            ((env.assume opts l).assume opts r).get x) ∧
    ((∀ x ∈ l.targets, r.mentions x = false) →
      env.assume opts (.binary .and l r note) ≤ (env.assume opts l).assume opts r) := by
  have hkeep := keepsBottom_of_revives hr
  cases hboth : isBottom (env.assume opts (.binary .and l r note)) with
  | true =>
    have hle (a : ValueEnv Interval) : env.assume opts (.binary .and l r note) ≤ a :=
      le_of_isBottom hboth
    exact ⟨iff_of_true (hle _) fun x _ => get_le_get (hle _) x, iff_of_true (hle _) (.inl rfl),
      fun _ => hle _⟩
  | false =>
    -- Only at the identifiers that `r` refines may the conjunction differ from `l` alone.
    have hleft (ht : ∀ x ∈ r.targets, (env.assume opts (.binary .and l r note)).get x ≤
        (env.assume opts l).get x) :
        env.assume opts (.binary .and l r note) ≤ env.assume opts l := by
      refine le_assume_left h hkeep hboth fun hopen x hx => (ht x hx).trans ?_
      rw [assume_of_unknown hopen]
      exact get_le_get (LawfulLattice.meet_le_left _ env) x
    refine ⟨⟨fun hle x _ => get_le_get hle x, hleft⟩, ⟨fun hle => .inr ?_, ?_⟩,
      le_assume_of_apart h hkeep hboth⟩
    · exact ⟨LawfulLattice.isBottom_eq_false_of_le hle hboth, fun x _ => get_le_get hle x⟩
    · rintro (hbottom | ⟨hne, ht⟩)
      · cases hbottom
      · have hle := hleft fun x hx => (ht x hx).trans (get_le_get (assume_le opts _ r) x)
        refine le_assume_right h hle (satisfied_or_unknown hne) fun hopen => ?_
        have hmeet := LawfulLattice.meet_le_left
          (ValueDomain.assume opts r (env.assume opts l)) (env.assume opts l)
        rw [assume_of_unknown hopen] at hne ht
        exact ⟨LawfulLattice.isBottom_eq_false_of_le hmeet hne,
          fun x hx => (ht x hx).trans (get_le_get hmeet x)⟩

/-- A variable between -3 and 10 and another one between 0 and 9. -/
def bounded : ValueEnv Interval :=
  ((∅ : ValueEnv Interval).put (intVar "x") (.ofBounds (.finite (-3)) (.finite 10))).put
    (intVar "y") (.ofBounds 0 (.finite 9))

/-- Conjuncts about two variables. -/
theorem conjunction_le_iff_apart :
    bounded.assume {} (.binary .and (compareInt .ge (intVar "x") 0)
        (compareInt .le (intVar "y") 5) { type := .bool }) ≤
      (bounded.assume {} (compareInt .ge (intVar "x") 0)).assume {}
        (compareInt .le (intVar "y") 5) := by
  have hbound : bounded.BindsNoBottom := by decide
  exact (conjunction_le_iff {} (compareInt .ge (intVar "x") 0) (compareInt .le (intVar "y") 5)
    { type := .bool } hbound (by decide)).2.2 (by decide)

/-- Conjuncts about one variable: the bound of the first one is lost. -/
theorem conjunction_loses_lower_bound :
    ∃ (env : ValueEnv Interval) (l r : ValueExpr), env.BindsNoBottom ∧
      (env.assume {} (.binary .and l r { type := .bool })).get (intVar "x") =
        .ofBounds (.finite (-3)) (.finite 7) ∧
      ((env.assume {} l).assume {} r).get (intVar "x") = .ofBounds (.finite 3) (.finite 7) ∧
      ¬ env.assume {} (.binary .and l r { type := .bool }) ≤ env.assume {} l ∧
      ¬ env.assume {} (.binary .and l r { type := .bool }) ≤ (env.assume {} l).assume {} r := by
  refine ⟨bounded, compareInt .ge (intVar "x") 3, compareInt .le (intVar "x") 7, by decide,
    by decide, by decide, ?_, ?_⟩
  · rw [le_def]
    decide
  · rw [le_def]
    decide

end ValueEnv

end Overapprox
