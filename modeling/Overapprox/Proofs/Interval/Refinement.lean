import Overapprox.Proofs.Concrete.Condition
import Overapprox.Proofs.Interval.Assume

/-!
# Refinement by a condition

A condition that is assumed leaves every valuation under which it can be true. The comparison of an
identifier with a constant, other than `!=`, leaves nothing else of the identifier.

* `Interval.mem_refine`: a comparison with a value leaves what satisfies it.
* `Interval.mem_assume`: so does every condition.
* `Interval.exists_assume_guard`: a guard is assumed through the interval of what satisfies it.
* `Interval.assume_sound_and_exact`: both, for all conditions and guards.
-/

namespace Overapprox

open AbstractLattice

namespace Interval

variable {opts : Options} {env : ValueEnv Interval} {s : Valuation} {id : Identifier}
  {op : BinaryOp} {v : Interval} {n : Int} {e l r : ValueExpr} {note : Annotation}

/-! ## Comparisons -/

/-- Refining an identifier by a comparison that holds keeps the valuation. -/
theorem mem_refine (hs : s ∈ env) (hn : n ∈ v)
    (h : op.isComparison = true → op.compares (s id) n = true) : s ∈ refine op id v env := by
  obtain ⟨b, rfl, hb⟩ := hn
  obtain ⟨hlow, hhigh⟩ := Bounds.contains_iff.1 hb
  cases op with
  | eq =>
    have heq : s id = n := eq_of_beq (h rfl)
    exact ValueEnv.mem_put hs (heq ▸ mem_range.2 hb)
  | ge =>
    have hge : n ≤ s id := of_decide_eq_true (h rfl)
    show s ∈ if b.low = .negInf then env else env.put id (ofBounds b.low .posInf)
    split
    · exact hs
    · refine ValueEnv.mem_put hs (mem_ofBounds.2 ⟨hlow.trans ?_, Extended.le_posInf _⟩)
      exact Extended.finite_le_finite.2 hge
  | gt =>
    have hgt : n < s id := of_decide_eq_true (h rfl)
    show s ∈ if b.low = .negInf then env else env.put id (ofBounds (b.low + 1) .posInf)
    split
    · exact hs
    · refine ValueEnv.mem_put hs (mem_ofBounds.2 ⟨?_, Extended.le_posInf _⟩)
      exact (Extended.add_le_add hlow (Extended.le_refl 1)).trans
        (Extended.finite_le_finite.2 hgt)
  | le =>
    have hle : s id ≤ n := of_decide_eq_true (h rfl)
    refine ValueEnv.mem_put hs (mem_ofBounds.2 ⟨Extended.negInf_le _, ?_⟩)
    exact (Extended.finite_le_finite.2 hle).trans hhigh
  | lt =>
    have hlt : s id < n := of_decide_eq_true (h rfl)
    refine ValueEnv.mem_put hs ?_
    split
    case isTrue hnegInf =>
      -- A range without a lower bound is bound as it is, not cut off below its upper bound.
      rw [mem_range, Bounds.contains_iff, hnegInf]
      exact ⟨Extended.negInf_le _, (Extended.finite_le_finite.2 hlt.le).trans hhigh⟩
    case isFalse =>
      refine mem_ofBounds.2 ⟨Extended.negInf_le _, ?_⟩
      have hpred : s id ≤ n - 1 := by omega
      exact (Extended.finite_le_finite.2 hpred).trans
        (Extended.sub_le_sub hhigh (Extended.le_refl 1))
  | ne | add | sub | mul | div | rem | and | or | concat => exact hs

theorem denotes_identifier {m : Int} (hid : e.identifier? = some id) (h : Denotes s e m) :
    m = s id := by
  cases e with
  | ident i a =>
    cases hid
    cases h
    rfl
  | _ => cases hid

/-- Assuming a comparison that holds keeps the valuation. -/
theorem mem_assumeComparison {m : Int} (hs : s ∈ env) (hl : Denotes s l m) (hr : Denotes s r n)
    (h : op.isComparison = true → op.compares m n = true) :
    s ∈ assumeComparison (ValueDomain.eval opts) op l r env := by
  unfold assumeComparison
  split
  case h_1 hid =>
    rw [denotes_identifier hid hl] at h
    exact mem_refine hs (mem_eval opts hs hr) h
  case h_2 hid =>
    refine mem_refine hs (mem_eval opts hs hl) fun hop => ?_
    rw [isComparison_converse] at hop
    rw [← denotes_identifier hid hr, compares_converse hop]
    exact h hop
  case h_3 => exact hs

/-! ## Conditions -/

/-- By induction on the condition, whose right operand is assumed where the left one already is. -/
theorem mem_assumeNormal (hs : s ∈ env) (h : CanBe (AtomCanBe s) e true) :
    s ∈ ValueDomain.assumeNormal opts e env := by
  induction e generalizing env with
  | const | ident | any | skip | ternary => exact hs
  | unary op e note => cases op <;> exact hs
  | binary op l r note ihl ihr =>
    cases op with
    | and =>
      obtain ⟨c, d, hl, hr, hcd⟩ := canBe_and_iff.1 h
      obtain ⟨rfl, rfl⟩ := Bool.and_eq_true_iff.1 hcd.symm
      exact ihr (ihl hs hl) hr
    | or =>
      obtain ⟨c, d, hl, hr, hcd⟩ := canBe_or_iff.1 h
      rcases Bool.or_eq_true_iff.1 hcd.symm with rfl | rfl
      · exact ValueEnv.mem_of_le (LawfulLattice.le_join_left _ _) (ihl hs hl)
      · exact ValueEnv.mem_of_le (LawfulLattice.le_join_right _ _) (ihr hs hr)
    | _ =>
      obtain ⟨m, n, hl, hr, hcompares⟩ := ((canBe_atom_iff rfl).1 h).operands
      exact mem_assumeComparison hs hl hr hcompares

/-- Assuming a condition that may be true keeps the valuation. -/
theorem mem_assume (opts : Options) (hs : s ∈ env) (h : CanBe (AtomCanBe s) e true) :
    s ∈ ValueDomain.assume opts e env := by
  rw [ValueDomain.assume_eq_assumeNormal]
  exact mem_assumeNormal hs (((canBe_normal_iff AtomCanBe.negate _).1 true).2 h)

/-! ## Guards -/

/-- A comparison, other than `!=`, of the identifier with an integer constant on either side. It
holds where the identifier has an integer of which the predicate is true. -/
inductive Guard (id : Identifier) : ValueExpr → (Int → Bool) → Prop where
  | left (op : BinaryOp) (n : Int) (a b c : Annotation) :
    op.isComparison = true → op ≠ .ne →
      Guard id (.binary op (.ident id a) (.const (.int n) b) c) fun m => op.compares m n
  | right (op : BinaryOp) (n : Int) (a b c : Annotation) :
    op.isComparison = true → op ≠ .ne →
      Guard id (.binary op (.const (.int n) a) (.ident id b) c) fun m => op.compares n m

theorem exists_refine_singleton (id : Identifier) (env : ValueEnv Interval)
    (hop : op.isComparison = true) (hne : op ≠ .ne) (n : Int) :
    ∃ v : Interval, refine op id (singleton n) env = env.put id v ∧ v.IsRegular ∧
      ∀ m, m ∈ v ↔ op.compares m n = true := by
  cases op with
  | eq =>
    refine ⟨singleton n, rfl, isRegular_of_mem (mem_singleton.2 rfl), fun m => ?_⟩
    rw [mem_singleton]
    exact beq_iff_eq.symm
  | ge =>
    refine ⟨_, rfl, isRegular_of_mem (mem_ofBounds_posInf.2 le_rfl), fun m => ?_⟩
    exact mem_ofBounds_posInf.trans decide_eq_true_iff.symm
  | gt =>
    refine ⟨_, rfl, isRegular_of_mem (mem_ofBounds_posInf.2 le_rfl), fun m => ?_⟩
    exact mem_ofBounds_posInf.trans (Int.add_one_le_iff.trans decide_eq_true_iff.symm)
  | le =>
    refine ⟨_, rfl, isRegular_of_mem (mem_ofBounds_negInf.2 le_rfl), fun m => ?_⟩
    exact mem_ofBounds_negInf.trans decide_eq_true_iff.symm
  | lt =>
    refine ⟨_, rfl, isRegular_of_mem (mem_ofBounds_negInf.2 le_rfl), fun m => ?_⟩
    exact mem_ofBounds_negInf.trans (Int.le_sub_one_iff.trans decide_eq_true_iff.symm)
  | ne => exact absurd rfl hne
  | add | sub | mul | div | rem | and | or | concat => cases hop

/-- A guard binds its identifier to the half-line, or the point, that it describes. -/
theorem exists_assume_guard {p : Int → Bool} (h : Guard id e p) (opts : Options)
    (env : ValueEnv Interval) :
    ∃ v : Interval, ValueDomain.assume opts e env = env.put id v ∧ v.IsRegular ∧
      ∀ m, m ∈ v ↔ p m = true := by
  cases h with
  | left op n a b c hop hne =>
    have hassume : ValueDomain.assume opts (.binary op (.ident id a) (.const (.int n) b) c) env =
        refine op id (singleton n) env := by
      cases op with
      | and | or => cases hop
      | _ => rfl
    rw [hassume]
    exact exists_refine_singleton id env hop hne n
  | right op n a b c hop hne =>
    have hassume : ValueDomain.assume opts (.binary op (.const (.int n) a) (.ident id b) c) env =
        refine op.converse id (singleton n) env := by
      cases op with
      | and | or => cases hop
      | _ => rfl
    rw [hassume]
    have hconverse : op.converse ≠ .ne := by
      intro heq
      cases op with
      | ne => exact hne rfl
      | _ => cases heq
    obtain ⟨v, hput, hregular, hmem⟩ := exists_refine_singleton id env
      ((isComparison_converse op).trans hop) hconverse n
    exact ⟨v, hput, hregular, fun m => (hmem m).trans (by rw [compares_converse hop])⟩

/-- Narrowing an identifier leaves the numbers that are in both values. -/
theorem mem_get_meet_put_iff (h : env.IsRegular) :
    n ∈ (meet (env.put id v) env).get id ↔ n ∈ env.get id ∧ n ∈ v := by
  constructor
  · intro hn
    have hleft := ValueEnv.get_le_get (LawfulLattice.meet_le_left (env.put id v) env) id
    rw [ValueEnv.get_put_self] at hleft
    exact ⟨mem_of_le (ValueEnv.get_le_get (LawfulLattice.meet_le_right _ env) id) hn,
      mem_of_le hleft hn⟩
  · rintro ⟨henv, hn⟩
    -- A valuation with this integer lies in both environments, so it is not lost in the meet.
    obtain ⟨s, hs, rfl⟩ := ValueEnv.exists_mem_of_mem_get h henv
    exact ValueEnv.mem_meet (ValueEnv.mem_put hs hn) hs id

/-- Narrowing an identifier leaves nothing exactly when the two values have no number in common. -/
theorem isBottom_meet_put_iff (h : env.IsRegular) (hv : v.IsRegular) :
    isBottom (meet (env.put id v) env) = true ↔ ∀ n, ¬(n ∈ env.get id ∧ n ∈ v) := by
  constructor
  · intro hbottom n hn
    have hmem := (mem_get_meet_put_iff h).2 hn
    rw [ValueEnv.get, Pointwise.isBottom_iff.1 hbottom] at hmem
    exact not_mem_bottom hmem
  · intro hnone
    by_contra hbottom
    have hne : (meet (env.put id v) env).function ≠ .bottom :=
      ValueEnv.function_ne_bottom (Bool.eq_false_iff.2 hbottom)
    have hmeet := ValueEnv.isRegular_meet (ValueEnv.isRegular_put id h hv) h
    have hpick := pick_mem (ValueEnv.isRegular_get hmeet hne id)
    exact hnone _ ((mem_get_meet_put_iff h).1 hpick)

/-- A condition that is assumed leaves the valuations under which it can be true. A guard that is
assumed in a regular environment leaves exactly the integers that satisfy it, and bottom where there
are none. -/
theorem assume_sound_and_exact (opts : Options) (e : ValueExpr) (env : ValueEnv Interval) :
    (∀ s : Valuation, s ∈ env → CanBe (AtomCanBe s) e true →
      s ∈ ValueDomain.assume opts e env ∧ s ∈ meet (ValueDomain.assume opts e env) env) ∧
    (env.IsRegular → ∀ id p, Guard id e p →
      (∀ n, n ∈ (meet (ValueDomain.assume opts e env) env).get id ↔
        n ∈ env.get id ∧ p n = true) ∧
      (isBottom (meet (ValueDomain.assume opts e env) env) = true ↔
        ∀ n, ¬(n ∈ env.get id ∧ p n = true))) := by
  constructor
  · intro s hs h
    have hassume := mem_assume opts hs h
    exact ⟨hassume, ValueEnv.mem_meet hassume hs⟩
  · intro hregular id p hguard
    obtain ⟨v, hput, hv, hmem⟩ := exists_assume_guard hguard opts env
    simp only [hput, ← hmem]
    exact ⟨fun n => mem_get_meet_put_iff hregular, isBottom_meet_put_iff hregular hv⟩

/-- Of a variable between 0 and 9 that is below 5, 4 is left and 5 is lost. -/
theorem assume_below_five :
    ∃ env : ValueEnv Interval, env.IsRegular ∧ 5 ∈ env.get (intVar "x") ∧
      4 ∈ (meet (ValueDomain.assume {} (.binary .lt (.ofIdentifier (intVar "x"))
        (.const (.int 5) { type := .int32 }) { type := .bool }) env) env).get (intVar "x") ∧
      5 ∉ (meet (ValueDomain.assume {} (.binary .lt (.ofIdentifier (intVar "x"))
        (.const (.int 5) { type := .int32 }) { type := .bool }) env) env).get (intVar "x") := by
  have hregular := ValueEnv.isRegular_put (intVar "x") ValueEnv.isRegular_empty
    (isRegular_of_mem (mem_range.2 (Bounds.contains_low ⟨.finite 0, .finite 9, by decide⟩)))
  have hguard : Guard (intVar "x") (.binary .lt (.ofIdentifier (intVar "x"))
      (.const (.int 5) { type := .int32 }) { type := .bool }) fun m => decide (m < 5) :=
    .left .lt 5 _ _ _ rfl (by decide)
  have hexact := ((assume_sound_and_exact {} _ _).2 hregular _ _ hguard).1
  have hmem : ∀ n : Int, 0 ≤ n → n ≤ 9 → n ∈ ((∅ : ValueEnv Interval).put (intVar "x")
      (range ⟨.finite 0, .finite 9, by decide⟩)).get (intVar "x") := by
    intro n hlow hhigh
    rw [ValueEnv.get_put_self, mem_range, Bounds.contains_iff]
    exact ⟨Extended.finite_le_finite.2 hlow, Extended.finite_le_finite.2 hhigh⟩
  refine ⟨_, hregular, hmem 5 (by decide) (by decide), ?_, ?_⟩
  · exact (hexact 4).2 ⟨hmem 4 (by decide) (by decide), rfl⟩
  · exact fun h => absurd ((hexact 5).1 h).2 (by decide)

end Interval

end Overapprox
