import Overapprox.Proofs.Interval.Evaluation

/-!
# Regular intervals and environments

An interval is regular when an integer lies in it, which is seen from its bounds. In an environment
of regular intervals every integer of an identifier is one that some valuation gives to it.

* `Interval.isRegular_iff`: an interval is regular exactly when it contains an integer.
* `Interval.isRegular_binary`: the operators on regular intervals.
* `ValueEnv.isRegular_meet`: a meet of regular environments is regular.
* `ValueEnv.isRegular_eval`: in regular environments values are bottom or regular.
* `ValueEnv.exists_mem_of_mem_get`: the valuation that gives an integer to an identifier.
-/

namespace Overapprox

open AbstractLattice
open scoped LawfulLattice

theorem Extended.finite_succ_le_iff {n : Extended} {k : Int} :
    finite (k + 1) ≤ n ↔ ¬ n ≤ finite k := by
  cases n with
  | negInf | posInf => simp
  | finite m =>
    rw [finite_le_finite, finite_le_finite]
    omega

/-! ## Intervals -/

namespace Interval

/-- The interval is not empty, and neither of its bounds is the infinity of the other side. -/
def IsRegular (v : Interval) : Prop :=
  ∃ b, v = range b ∧ b.low ≠ .posInf ∧ b.high ≠ .negInf

/-- An integer of a regular interval. -/
def pick : Interval → Int
  | range ⟨.finite n, _, _⟩ => n
  | range ⟨_, .finite n, _⟩ => n
  | _ => 0

variable {v w : Interval} {n : Int}

theorem isRegular_range_iff {b : Bounds} :
    (range b).IsRegular ↔ b.low ≠ .posInf ∧ b.high ≠ .negInf :=
  ⟨fun ⟨_, hb, h⟩ => by cases hb; exact h, fun h => ⟨b, rfl, h⟩⟩

theorem pick_mem (h : v.IsRegular) : v.pick ∈ v := by
  obtain ⟨⟨low, high, hle⟩, rfl, hlow, hhigh⟩ := h
  rw [mem_range, Bounds.contains_iff]
  cases low with
  | posInf => exact absurd rfl hlow
  | finite m => exact ⟨le_rfl, hle⟩
  | negInf => cases high with
    | negInf => exact absurd rfl hhigh
    | finite m => exact ⟨hle, le_rfl⟩
    | posInf => exact ⟨Extended.negInf_le _, Extended.le_posInf _⟩

theorem isRegular_of_mem (h : n ∈ v) : v.IsRegular := by
  obtain ⟨b, rfl, hn⟩ := h
  obtain ⟨hlow, hhigh⟩ := Bounds.contains_iff.1 hn
  refine ⟨b, rfl, fun hposInf => ?_, fun hnegInf => ?_⟩
  · rw [hposInf] at hlow
    cases le_antisymm hlow (Extended.le_posInf _)
  · rw [hnegInf] at hhigh
    cases le_antisymm hhigh (Extended.negInf_le _)

/-- A value is regular exactly when it has a member. -/
theorem isRegular_iff : v.IsRegular ↔ ∃ n, n ∈ v :=
  ⟨fun h => ⟨v.pick, pick_mem h⟩, fun ⟨_, h⟩ => isRegular_of_mem h⟩

theorem isRegular_top : (AbstractLattice.top : Interval).IsRegular :=
  isRegular_of_mem (mem_top 0)

/-- Above a regular value there are only regular ones. -/
theorem isRegular_of_le (hv : v.IsRegular) (h : v ≤ w) : w.IsRegular := by
  obtain ⟨n, hn⟩ := isRegular_iff.1 hv
  exact isRegular_of_mem (mem_of_le h hn)

theorem isRegular_join (hv : isBottom v = false → v.IsRegular)
    (hw : isBottom w = false → w.IsRegular) (hne : isBottom (join v w) = false) :
    (join v w).IsRegular := by
  cases hvne : isBottom v with
  | false => exact isRegular_of_le (hv hvne) (LawfulLattice.le_join_left v w)
  | true => cases hwne : isBottom w with
    | false => exact isRegular_of_le (hw hwne) (LawfulLattice.le_join_right v w)
    | true =>
      rw [join_of_isBottom_right hwne, hvne] at hne
      cases hne

/-- A meet of regular values is regular or bottom, since its bounds are bounds of its operands. -/
theorem isRegular_meet (hv : v.IsRegular) (hw : w.IsRegular)
    (h : isBottom (meet v w) = false) : (meet v w).IsRegular := by
  obtain ⟨a, rfl, halow, hahigh⟩ := hv
  obtain ⟨b, rfl, hblow, hbhigh⟩ := hw
  rw [meet_range] at h ⊢
  rcases le_or_gt (max a.low b.low) (min a.high b.high) with hle | hlt
  · rw [ofBounds_of_le hle]
    have hlow : max a.low b.low ≠ .posInf := by
      rcases max_choice a.low b.low with hmax | hmax <;> rwa [hmax]
    have hhigh : min a.high b.high ≠ .negInf := by
      rcases min_choice a.high b.high with hmin | hmin <;> rwa [hmin]
    exact ⟨_, rfl, hlow, hhigh⟩
  · rw [ofBounds_of_lt hlt] at h
    cases h

/-! ### Operators -/

theorem isRegular_unary {op : UnaryOp} (h : v.IsRegular) : (unary op v).IsRegular := by
  obtain ⟨n, hn⟩ := isRegular_iff.1 h
  cases op with
  | neg => exact isRegular_of_mem (mem_unary hn (n := -n) rfl)
  | not => exact isRegular_of_mem (mem_unary hn (n := 0) trivial)
  | strlen => exact isRegular_of_mem (mem_unary hn (n := 0) (Int.le_refl 0))

/-- An interval of integers other than zero alone has one that is not zero. -/
theorem exists_mem_ne_zero {b : Bounds} (h : (range b).IsRegular) (hzero : b.isZero = false) :
    ∃ n ≠ 0, n ∈ range b := by
  obtain ⟨n, hn⟩ := isRegular_iff.1 h
  by_cases hn0 : n = 0
  · subst hn0
    obtain ⟨low, high, hle⟩ := b
    rw [mem_range, Bounds.contains_iff] at hn
    obtain ⟨hlow, hhigh⟩ : low ≤ .finite 0 ∧ .finite 0 ≤ high := hn
    -- Unless both bounds are zero, the interval reaches one or minus one.
    by_cases hone : Extended.finite 1 ≤ high
    · exact ⟨1, by decide, mem_range.2 (Bounds.contains_iff.2
        ⟨hlow.trans (Extended.finite_le_finite.2 (by decide)), hone⟩)⟩
    by_cases hneg : low ≤ .finite (-1)
    · exact ⟨-1, by decide, mem_range.2 (Bounds.contains_iff.2
        ⟨hneg, (Extended.finite_le_finite.2 (by decide)).trans hhigh⟩)⟩
    have hlow' : low = .finite 0 := le_antisymm hlow (Extended.finite_succ_le_iff.2 hneg)
    have hhigh' : high = .finite 0 := by
      refine le_antisymm ?_ hhigh
      by_contra hpos
      exact hone (Extended.finite_succ_le_iff.2 hpos)
    subst hlow' hhigh'
    cases hzero
  · exact ⟨n, hn0, hn⟩

/-- A quotient by zero alone is bottom; every other result of regular intervals contains that of
some of their integers. -/
theorem isRegular_binary {opts : Options} {op : BinaryOp} (hv : v.IsRegular) (hw : w.IsRegular)
    (hne : isBottom (binary opts op v w) = false) : (binary opts op v w).IsRegular := by
  obtain ⟨m, hm⟩ := isRegular_iff.1 hv
  obtain ⟨n, hn⟩ := isRegular_iff.1 hw
  cases op with
  | add => exact isRegular_of_mem (mem_binary opts hm hn (k := m + n) rfl)
  | sub => exact isRegular_of_mem (mem_binary opts hm hn (k := m - n) rfl)
  | mul => exact isRegular_of_mem (mem_binary opts hm hn (k := m * n) rfl)
  | div =>
    obtain ⟨a, rfl, -⟩ := hm
    obtain ⟨b, rfl, -⟩ := hn
    cases hzero : b.isZero with
    | true =>
      have hbottom : binary opts .div (range a) (range b) = bottom := by simp [binary, hzero]
      rw [hbottom] at hne
      cases hne
    | false =>
      obtain ⟨k, hk, hmem⟩ := exists_mem_ne_zero hw hzero
      exact isRegular_of_mem (mem_binary opts (pick_mem hv) hmem ⟨hk, rfl⟩)
  | rem | eq | ne | lt | le | gt | ge | and | or | concat =>
    exact isRegular_of_mem (mem_binary opts hm hn (k := 0) trivial)

end Interval

/-! ## Sums of bounds -/

/-- No bound of the sum or of the difference of two intervals is a sum of opposite infinities. -/
structure Bounds.Summable (a b : Bounds) : Prop where
  add_low : ¬ Extended.Opposite a.low b.low
  add_high : ¬ Extended.Opposite a.high b.high
  sub_low : ¬ Extended.Opposite a.low (-b.high)
  sub_high : ¬ Extended.Opposite a.high (-b.low)

/-- Sums of regular ranges never add opposite infinities at a bound. -/
theorem Interval.summable_of_isRegular {a b : Bounds} (ha : (range a).IsRegular)
    (hb : (range b).IsRegular) : a.Summable b := by
  obtain ⟨halow, hahigh⟩ := isRegular_range_iff.1 ha
  obtain ⟨hblow, hbhigh⟩ := isRegular_range_iff.1 hb
  exact {
    add_low := Extended.not_opposite_of_ne_posInf halow hblow
    add_high := Extended.not_opposite_of_ne_negInf hahigh hbhigh
    sub_low := Extended.not_opposite_of_ne_posInf halow (mt Extended.neg_eq_posInf_iff.1 hbhigh)
    sub_high := Extended.not_opposite_of_ne_negInf hahigh
      (mt Extended.neg_eq_negInf_iff.1 hblow) }

/-! ## Environments -/

namespace ValueEnv

/-- Every identifier that is bound is bound to a regular interval. -/
def IsRegular (env : ValueEnv Interval) : Prop := ∀ e ∈ env.function.entries, e.2.IsRegular

variable {env a b : ValueEnv Interval} {id : Identifier} {v : Interval} {n : Int}

theorem isRegular_get (h : env.IsRegular) (hne : env.function ≠ .bottom) (id : Identifier) :
    (env.get id).IsRegular :=
  Pointwise.get_cases (p := Interval.IsRegular) hne Interval.isRegular_top
    (OrdMap.forall_entries_iff.1 h id)

theorem isRegular_get_of_not_isBottom (h : env.IsRegular) (hne : isBottom (env.get id) = false) :
    (env.get id).IsRegular :=
  Pointwise.get_of_forall_entries (p := fun v => isBottom v = false → v.IsRegular)
    (fun _ => Interval.isRegular_top) nofun (fun e he _ => h e he) id hne

theorem isRegular_empty : IsRegular ∅ := fun _ he => nomatch he

theorem isRegular_put (id : Identifier) (h : env.IsRegular) (hv : v.IsRegular) :
    (env.put id v).IsRegular :=
  Pointwise.forall_entries_put h hv

theorem isRegular_meet (ha : a.IsRegular) (hb : b.IsRegular) : (meet a b).IsRegular := by
  refine meet_cases (p := IsRegular) (fun _ => ha) (fun _ => hb) fun _ _ =>
    forall_entries_ofFunction ?_
  refine Pointwise.forall_entries_meet (p := fun u => isBottom u = false → u.IsRegular)
    (fun e he _ => ha e he) (fun e he _ => hb e he) fun {v w} hv hw hne => ?_
  have hvne := LawfulLattice.isBottom_eq_false_of_le (LawfulLattice.meet_le_left v w) hne
  have hwne := LawfulLattice.isBottom_eq_false_of_le (LawfulLattice.meet_le_right v w) hne
  exact Interval.isRegular_meet (hv hvne) (hw hwne) hne

/-- By induction on the expression: operands that are not bottom are regular. -/
theorem isRegular_eval (opts : Options) (h : env.IsRegular) {e : ValueExpr}
    (hne : isBottom (ValueDomain.eval opts env e) = false) :
    (ValueDomain.eval opts env e).IsRegular := by
  induction e with
  | const c a =>
    cases c with
    | int n => exact Interval.isRegular_of_mem (Interval.mem_singleton.2 rfl)
    | null | bool | str => exact Interval.isRegular_top
  | ident id a => exact isRegular_get_of_not_isBottom h hne
  | any => exact Interval.isRegular_top
  | skip => cases hne
  | unary op e a ih =>
    rw [ValueDomain.eval] at hne ⊢
    split at hne
    case isTrue hbottom => cases hbottom.symm.trans hne
    case isFalse he =>
      rw [if_neg he]
      exact Interval.isRegular_unary (ih (Bool.eq_false_iff.2 he))
  | binary op l r a ihl ihr =>
    rw [ValueDomain.eval] at hne ⊢
    split at hne
    case isTrue hbottom => cases hbottom.symm.trans hne
    case isFalse hl =>
      split at hne
      case isTrue hbottom => cases hbottom.symm.trans hne
      case isFalse hr =>
        rw [if_neg hl, if_neg hr]
        -- A division by zero alone gives bottom, so the result has to be known not to be that.
        exact Interval.isRegular_binary (ihl (Bool.eq_false_iff.2 hl))
          (ihr (Bool.eq_false_iff.2 hr)) hne
  | ternary op l m r a =>
    rw [ValueDomain.eval] at hne ⊢
    split at hne
    case isTrue => cases hne
    case isFalse hoperands =>
      rw [if_neg hoperands]
      exact Interval.isRegular_top

/-- In a regular environment every integer of an identifier belongs to a valuation. -/
theorem exists_mem_of_mem_get (h : env.IsRegular) (hn : n ∈ env.get id) :
    ∃ s : Valuation, s ∈ env ∧ s id = n := by
  have hne : env.function ≠ .bottom := by
    intro hf
    rw [get, hf] at hn
    exact Interval.not_mem_bottom hn
  refine ⟨⟨fun i => if compare i id = .eq then n else (env.get i).pick, fun {i j} hij => ?_⟩,
    fun i => ?_, if_pos Std.ReflCmp.compare_self⟩
  · have hcompare : compare i j = .eq := Std.LawfulBEqOrd.compare_eq_iff_beq.2 hij
    have hget : env.get i = env.get j := Pointwise.get_congr _ hcompare
    rw [compare_congr_left hcompare, hget]
  · show (if compare i id = .eq then n else (env.get i).pick) ∈ env.get i
    split
    case isTrue hi =>
      have hget : env.get i = env.get id := Pointwise.get_congr _ hi
      rwa [hget]
    case isFalse => exact Interval.pick_mem (isRegular_get h hne i)

end ValueEnv

end Overapprox
