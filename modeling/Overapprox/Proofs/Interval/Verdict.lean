import Overapprox.Proofs.Domain.Verdict
import Overapprox.Proofs.Interval.Evaluation

/-!
# Verdicts on conditions over intervals

The verdict on a condition should allow whatever the condition may be. It does for all comparisons
but `>`, which is judged as `<=` on exchanged operands: where the least integer of the left operand
is the greatest one of the right operand the verdict is that `>` holds, although the operands may be
equal.

* `Interval.allows_judge`: the verdicts on the other comparisons are sound.
* `Interval.allows_judge_gt_iff`: the verdict on `>` is sound exactly where the operands are not the
  integer at which their intervals touch.
* `Interval.verdicts_sound_iff`: the verdicts on a condition and its parts are sound exactly when no
  `>` among them is judged at such an integer.
-/

namespace Overapprox

open AbstractLattice

/-! ## Comparisons of bounds -/

namespace Interval

variable {a b : Bounds} {m n : Int}

theorem isBottom_ofBounds_iff {low high : Extended} :
    isBottom (ofBounds low high) = true ↔ high < low := by
  rcases le_or_gt low high with h | h
  · rw [ofBounds_of_le h]
    exact iff_of_false nofun (not_lt_of_ge h)
  · rw [ofBounds_of_lt h]
    exact iff_of_true rfl h

/-- Intervals without a common number lie on two sides, and so do their integers. -/
theorem sides_of_isBottom_meet (h : isBottom (meet (range a) (range b)) = true)
    (hm : a.contains (.finite m) = true) (hn : b.contains (.finite n) = true) :
    (a.high < b.low ∧ a.low < b.high ∧ m < n) ∨ (b.high < a.low ∧ b.low < a.high ∧ n < m) := by
  rw [meet_range, isBottom_ofBounds_iff, min_lt_iff, lt_max_iff, lt_max_iff] at h
  obtain ⟨hmlow, hmhigh⟩ := Bounds.contains_iff.1 hm
  obtain ⟨hnlow, hnhigh⟩ := Bounds.contains_iff.1 hn
  have ha := not_lt_of_ge a.low_le_high
  have hb := not_lt_of_ge b.low_le_high
  have hside : a.high < b.low ∨ b.high < a.low := by
    rcases h with (h | h) | h | h
    · exact absurd h ha
    · exact .inl h
    · exact .inr h
    · exact absurd h hb
  refine hside.imp (fun h => ?_) fun h => ?_
  · have hmn := hmhigh.trans_lt (h.trans_le hnlow)
    exact ⟨h, a.low_le_high.trans_lt (h.trans_le b.low_le_high), Extended.finite_lt_finite.1 hmn⟩
  · have hnm := hnhigh.trans_lt (h.trans_le hmlow)
    exact ⟨h, b.low_le_high.trans_lt (h.trans_le a.low_le_high), Extended.finite_lt_finite.1 hnm⟩

theorem ne_of_isBottom_meet (h : isBottom (meet (range a) (range b)) = true)
    (hm : a.contains (.finite m) = true) (hn : b.contains (.finite n) = true) : m ≠ n := by
  rcases sides_of_isBottom_meet h hm hn with ⟨-, -, hmn⟩ | ⟨-, -, hmn⟩
  · exact hmn.ne
  · exact hmn.ne'

/-- The verdict on an equation allows what the equation is of any two members. -/
theorem allows_equals (hm : a.contains (.finite m) = true) (hn : b.contains (.finite n) = true) :
    (equals a b).Allows (m == n) := by
  unfold equals
  split
  case isTrue h => exact beq_eq_false_iff_ne.2 (ne_of_isBottom_meet h hm hn)
  case isFalse =>
    split
    case isTrue h =>
      simp only [Bool.and_eq_true, beq_iff_eq, Bounds.isSingleton] at h
      obtain ⟨⟨-, hsingle⟩, rfl⟩ := h
      obtain ⟨hmlow, hmhigh⟩ := Bounds.contains_iff.1 hm
      obtain ⟨hnlow, hnhigh⟩ := Bounds.contains_iff.1 hn
      have hmn := Extended.finite_le_finite.1 (hmhigh.trans (hsingle ▸ hnlow))
      have hnm := Extended.finite_le_finite.1 (hnhigh.trans (hsingle ▸ hmlow))
      exact beq_iff_eq.2 (by omega)
    case isFalse => trivial

theorem allows_differs (hm : a.contains (.finite m) = true) (hn : b.contains (.finite n) = true) :
    (differs a b).Allows (m != n) := by
  unfold differs
  split
  case isTrue h => exact bne_iff_ne.2 (ne_of_isBottom_meet h hm hn)
  case isFalse => trivial

/-- The verdict on strict order allows what `<` is of any two members, and also what `≤` is. -/
theorem allows_below (hm : a.contains (.finite m) = true) (hn : b.contains (.finite n) = true) :
    (below a b).Allows (decide (m < n)) ∧ (below a b).Allows (decide (m ≤ n)) := by
  unfold below
  split
  case isTrue h =>
    rw [Verdict.allows_ofBool_iff, Verdict.allows_ofBool_iff, decide_eq_decide, decide_eq_decide]
    rcases sides_of_isBottom_meet h hm hn with ⟨hside, -, hmn⟩ | ⟨hside, hother, hmn⟩
    · exact ⟨iff_of_true hmn hside, iff_of_true hmn.le hside⟩
    · exact ⟨iff_of_false hmn.not_gt hother.not_gt, iff_of_false hmn.not_ge hother.not_gt⟩
  case isFalse => exact ⟨trivial, trivial⟩

/-- Integers in which the upper bound of `a` touches the lower bound of `b`. -/
theorem isSingleton_meet_of_touching (hbound : a.high = b.low) (hfinite : a.high = .finite m) :
    (meet (range a) (range b)).isSingleton = true := by
  have hlow : a.low ≤ b.low := hbound ▸ a.low_le_high
  have hhigh : a.high ≤ b.high := hbound ▸ b.low_le_high
  rw [meet_range, max_eq_right hlow, min_eq_left hhigh, ofBounds_of_le hbound.ge]
  show (b.low.isFinite && b.low == a.high) = true
  rw [← hbound, hfinite, Bool.and_eq_true]
  exact ⟨rfl, beq_iff_eq.2 rfl⟩

/-- The verdict `atMost` is one on `≤`, and one on `<` apart from equal integers at which the bounds
touch. -/
theorem allows_atMost (hm : a.contains (.finite m) = true) (hn : b.contains (.finite n) = true) :
    (atMost a b).Allows (decide (m ≤ n)) ∧
      ((atMost a b).Allows (decide (m < n)) ↔ ¬(a.high = b.low ∧ m = n)) := by
  dsimp only [atMost]
  split
  case isTrue h =>
    rw [Verdict.allows_ofBool_iff, Verdict.allows_ofBool_iff, decide_eq_decide, decide_eq_decide]
    -- Nothing in common: one interval lies on one side of the other, and so do the integers.
    rcases sides_of_isBottom_meet h hm hn with ⟨hside, -, hmn⟩ | ⟨-, hside, hmn⟩
    · exact ⟨iff_of_true hmn.le hside.le,
        iff_of_true (iff_of_true hmn hside.le) fun h => hmn.ne h.2⟩
    · exact ⟨iff_of_false hmn.not_ge hside.not_ge,
        iff_of_true (iff_of_false hmn.not_gt hside.not_ge) fun h => hmn.ne h.2.symm⟩
  case isFalse =>
    obtain ⟨-, hmhigh⟩ := Bounds.contains_iff.1 hm
    obtain ⟨hnlow, -⟩ := Bounds.contains_iff.1 hn
    split
    case isTrue htouch =>
      have hbound : a.high = b.low := eq_of_beq (Bool.and_eq_true_iff.1 htouch).2
      have hle : m ≤ n := Extended.finite_le_finite.1 (hmhigh.trans (hbound ▸ hnlow))
      refine ⟨decide_eq_true hle, ?_⟩
      show decide (m < n) = true ↔ _
      rw [decide_eq_true_iff]
      exact ⟨fun hlt h => hlt.ne h.2, fun h => lt_of_le_of_ne hle fun heq => h ⟨hbound, heq⟩⟩
    case isFalse htouch =>
      refine ⟨trivial, iff_of_true trivial fun h => htouch ?_⟩
      obtain ⟨hbound, rfl⟩ := h
      have hfinite : a.high = .finite m := le_antisymm (hbound ▸ hnlow) hmhigh
      exact Bool.and_eq_true_iff.2
        ⟨isSingleton_meet_of_touching hbound hfinite, beq_iff_eq.2 hbound⟩

/-! ## Comparisons of intervals -/

variable {v w : Interval} {op : BinaryOp}

/-- Every comparison except `>` is judged soundly on any two members. -/
theorem allows_judge (hop : op.isComparison = true) (hgt : op ≠ .gt) (hm : m ∈ v) (hn : n ∈ w) :
    (judge op v w).Allows (op.compares m n) := by
  obtain ⟨a, rfl, hm⟩ := hm
  obtain ⟨b, rfl, hn⟩ := hn
  unfold judge
  split
  case isTrue => trivial
  case isFalse =>
    cases op with
    | eq => exact allows_equals hm hn
    | ne => exact allows_differs hm hn
    | lt => exact (allows_below hm hn).1
    | le => exact (allows_atMost hm hn).1
    | gt => exact absurd rfl hgt
    | ge => exact (allows_below hn hm).2
    | add | sub | mul | div | rem | and | or | concat => cases hop

/-- The verdict on `>` excludes equal operands at the integer where their intervals touch. -/
theorem allows_judge_gt_iff (hm : m ∈ v) (hn : n ∈ w) :
    (judge .gt v w).Allows (decide (m > n)) ↔
      ¬(v.low? = some (.finite m) ∧ w.high? = some (.finite n) ∧ m = n) := by
  obtain ⟨a, rfl, hm⟩ := hm
  obtain ⟨b, rfl, hn⟩ := hn
  have htouch : (range a).low? = some (.finite m) ∧ (range b).high? = some (.finite n) ∧ m = n ↔
      b.high = a.low ∧ n = m := by
    show some a.low = _ ∧ some b.high = _ ∧ _ ↔ _
    rw [Option.some.injEq, Option.some.injEq]
    constructor
    · rintro ⟨hlow, hhigh, rfl⟩
      exact ⟨hhigh.trans hlow.symm, rfl⟩
    · rintro ⟨hbound, rfl⟩
      obtain ⟨hmlow, -⟩ := Bounds.contains_iff.1 hm
      obtain ⟨-, hnhigh⟩ := Bounds.contains_iff.1 hn
      have hlow : a.low = .finite n := le_antisymm hmlow (hbound ▸ hnhigh)
      exact ⟨hlow, hbound.trans hlow, rfl⟩
  -- `>` is judged as `≤` with its operands exchanged.
  rw [htouch, judge_gt]
  unfold judge
  split
  case isTrue htop =>
    refine iff_of_true trivial fun h => ?_
    obtain ⟨hlow, hhigh, -⟩ := htouch.2 h
    rcases Bool.or_eq_true_iff.1 htop with htop | htop
    · cases (Bounds.isInfinite_iff.1 htop).2.symm.trans (Option.some.inj hhigh)
    · cases (Bounds.isInfinite_iff.1 htop).1.symm.trans (Option.some.inj hlow)
  case isFalse => exact (allows_atMost hn hm).2

/-! ## Conditions -/

variable {opts : Options} {env : ValueEnv Interval} {s : Valuation} {e l r : ValueExpr}
  {note : Annotation} {c : Bool}

theorem satisfies_binary (hop : op.isLogical = false) (hm : m ∈ ValueDomain.eval opts env l)
    (hn : n ∈ ValueDomain.eval opts env r) :
    ValueDomain.satisfies opts env (.binary op l r note) =
      judge op (ValueDomain.eval opts env l) (ValueDomain.eval opts env r) := by
  rw [ValueDomain.satisfies_of_not_isLogical hop, isBottom_eq_false_of_mem hm,
    isBottom_eq_false_of_mem hn]
  rfl

theorem judge_of_isComparison_eq_false (hop : op.isComparison = false) (hm : m ∈ v) (hn : n ∈ w) :
    judge op v w = .unknown := by
  obtain ⟨a, rfl, -⟩ := hm
  obtain ⟨b, rfl, -⟩ := hn
  unfold judge
  split
  · rfl
  · cases op with
    | eq | ne | lt | le | gt | ge => cases hop
    | _ => rfl

/-- `l` and `r` may both be the integer that is the least one of the interval of `l` and the
greatest one of the interval of `r`. -/
def Touch (opts : Options) (env : ValueEnv Interval) (s : Valuation) (l r : ValueExpr) : Prop :=
  ∃ k, Denotes s l k ∧ Denotes s r k ∧ (ValueDomain.eval opts env l).low? = some (.finite k) ∧
    (ValueDomain.eval opts env r).high? = some (.finite k)

/-- A condition that is no connective is judged soundly, unless it is a comparison by `>` whose
ranges touch. -/
theorem allows_satisfies_atom (hs : s ∈ env) (he : e.isConnective = false)
    (hgt : ∀ l r note, e = .binary .gt l r note → ¬Touch opts env s l r)
    (h : AtomCanBe s e c) : (ValueDomain.satisfies opts env e).Allows c := by
  cases h with
  | @comparison op l r m n note hop hl hr =>
    have hm := mem_eval opts hs hl
    have hn := mem_eval opts hs hr
    rw [satisfies_binary he hm hn]
    by_cases heq : op = .gt
    -- The one comparison with a gap: it is judged right unless its ranges touch.
    · subst heq
      refine (allows_judge_gt_iff hm hn).2 ?_
      rintro ⟨hlow, hhigh, rfl⟩
      exact hgt l r note rfl ⟨m, hl, hr, hlow, hhigh⟩
    · exact allows_judge hop heq hm hn
  | binary note c hop hl hr =>
    have hm := mem_eval opts hs hl
    have hn := mem_eval opts hs hr
    rw [satisfies_binary he hm hn, judge_of_isComparison_eq_false hop hm hn]
    trivial
  | unary op note c hm =>
    have hne := isBottom_eq_false_of_mem (mem_eval opts hs hm)
    cases op with
    | not => cases he
    | neg | strlen =>
      dsimp only [ValueDomain.satisfies]
      rw [hne]
      trivial
  | ternary op note c hl hm hr =>
    have hlne := isBottom_eq_false_of_mem (mem_eval opts hs hl)
    have hmne := isBottom_eq_false_of_mem (mem_eval opts hs hm)
    have hrne := isBottom_eq_false_of_mem (mem_eval opts hs hr)
    rw [ValueDomain.satisfies, hlne, hmne, hrne]
    trivial
  | const c note => cases c <;> trivial
  | ident | any | skip => trivial

theorem allows_satisfies (hs : s ∈ env)
    (hgt : ∀ l r note, (ValueExpr.binary .gt l r note).PartOf e → ¬Touch opts env s l r)
    (h : CanBe (AtomCanBe s) e c) : (ValueDomain.satisfies opts env e).Allows c :=
  ValueDomain.allows_satisfies_of_parts (fun hpart he => allows_satisfies_atom hs he
    fun l r note heq => hgt l r note (heq ▸ hpart)) h

theorem not_allows_of_touch (hs : s ∈ env) (h : Touch opts env s l r) :
    ¬(ValueDomain.satisfies opts env (.binary .gt l r note)).Allows false := by
  obtain ⟨k, hl, hr, hlow, hhigh⟩ := h
  have hm := mem_eval opts hs hl
  have hn := mem_eval opts hs hr
  have hfalse : decide (k > k) = false := decide_eq_false (lt_irrefl k)
  rw [satisfies_binary rfl hm hn, ← hfalse, allows_judge_gt_iff hm hn]
  exact not_not_intro ⟨hlow, hhigh, rfl⟩

/-- The verdicts on a condition and on all its parts allow what these may be, exactly when no `>`
among them is judged where its operands touch. -/
theorem verdicts_sound_iff (opts : Options) (e : ValueExpr) (hs : s ∈ env) :
    (∀ p : ValueExpr, p.PartOf e → ∀ b, CanBe (AtomCanBe s) p b →
      (ValueDomain.satisfies opts env p).Allows b) ↔
      ∀ l r note, (ValueExpr.binary .gt l r note).PartOf e → ¬Touch opts env s l r := by
  constructor
  · intro h l r note hpart htouch
    refine not_allows_of_touch hs htouch (h _ hpart false (.atom rfl ?_))
    obtain ⟨k, hl, hr, -⟩ := htouch
    have hfalse : BinaryOp.gt.compares k k = false := decide_eq_false (lt_irrefl k)
    exact hfalse ▸ .comparison note rfl hl hr
  · intro h p hp b hb
    exact allows_satisfies hs (fun l r note hpart => h l r note (hpart.trans hp)) hb

/-- The bounds of a variable between 4 and 5 do not touch 1, so its verdict is sound. -/
theorem verdict_sound_of_apart :
    CanBe (AtomCanBe (.constant 4)) (.binary .gt (.ofIdentifier (intVar "x"))
        (.const (.int 1) { type := .int32 }) { type := .bool }) true ∧
      (ValueDomain.satisfies {} ((∅ : ValueEnv Interval).put (intVar "x")
        (ofBounds (.finite 4) (.finite 5))) (.binary .gt (.ofIdentifier (intVar "x"))
        (.const (.int 1) { type := .int32 }) { type := .bool })).Allows true := by
  have htrue : CanBe (AtomCanBe (.constant 4)) (.binary .gt (.ofIdentifier (intVar "x"))
      (.const (.int 1) { type := .int32 }) { type := .bool }) true :=
    .atom rfl (.comparison (m := 4) (n := 1) _ rfl (.ident _ _) (.const _ rfl))
  refine ⟨htrue, (verdicts_sound_iff (s := .constant 4) {} _
    (ValueEnv.mem_put (ValueEnv.mem_empty _) (mem_ofBounds.2 ⟨by decide, by decide⟩))).2 ?_ _ .refl
      true htrue⟩
  rintro l r note hpart ⟨k, -, -, hlow, hhigh⟩
  cases hpart with
  | refl =>
    have hfour : Extended.finite 4 = .finite k := Option.some.inj hlow
    have hone : Extended.finite 1 = .finite k := Option.some.inj hhigh
    cases hfour.trans hone.symm
  | left r a hop => cases hop
  | right l a hop => cases hop

/-- Between 2 and 3 and between 1 and 2, the bounds touch at 2. -/
theorem gt_satisfied_of_equal :
    ∃ s : Valuation, s ∈ (((∅ : ValueEnv Interval).put (intVar "x")
        (ofBounds (.finite 2) (.finite 3))).put (intVar "y") (ofBounds (.finite 1) (.finite 2))) ∧
      CanBe (AtomCanBe s) (.binary .gt (.ofIdentifier (intVar "x")) (.ofIdentifier (intVar "y"))
        { type := .bool }) false ∧
      ValueDomain.satisfies {} (((∅ : ValueEnv Interval).put (intVar "x")
        (ofBounds (.finite 2) (.finite 3))).put (intVar "y") (ofBounds (.finite 1) (.finite 2)))
        (.binary .gt (.ofIdentifier (intVar "x")) (.ofIdentifier (intVar "y")) { type := .bool }) =
          .satisfied := by
  refine ⟨.constant 2, ?_, ?_, by decide⟩
  · refine ValueEnv.mem_put (ValueEnv.mem_put (ValueEnv.mem_empty _) ?_) ?_
    · exact mem_ofBounds.2 ⟨by decide, by decide⟩
    · exact mem_ofBounds.2 ⟨by decide, by decide⟩
  · exact .atom rfl (.comparison _ rfl (.ident _ _) (.ident _ _))

end Interval

end Overapprox
