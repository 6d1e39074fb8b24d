import Overapprox.Domain.Level
import Overapprox.Proofs.Domain.Verdict
import Overapprox.Proofs.Env.Condition
import Overapprox.Proofs.Env.Evaluation
import Overapprox.Proofs.Widening.States

/-!
# What the levels get from the defaults

The levels say nothing about any operation. Still their order, joins and widenings obey the laws,
since each of them only compares ranks. Meets do not: two different proper levels have none, though
the lower one is below both. Operators give top, so all that is known of an expression is whether it
has a value, and all that is known of a condition is whether its operands have values.

* `Level.le_iff`, `Level.respectsMeets_iff`: the order, and the one level that meets lose.
* `Level.settles`: widening a level changes it finitely often.
* `Level.isBottom_eval_iff`: the expressions without a value.
* `Level.allows_satisfies`: verdicts are sound, whatever levels and operators mean.
* `Level.assume_eq_or_isBottom`: a condition leaves an environment as it is, or nothing of it.
* `Level.exists_loopStops`: loops over environments stop.
-/

namespace Overapprox

open AbstractLattice ValueDomain
open scoped LawfulLattice

namespace Level

variable {l k : Level}

/-! ## Order -/

/-- Levels are ordered by their ranks. The lowest is bottom, and the highest is top. -/
theorem orderedBy : OrderedBy fun l m : Level => l.rank ≤ m.rank where
  isTop_top := rfl
  isBottom_bottom := rfl
  isBottom_eq_false {l} h := by
    show (l.rank == 0) = false
    rw [show l.rank = 3 from eq_of_beq h]
    rfl
  refl l := le_rfl
  trans := le_trans
  of_beq h := by
    obtain rfl := eq_of_beq h
    exact ⟨le_rfl, le_rfl⟩
  of_isBottom {l} m h := by
    rw [show l.rank = 0 from eq_of_beq h]
    exact Fin.zero_le _
  of_isTop l {m} h := by
    rw [show m.rank = 3 from eq_of_beq h]
    exact Fin.le_last _
  isTop_of {l m} hle h := by
    rw [show l.rank = 3 from eq_of_beq h] at hle
    exact beq_iff_eq.2 (le_antisymm (Fin.le_last _) hle)
  isBottom_of {l m} hle h := by
    rw [show m.rank = 0 from eq_of_beq h] at hle
    exact beq_iff_eq.2 (le_antisymm hle (Fin.zero_le _))
  properLe_iff _ _ := decide_eq_true_iff
  properJoin_iff {l m} k _ _ := by
    show (if l.rank ≤ m.rank then m else l).rank ≤ k.rank ↔ _
    split
    case isTrue h => exact ⟨fun hm => ⟨h.trans hm, hm⟩, And.right⟩
    case isFalse h => exact ⟨fun hl => ⟨hl, (le_of_not_ge h).trans hl⟩, And.left⟩
  properMeet_le _ _ := ⟨Fin.zero_le _, Fin.zero_le _⟩

instance : LawfulLattice Level := orderedBy.lawful

theorem le_iff : l ≤ k ↔ l.rank ≤ k.rank := orderedBy.le_iff

/-- Of the two proper levels, which have no meet, the lower one is below both. -/
theorem respectsMeets_iff : RespectsMeets l ↔ l ≠ ⟨1⟩ := by
  constructor
  · rintro h rfl
    have hmeet : (⟨1⟩ : Level) ≤ meet ⟨1⟩ ⟨2⟩ :=
      h.le_meet (le_iff.2 (by decide)) (le_iff.2 (by decide))
    exact absurd (le_iff.1 hmeet) (by decide)
  · intro hne
    refine ⟨fun {a b} ha hb => ?_⟩
    rw [le_iff] at ha hb ⊢
    obtain ⟨l⟩ := l
    obtain ⟨a⟩ := a
    obtain ⟨b⟩ := b
    revert l a b
    decide

/-! ## Widening -/

instance : LawfulWidening Level := .of_join fun _ _ => rfl

theorem properWiden_eq_or_rank_lt (l m : Level) :
    properWiden l m = l ∨ l.rank < (properWiden l m).rank := by
  show (if l.rank ≤ m.rank then m else l) = l ∨ l.rank < (if l.rank ≤ m.rank then m else l).rank
  split
  case isTrue hle => exact hle.eq_or_lt.imp_left fun heq => congrArg mk heq.symm
  case isFalse => exact .inl rfl

/-- Every change is a step up, and there are four ranks. -/
theorem settles : Settles fun _ : Level => True :=
  .of_proper (measure fun l : Level => 3 - l.rank.val).wf fun {l m} _ _ _ =>
    (properWiden_eq_or_rank_lt l m).imp_right fun hlt => by
      show 3 - (properWiden l m).rank.val < 3 - l.rank.val
      omega

/-! ## Evaluation -/

/-- Parts of expressions that have no value themselves. -/
inductive LacksValue (env : ValueEnv Level) : ValueExpr → Prop where
  | ident {x : Identifier} (a : Annotation) : isBottom (env.get x) = true →
    LacksValue env (.ident x a)
  | skip (a : Annotation) : LacksValue env (.skip a)

variable {opts : Options} {env : ValueEnv Level} {e : ValueExpr}

/-- By induction on the expression. The operators themselves always give top. -/
theorem exists_lacksValue (h : isBottom (eval opts env e) = true) :
    ∃ p, LacksValue env p ∧ p.OccursIn e := by
  induction e with
  | const c a => cases c <;> cases h
  | any a => cases h
  | ident x a => exact ⟨_, .ident a h, .self⟩
  | skip a => exact ⟨_, .skip a, .self⟩
  | unary op e a ih =>
    rw [eval] at h
    split at h
    · obtain ⟨p, hp, hocc⟩ := ih h
      exact ⟨p, hp, .operand hocc⟩
    · cases h
  | binary op l r a ihl ihr =>
    rw [eval] at h
    split at h
    · obtain ⟨p, hp, hocc⟩ := ihl h
      exact ⟨p, hp, .left hocc⟩
    · split at h
      · obtain ⟨p, hp, hocc⟩ := ihr h
        exact ⟨p, hp, .right hocc⟩
      · cases h
  | ternary op l m r a ihl ihm ihr =>
    rw [eval] at h
    split at h
    -- One test for all three operands, so it has to be told which of them failed it.
    case isTrue hparts =>
      rw [Bool.or_eq_true, Bool.or_eq_true] at hparts
      obtain (hl | hm) | hr := hparts
      · obtain ⟨p, hp, hocc⟩ := ihl hl
        exact ⟨p, hp, .first hocc⟩
      · obtain ⟨p, hp, hocc⟩ := ihm hm
        exact ⟨p, hp, .second hocc⟩
      · obtain ⟨p, hp, hocc⟩ := ihr hr
        exact ⟨p, hp, .third hocc⟩
    case isFalse => cases h

/-- An expression has no value where an identifier in it has none, or where there is a statement in
it. -/
theorem isBottom_eval_iff : isBottom (eval opts env e) = true ↔
    ∃ p, LacksValue env p ∧ p.OccursIn e := by
  refine ⟨exists_lacksValue, fun ⟨p, hp, hocc⟩ => isBottom_eval_of_occursIn hocc ?_⟩
  cases hp with
  | ident a hx => exact hx
  | skip a => rfl

theorem monotoneOperators (opts : Options) : MonotoneOperators Level opts where
  unary _ _ _ := le_rfl
  binary _ _ _ _ _ := le_rfl
  ternary _ _ _ _ _ _ _ := le_rfl

/-- Larger environments give larger values. -/
theorem eval_mono {a b : ValueEnv Level} (h : ∀ x, a.get x ≤ b.get x) :
    eval opts a e ≤ eval opts b e :=
  (monotoneOperators opts).eval_le_eval fun x _ _ => h x

/-! ## Soundness -/

section Soundness

variable {α : Type} {c : Concretization Level α} {m : Semantics α}

/-- Operators and constants give top, so this only asks that top describes everything. -/
theorem soundNodes (htop : ∀ x, c.Describes top x) (opts : Options) (m : Semantics α) :
    SoundNodes opts c m where
  ident _ h := h
  null _ := htop _
  const _ _ := htop _
  any _ := htop _
  unary _ _ := htop _
  binary _ _ _ := htop _
  ternary _ _ _ _ := htop _

theorem soundVerdicts (c : Concretization Level α) (m : Semantics α) : SoundVerdicts c m where
  value _ _ := trivial
  null _ := trivial
  const _ _ := trivial
  unary _ _ _ := trivial
  binary _ _ _ _ := trivial
  ternary _ _ _ _ := trivial

/-- Whatever the levels and the operators mean, as long as the highest level describes everything,
the verdict on a condition allows all that the condition may be. -/
theorem allows_satisfies (htop : ∀ x, c.Describes top x) {s : Identifier → α} {b : Bool}
    (hs : c.Admits env s) (hb : CanBe (m.AtomCanBe s) e b) : (satisfies opts env e).Allows b := by
  have heval : SoundEval opts c m := (soundNodes htop opts m).describes_eval
  exact allows_satisfies_of_parts
    (fun _ hatom hp => (soundVerdicts c m).allows_satisfies_atom heval hs hatom hp) hb

end Soundness

/-! ## Conditions and loops -/

theorem leavesOpen : LeavesOpen Level where
  value _ := rfl
  null := rfl
  const _ := rfl
  unary _ _ := rfl
  binary _ _ _ := rfl
  ternary _ _ _ _ := rfl
  refineUnary _ _ _ _ := rfl
  refineBinary _ _ _ _ _ := rfl
  refineTernary _ _ _ _ _ _ := rfl

/-- A condition leaves an environment of levels as it is, or it leaves nothing of it. -/
theorem assume_eq_or_isBottom (opts : Options) (env : ValueEnv Level) (e : ValueExpr) :
    env.assume opts e = env ∨ isBottom (env.assume opts e) = true :=
  leavesOpen.assume_eq_or_isBottom opts env e

/-- Every loop over environments of levels stops, since nothing else than levels is widened. -/
theorem exists_loopStops (entry : ValueEnv Level) (body : ValueEnv Level → ValueEnv Level)
    (start : ValueEnv Level) : ∃ n, LoopStops entry body start n :=
  (ValueEnv.settles settles).exists_loopStops fun _ _ _ => trivial

end Level

end Overapprox
