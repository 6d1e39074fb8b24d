import Overapprox.Proofs.Concrete.Expression
import Overapprox.Proofs.Env.Assignment
import Overapprox.Proofs.Heap.Summary
import Overapprox.Proofs.State.Transfer

/-!
# Assignments to strong identifiers

An assignment follows every value expression that the assigned one may denote, and joins what it
makes of each. The identifier keeps its value where there is nothing to follow: where the expression
denotes nothing, or where what it denotes can only be a pointer or a heap object.

* `Composite.get_assignStep`: the value after the assignment of one value expression.
* `Composite.get_assign_le_iff`: the value after the assignment is the least above all of these.
* `Composite.assign_forgets_iff`: when nothing is left of the value before.
-/

namespace Overapprox

open AbstractLattice
open scoped LawfulLattice

namespace Composite

variable {opts : Options} {s : Composite SummaryHeap} {x : Identifier} {e : SymExpr}
  {c : ValueExpr} {choices : Choices}

/-! ## One value expression -/

/-- Whether the values follow the assignment of a value expression: by the types that are inferred
for it or, where there are none, by those of both sides, it may have plain values. -/
def follows (opts : Options) (types : TypeEnv) (x : Identifier) (c : ValueExpr) : Bool :=
  let inferred := (types.assign opts x c).runtimeTypes
  if inferred.isEmpty then Interval.follows x c else inferred.hasPlainValues

/-- The value of the identifier after the assignment of one value expression. -/
def assigned (opts : Options) (s : Composite SummaryHeap) (x : Identifier) (c : ValueExpr) :
    Interval :=
  if follows opts s.types x c then ValueDomain.eval opts s.values c else s.values.get x

/-- One step of an assignment gives its target the assigned value. -/
theorem get_assignStep (hne : isBottom s.values = false) (hx : x.isWeak = false) (c : ValueExpr) :
    (assignStep opts x s.values s.types c).1.get x = s.assigned opts x c := by
  unfold assignStep assigned follows
  dsimp only
  generalize (s.types.assign opts x c).runtimeTypes = inferred
  split
  case isTrue => exact ValueEnv.get_assign hne hx c
  case isFalse =>
    have hsame (env : ValueEnv Interval) : env.get (x.withRuntimeTypes inferred) = env.get x :=
      Pointwise.get_congr env.function (x.compare_withRuntimeTypes inferred)
    rw [← hsame, ValueEnv.get_assign hne (by rwa [x.isWeak_withRuntimeTypes]), hsame,
      Interval.eval_withRuntimeTypes, Interval.follows_withRuntimeTypes]

theorem assigned_forget (hne : isBottom s.values = false) (h : c.mentions x = false) :
    (s.forget x).assigned opts x c =
      if follows opts s.types x c then ValueDomain.eval opts s.values c else top := by
  show (if follows opts (s.types.forget x) x c then ValueDomain.eval opts (s.values.forget x) c
    else (s.values.forget x).get x) = _
  rw [follows, TypeEnv.runtimeTypes_assign_forget h, ← follows, ValueEnv.eval_forget h,
    ValueEnv.get_forget_self hne]

/-! ## All that an expression may denote -/

theorem assign_eq (h : s.rewrite e = .ok choices) :
    s.assign opts x e = .ok
      (if choices.isEmpty then ⟨s.heap.allocate e, s.values, s.types⟩
      else ⟨s.heap.allocate e,
        joinOver (fun c => (assignStep opts x s.values s.types c).1) choices.toList,
        joinOver (fun c => (assignStep opts x s.values s.types c).2) choices.toList⟩) :=
  transfer_of_rewrite s rfl h _

/-- What an assignment leaves in its target is least above what the single rewritings assign. -/
theorem get_assign_le_iff (hne : isBottom s.values = false) (hx : x.isWeak = false)
    (h : s.rewrite e = .ok choices) (hchoices : choices.isEmpty = false)
    {s' : Composite SummaryHeap} (hassign : s.assign opts x e = .ok s') {v : Interval} :
    s'.values.get x ≤ v ↔ ∀ c ∈ choices.toList, s.assigned opts x c ≤ v := by
  rw [assign_eq h, hchoices] at hassign
  cases hassign
  rw [if_neg Bool.false_ne_true]
  simp only [ValueEnv.get_joinOver_le_iff, get_assignStep hne hx]

theorem mentions_of_rewrite (hx : x.isWeak = false) (he : e.mentions x = false)
    (hpointer : x.isPointer = true → ∀ choices, s.rewrite e = .ok choices →
      ∀ c ∈ choices.toList, c.mentions x = false)
    (h : s.rewrite e = .ok choices) : ∀ c ∈ choices.toList, c.mentions x = false := by
  cases hp : x.isPointer with
  | true => exact hpointer hp choices h
  | false =>
    have hsummary := Identifier.isSummary_eq_false_of_isWeak hx
    exact Summary.mentions_of_rewrite hsummary hp he h

theorem get_assign_forget_eq_of_follows (hne : isBottom s.values = false) (hx : x.isWeak = false)
    (h : s.rewrite e = .ok choices) (hreads : ∀ c ∈ choices.toList, c.mentions x = false)
    (hchoices : choices.isEmpty = false)
    (hfollows : ∀ c ∈ choices.toList, follows opts s.types x c = true)
    {s' s'' : Composite SummaryHeap} (hassign : s.assign opts x e = .ok s')
    (hforget : (s.forget x).assign opts x e = .ok s'') : s'.values.get x = s''.values.get x := by
  have hne' : isBottom (s.forget x).values = false := (s.values.isBottom_forget x).trans hne
  have hsame : ∀ c ∈ choices.toList, (s.forget x).assigned opts x c = s.assigned opts x c := by
    intro c hc
    rw [assigned_forget hne (hreads c hc), assigned]
    simp only [hfollows c hc, if_true]
  have hle (v : Interval) := get_assign_le_iff hne hx h hchoices hassign (v := v)
  have hle' (v : Interval) := get_assign_le_iff hne' hx h hchoices hforget (v := v)
  refine Interval.eq_of_le_of_ge ((hle _).2 fun c hc => ?_) ((hle' _).2 fun c hc => ?_)
  · exact hsame c hc ▸ (hle' _).1 le_rfl c hc
  · exact (hsame c hc).symm ▸ (hle _).1 le_rfl c hc

/-- Where the assignment is not followed, nothing is known of a target that was forgotten before. -/
theorem get_assign_forget_eq_top (hne : isBottom s.values = false) (hx : x.isWeak = false)
    (h : s.rewrite e = .ok choices) (hreads : ∀ c ∈ choices.toList, c.mentions x = false)
    (hignored : ¬(choices.isEmpty = false ∧ ∀ c ∈ choices.toList, follows opts s.types x c = true))
    {s'' : Composite SummaryHeap} (hforget : (s.forget x).assign opts x e = .ok s'') :
    s''.values.get x = top := by
  have hne' : isBottom (s.forget x).values = false := (s.values.isBottom_forget x).trans hne
  cases hchoices : choices.isEmpty with
  | true =>
    rw [assign_eq (s := s.forget x) h, hchoices] at hforget
    cases hforget
    exact ValueEnv.get_forget_self hne
  | false =>
    obtain ⟨c, hc, hc'⟩ : ∃ c ∈ choices.toList, follows opts s.types x c = false := by
      simpa [hchoices] using hignored
    have hle := (get_assign_le_iff hne' hx h hchoices hforget).1 le_rfl c hc
    rw [assigned_forget hne (hreads c hc), hc', if_neg Bool.false_ne_true] at hle
    exact Interval.eq_top_of_isTop (LawfulLattice.isTop_of_le hle rfl)

/-- A strong identifier that an expression does not read is assigned this expression. Nothing of its
old value is left exactly when the values follow the assignment of everything that the expression
denotes, and it denotes something; or else when nothing is known about the identifier afterwards. A
pointer may also be what the expression denotes, so it must not be read there either. -/
theorem assign_forgets_iff (opts : Options) (hne : isBottom s.values = false)
    (hx : x.isWeak = false) (he : e.mentions x = false)
    (hpointer : x.isPointer = true → ∀ choices, s.rewrite e = .ok choices →
      ∀ c ∈ choices.toList, c.mentions x = false) :
    ∃ choices s' s'', s.rewrite e = .ok choices ∧ s.assign opts x e = .ok s' ∧
      (s.forget x).assign opts x e = .ok s'' ∧
      (s'.values.get x = s''.values.get x ↔
        (choices.isEmpty = false ∧ ∀ c ∈ choices.toList, follows opts s.types x c = true) ∨
          s'.values.get x = top) := by
  obtain ⟨choices, h⟩ : ∃ choices, s.rewrite e = .ok choices := Summary.exists_rewrite e
  have hreads := mentions_of_rewrite hx he hpointer h
  refine ⟨choices, _, _, h, assign_eq h, assign_eq (s := s.forget x) h, ?_⟩
  by_cases hall : choices.isEmpty = false ∧ ∀ c ∈ choices.toList, follows opts s.types x c = true
  · refine iff_of_true ?_ (.inl hall)
    exact get_assign_forget_eq_of_follows hne hx h hreads hall.1 hall.2 (assign_eq h)
      (assign_eq (s := s.forget x) h)
  · rw [get_assign_forget_eq_top hne hx h hreads hall (assign_eq (s := s.forget x) h)]
    exact (or_iff_right hall).symm

/-- A constant is followed, so what it is assigned to is the constant whatever it was before. -/
theorem assign_forgets_iff_five :
    ∃ s' s'', (binding (intVar "x") (.singleton 3)).assign {} (intVar "x")
        (.const (.int 5) { type := .int32 }) = .ok s' ∧
      ((binding (intVar "x") (.singleton 3)).forget (intVar "x")).assign {} (intVar "x")
        (.const (.int 5) { type := .int32 }) = .ok s'' ∧
      s'.values.get (intVar "x") = s''.values.get (intVar "x") := by
  obtain ⟨choices, s', s'', hrewrite, hassign, hforget, h⟩ :=
    assign_forgets_iff {} (s := binding (intVar "x") (.singleton 3)) (x := intVar "x")
      (e := .const (.int 5) { type := .int32 }) rfl rfl rfl nofun
  cases hrewrite
  refine ⟨s', s'', hassign, hforget, h.2 (.inl ⟨rfl, fun c hc => ?_⟩)⟩
  cases List.mem_singleton.1 hc
  rfl

/-- The old value of a strong identifier, which the expression does not read, makes a difference to
its value after the assignment. -/
def KeepsOldValue (s : Composite SummaryHeap) (x : Identifier) (e : SymExpr) : Prop :=
  isBottom s.values = false ∧ x.isWeak = false ∧ e.mentions x = false ∧
    ∃ s' s'', s.assign {} x e = .ok s' ∧ (s.forget x).assign {} x e = .ok s'' ∧
      s'.values.get x ≠ s''.values.get x

/-- The location of all units of a name. -/
def unitSummary : Identifier := .heap true "A" { type := .unit "A" }

/-- What a constant points to is nothing, the values do not follow a pointer, and the address of a
fresh block, annotated as an integer, reads the pointer that it is assigned to. -/
theorem assign_keeps_old_value :
    (binding (intVar "x") (.singleton 3)).KeepsOldValue (intVar "x")
        (.deref (.const (.int 5) { type := .int32 }) { type := .untyped }) ∧
      (binding (intVar "x") (.singleton 3)).KeepsOldValue (intVar "x")
        (.ofIdentifier (.var "p" { type := .reference [.unit "A"] })) ∧
      (binding (.pointer unitSummary { type := .int32 }) (.singleton 3)).KeepsOldValue
        (.pointer unitSummary { type := .int32 })
        (.ref (.alloc { type := .unit "A" })
          { type := .untyped, runtimeTypes? := some (.singleton .int32) }) := by
  refine ⟨⟨rfl, rfl, rfl, _, _, rfl, rfl, ?_⟩, ⟨rfl, rfl, rfl, _, _, rfl, rfl, ?_⟩,
    ⟨rfl, rfl, rfl, _, _, rfl, rfl, ?_⟩⟩
  · decide
  · decide
  · decide

end Composite

end Overapprox
