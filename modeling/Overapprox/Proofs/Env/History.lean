import Overapprox.Proofs.Concrete.Expression
import Overapprox.Proofs.Env.Assignment
import Overapprox.Proofs.Widening.States

/-!
# What environments remember of weak identifiers

A weak identifier stands for several locations, so an assignment adds to the values that it had. But
a join or a widening drops identifiers that one side does not list, after which they may have any
value, and an assignment takes an identifier that is not listed for one that was never assigned.

* `History`: how an environment is built by assignments, joins and widenings.
* `History.keeps_written_iff`: a history loses no value of a weak identifier exactly when no
  assignment that finds it dropped leaves an earlier value out.
-/

namespace Overapprox

open AbstractLattice
open scoped LawfulLattice

/-- How an environment is built from the empty one. -/
inductive History where
  | new
  | assign (h : History) (id : Identifier) (e : ValueExpr)
  | join (l r : History)
  | widen (l r : History)

namespace History

variable {opts : Options} {w id : Identifier} {e : ValueExpr} {h l r t : History}

/-- The environment that is built. -/
def env (opts : Options) : History → ValueEnv Interval
  | new => ∅
  | assign h id e => (h.env opts).assign opts id e
  | join l r => AbstractLattice.join (l.env opts) (r.env opts)
  | widen l r => AbstractLattice.widen (l.env opts) (r.env opts)

/-- The histories of all the environments on the way, the last one included. -/
def parts : History → List History
  | new => [new]
  | assign h id e => assign h id e :: h.parts
  | join l r => join l r :: (l.parts ++ r.parts)
  | widen l r => widen l r :: (l.parts ++ r.parts)

/-- Whether an assignment to an identifier is one to `w` and is followed. -/
def writes (w id : Identifier) (e : ValueExpr) : Bool :=
  id == w && Interval.follows id e

/-- The values that were assigned to `w`. -/
def written (opts : Options) (w : Identifier) : History → List Interval
  | new => []
  | assign h id e =>
    let earlier := h.written opts w
    if writes w id e then ValueDomain.eval opts (h.env opts) e :: earlier else earlier
  | join l r => l.written opts w ++ r.written opts w
  | widen l r => l.written opts w ++ r.written opts w

/-- The environment still allows every value that was assigned to `w`. -/
def Keeps (opts : Options) (w : Identifier) (h : History) : Prop :=
  ∀ v ∈ h.written opts w, v ≤ (h.env opts).get w

/-- An assignment to `w` that finds it dropped covers what was assigned to it before. -/
def Covers (opts : Options) (w : Identifier) : History → Prop
  | assign h id e => writes w id e = true → (h.env opts).function.contains w = false →
      ∀ v ∈ h.written opts w, v ≤ ValueDomain.eval opts (h.env opts) e
  | _ => True

theorem mem_parts_self (h : History) : h ∈ h.parts := by
  cases h <;> exact List.mem_cons_self

/-! ## Single steps -/

/-- An assignment that does not write a location leaves it with its value. -/
theorem get_assign_of_not_writes {env : ValueEnv Interval} (hne : isBottom env = false)
    (hassign : isBottom (env.assign opts id e) = false) (h : writes w id e = false) :
    (env.assign opts id e).get w = env.get w := by
  rw [ValueEnv.assign_eq hne] at hassign ⊢
  split at hassign
  case isTrue hfollows =>
    rw [writes, hfollows, Bool.and_true, Bool.eq_false_iff] at h
    rw [if_pos hfollows]
    refine ValueEnv.get_bind_of_ne (fun heq => h ?_) hne hassign
    exact Std.LawfulBEqOrd.compare_eq_iff_beq.1 (Std.OrientedCmp.eq_symm heq)
  case isFalse hignored => rw [if_neg hignored]

theorem get_assign_of_writes {env : ValueEnv Interval} (hw : w.isWeak = true)
    (hne : isBottom env = false) (h : writes w id e = true) :
    (env.assign opts id e).get w =
      if env.function.contains w then AbstractLattice.join (env.get w) (ValueDomain.eval opts env e)
      else ValueDomain.eval opts env e := by
  obtain ⟨hid, hfollows⟩ := Bool.and_eq_true_iff.1 h
  have hcompare : compare w id = .eq :=
    Std.OrientedCmp.eq_symm (Std.LawfulBEqOrd.compare_eq_iff_beq.2 hid)
  have hget (env : ValueEnv Interval) : env.get w = env.get id := Pointwise.get_congr _ hcompare
  rw [hget, hget, ValueEnv.assign_eq hne, if_pos hfollows, ValueEnv.get_bind,
    Identifier.isWeak_eq_of_beq hid, hw, Bool.true_and, Pointwise.contains_congr _ hcompare]

/-- After a history that keeps every value, only an assignment can lose one. -/
theorem keeps_assign_iff (hw : w.isWeak = true) (hne : isBottom (h.env opts) = false)
    (hassign : isBottom ((assign h id e).env opts) = false) (hkeeps : h.Keeps opts w) :
    (assign h id e).Keeps opts w ↔ (assign h id e).Covers opts w := by
  unfold Keeps written Covers
  cases hwrites : writes w id e with
  | false =>
    refine iff_of_true (fun v hv => ?_) fun h => absurd h (Bool.eq_false_iff.1 hwrites)
    show v ≤ ((h.env opts).assign opts id e).get w
    rw [get_assign_of_not_writes hne hassign hwrites]
    exact hkeeps v hv
  | true =>
    show (∀ v ∈ _ :: _, v ≤ ((h.env opts).assign opts id e).get w) ↔ _
    rw [get_assign_of_writes hw hne hwrites, List.forall_mem_cons]
    cases hlisted : (h.env opts).function.contains w with
    | true =>
      refine iff_of_true ⟨LawfulLattice.le_join_right _ _, fun v hv => ?_⟩ fun _ hdropped => ?_
      · exact (hkeeps v hv).trans (LawfulLattice.le_join_left _ _)
      · exact absurd hlisted (Bool.eq_false_iff.1 hdropped)
    | false => exact ⟨fun h _ _ => h.2, fun hcovers => ⟨le_rfl, hcovers hwrites hlisted⟩⟩

/-- An environment above two others allows what they allow. -/
theorem Keeps.both (hl : l.Keeps opts w) (hr : r.Keeps opts w)
    (hle : l.env opts ≤ t.env opts ∧ r.env opts ≤ t.env opts) :
    ∀ v ∈ l.written opts w ++ r.written opts w, v ≤ (t.env opts).get w := by
  intro v hv
  rcases List.mem_append.1 hv with hv | hv
  · exact (hl v hv).trans (ValueEnv.get_le_get hle.1 w)
  · exact (hr v hv).trans (ValueEnv.get_le_get hle.2 w)

/-- What was written on the way to an operand is allowed by the join. -/
theorem Keeps.join (hl : l.Keeps opts w) (hr : r.Keeps opts w) : (join l r).Keeps opts w :=
  hl.both hr ⟨LawfulLattice.le_join_left _ _, LawfulLattice.le_join_right _ _⟩

theorem Keeps.widen (hl : l.Keeps opts w) (hr : r.Keeps opts w) : (widen l r).Keeps opts w :=
  hl.both hr (LawfulWidening.le_widen _ _)

/-! ## Whole histories -/

/-- Two histories that are brought together by a step which loses nothing. -/
theorem keeps_parts_iff
    (hl : (∀ t ∈ l.parts, t.Keeps opts w) ↔ ∀ t ∈ l.parts, t.Covers opts w)
    (hr : (∀ t ∈ r.parts, t.Keeps opts w) ↔ ∀ t ∈ r.parts, t.Covers opts w)
    (hkeeps : l.Keeps opts w → r.Keeps opts w → h.Keeps opts w) (hcovers : h.Covers opts w) :
    (∀ t ∈ h :: (l.parts ++ r.parts), t.Keeps opts w) ↔
      ∀ t ∈ h :: (l.parts ++ r.parts), t.Covers opts w := by
  rw [List.forall_mem_cons, List.forall_mem_cons, List.forall_mem_append, List.forall_mem_append,
    hl, hr]
  refine and_congr_left fun hparts => iff_of_true ?_ hcovers
  exact hkeeps (hl.2 hparts.1 l (mem_parts_self l)) (hr.2 hparts.2 r (mem_parts_self r))

/-- A history over which no environment is bottom keeps every value of a weak identifier, at every
point, exactly when each assignment that finds the identifier dropped covers what was assigned to it
before. By induction on the history, one step at a time. -/
theorem keeps_written_iff (hw : w.isWeak = true)
    (hne : ∀ t ∈ h.parts, isBottom (t.env opts) = false) :
    (∀ t ∈ h.parts, t.Keeps opts w) ↔ ∀ t ∈ h.parts, t.Covers opts w := by
  induction h with
  | new =>
    refine iff_of_true (fun t ht => ?_) fun t ht => ?_
    · cases List.mem_singleton.1 ht
      exact fun _ hv => nomatch hv
    · cases List.mem_singleton.1 ht
      trivial
  | assign h id e ih =>
    rw [parts, List.forall_mem_cons] at hne ⊢
    have ih := ih hne.2
    rw [List.forall_mem_cons, ih]
    -- Given that all earlier points keep what was written, only the last step is at stake.
    refine and_congr_left fun hcovers => ?_
    exact keeps_assign_iff hw (hne.2 h (mem_parts_self h)) hne.1 (ih.2 hcovers h (mem_parts_self h))
  | join l r ihl ihr =>
    rw [parts, List.forall_mem_cons, List.forall_mem_append] at hne
    exact keeps_parts_iff (ihl hne.2.1) (ihr hne.2.2) Keeps.join trivial
  | widen l r ihl ihr =>
    rw [parts, List.forall_mem_cons, List.forall_mem_append] at hne
    exact keeps_parts_iff (ihl hne.2.1) (ihr hne.2.2) Keeps.widen trivial

/-- The location of several integers. -/
def summary : Identifier := .heap true "f" { type := .int32 }

/-- Assigns an integer to an identifier. -/
def assignInt (h : History) (id : Identifier) (n : Int) : History :=
  h.assign id (.const (.int n) { type := .int32 })

/-- What is assigned one after the other is kept. -/
theorem keeps_written_iff_five_seven :
    .singleton 5 ≤ (((new.assignInt summary 5).assignInt summary 7).env {}).get summary := by
  have hne : ∀ t ∈ ((new.assignInt summary 5).assignInt summary 7).parts,
      isBottom (t.env {}) = false := by decide
  refine (keeps_written_iff rfl hne).2 (fun t ht => ?_) _ (mem_parts_self _) _ (by decide)
  rcases List.mem_cons.1 ht with rfl | ht
  · intro _ hdropped
    exact absurd hdropped (by decide)
  · rcases List.mem_cons.1 ht with rfl | ht
    · exact fun _ _ _ hv => nomatch hv
    · cases List.mem_singleton.1 ht
      trivial

/-- Two branches of which only one assigns 5 drop the location, and 7 takes the place of 5. -/
theorem written_five_is_lost :
    ∃ h : History, summary.isWeak = true ∧ (∀ t ∈ h.parts, isBottom (t.env {}) = false) ∧
      .singleton 5 ∈ h.written {} summary ∧ ¬ .singleton 5 ≤ (h.env {}).get summary := by
  refine ⟨((new.assignInt summary 5).join (new.assignInt (intVar "x") 1)).assignInt summary 7, rfl,
    by decide, by decide, ?_⟩
  rw [le_def]
  decide

end History

end Overapprox
