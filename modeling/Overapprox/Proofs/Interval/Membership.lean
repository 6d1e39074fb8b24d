import Overapprox.Proofs.Concrete.Expression
import Overapprox.Proofs.Lattice.States

/-!
# The integers of an interval and the valuations of an environment

An interval stands for the integers between its bounds, and an environment for the valuations that
respect all of its intervals. Both only grow along the order.

* `Interval.mem_iff_singleton_le`: membership is the order below.
* `ValueEnv.mem_of_le`, `ValueEnv.mem_meet_iff`: valuations along the order and in a meet.
* `ValueEnv.mem_put`: valuations after a write.
-/

namespace Overapprox

open AbstractLattice
open scoped LawfulLattice

/-! ## Intervals -/

namespace Interval

/-- The integers between the bounds. -/
instance : Membership Int Interval :=
  ⟨fun v n => ∃ b, v = range b ∧ b.contains (.finite n) = true⟩

variable {v w : Interval} {b : Bounds} {m n : Int}

@[simp] theorem mem_range : n ∈ range b ↔ b.contains (.finite n) = true :=
  ⟨fun ⟨_, hb, h⟩ => by cases hb; exact h, fun h => ⟨b, rfl, h⟩⟩

@[simp] theorem not_mem_bottom : n ∉ bottom := nofun

/-- A number is in a value exactly when the interval of this number alone is below it. -/
theorem mem_iff_singleton_le : n ∈ v ↔ singleton n ≤ v := by
  rw [le_iff_included]
  cases v with
  | bottom => exact iff_of_false not_mem_bottom nofun
  | range b =>
    rw [mem_range, Bounds.contains_iff, singleton, included_range_iff, Bounds.includes_iff]
    rfl

/-- Larger values have more members. -/
theorem mem_of_le (h : v ≤ w) (hn : n ∈ v) : n ∈ w :=
  mem_iff_singleton_le.2 ((mem_iff_singleton_le.1 hn).trans h)

theorem mem_of_isTop (h : isTop v = true) (n : Int) : n ∈ v :=
  mem_iff_singleton_le.2 (le_of_isTop h)

theorem mem_top (n : Int) : n ∈ (top : Interval) := mem_of_isTop rfl n

@[simp] theorem mem_ofBounds {low high : Extended} :
    n ∈ ofBounds low high ↔ low ≤ .finite n ∧ .finite n ≤ high := by
  rw [mem_iff_singleton_le, le_iff_included]
  exact included_ofBounds_iff

theorem mem_ofBounds_posInf : m ∈ ofBounds (.finite n) .posInf ↔ n ≤ m := by
  rw [mem_ofBounds, Extended.finite_le_finite]
  exact and_iff_left (Extended.le_posInf _)

theorem mem_ofBounds_negInf : m ∈ ofBounds .negInf (.finite n) ↔ m ≤ n := by
  rw [mem_ofBounds, Extended.finite_le_finite]
  exact and_iff_right (Extended.negInf_le _)

@[simp] theorem mem_singleton : m ∈ singleton n ↔ m = n := by
  rw [singleton, mem_range, Bounds.contains_iff]
  simp only [Bounds.singleton, Set.mem_Icc, Extended.finite_le_finite]
  omega

theorem isBottom_eq_false_of_mem (h : n ∈ v) : isBottom v = false := by
  obtain ⟨b, rfl, -⟩ := h
  rfl

end Interval

/-! ## Environments -/

namespace ValueEnv

/-- The valuations that give every identifier an integer of its interval. -/
instance : Membership Valuation (ValueEnv Interval) := ⟨fun env s => ∀ id, s id ∈ env.get id⟩

variable {env a b : ValueEnv Interval} {s : Valuation} {id : Identifier} {v : Interval}

/-- Larger environments admit more valuations. -/
theorem mem_of_le (h : a ≤ b) (hs : s ∈ a) : s ∈ b :=
  fun id => Interval.mem_of_le (get_le_get h id) (hs id)

theorem function_ne_bottom_of_mem (hs : s ∈ env) : env.function ≠ .bottom := by
  intro hf
  have h := hs (.var "" { type := .untyped })
  rw [get, hf] at h
  exact Interval.not_mem_bottom h

theorem isBottom_eq_false_of_mem (hs : s ∈ env) : isBottom env = false :=
  Bool.eq_false_iff.2 fun h => function_ne_bottom_of_mem hs (Pointwise.isBottom_iff.1 h)

/-- No valuation is lost in a meet, so the meet does not fall to bottom while there is one. -/
theorem mem_meet (ha : s ∈ a) (hb : s ∈ b) : s ∈ meet a b := by
  refine meet_cases (p := fun m : ValueEnv Interval => s ∈ m) (fun _ => ha) (fun _ => hb)
    fun _ _ => ?_
  have hle (id : Identifier) :
      Interval.singleton (s id) ≤ (meet a.function b.function).get id :=
    Pointwise.le_get_meet (Interval.respectsMeets _) (Interval.mem_iff_singleton_le.1 (ha id))
      (Interval.mem_iff_singleton_le.1 (hb id))
  have hkeep : ofFunction (meet a.function b.function) = ⟨meet a.function b.function⟩ :=
    ofFunction_eq_of_forall_le fun id => ⟨_, rfl, hle id⟩
  intro id
  show s id ∈ (ofFunction (meet a.function b.function)).get id
  rw [hkeep]
  exact Interval.mem_iff_singleton_le.2 (hle id)

/-- A meet admits the valuations that both operands admit. -/
theorem mem_meet_iff : s ∈ meet a b ↔ s ∈ a ∧ s ∈ b :=
  ⟨fun h => ⟨mem_of_le (LawfulLattice.meet_le_left a b) h,
    mem_of_le (LawfulLattice.meet_le_right a b) h⟩, fun h => mem_meet h.1 h.2⟩

theorem mem_empty (s : Valuation) : s ∈ (∅ : ValueEnv Interval) :=
  fun id => Interval.mem_top (s id)

/-- Putting a value that has the current number as a member still admits the valuation. -/
theorem mem_put (hs : s ∈ env) (hv : s id ∈ v) : s ∈ env.put id v := by
  intro other
  by_cases h : compare other id = .eq
  · have hget : (env.put id v).get other = v :=
      (Pointwise.get_congr _ h).trans (get_put_self env id v)
    rw [hget, s.value_eq_of_beq (Std.LawfulBEqOrd.compare_eq_iff_beq.1 h)]
    exact hv
  · rw [get_put_of_ne v h (function_ne_bottom_of_mem hs)]
    exact hs other

end ValueEnv

end Overapprox
