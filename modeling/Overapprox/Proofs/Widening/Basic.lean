import Mathlib.Data.Nat.Find
import Mathlib.Order.WellFounded
import Overapprox.Proofs.Lattice.Lawful

/-!
# Widenings that settle

A widening lies above both of its operands, and a value that is widened again and again changes
finitely often. Bounds that jump to infinity, keys that are dropped and sets that grow inside a
finite one have no measure in common, and a bottom operand gives way to any other one. So each
lattice shows with a well-founded relation of its own how the widening of proper operands moves on,
and `Settles.of_proper` adds what the tests for top and bottom do.

* `Settles`: widening by allowed operands changes a value finitely often.
* `Settles.of_proper`, `Settles.of_view`: only the widening of proper operands is to be looked at.
* `Settles.eventually_eq`: a sequence of widenings is eventually constant.
* `Settles.exists_loopStops`: a loop that widens its head stops in a post-fixpoint.
-/

namespace Overapprox

open AbstractLattice
open scoped LawfulLattice

variable {α δ : Type}

/-! ## Widenings lie above their operands -/

/-- A widening lies above both of its operands. -/
class LawfulWidening (α : Type) [BEq α] [AbstractLattice α] [LawfulLattice α] : Prop where
  le_widen (a b : α) : a ≤ widen a b ∧ b ≤ widen a b

section Upper

variable [BEq α] [AbstractLattice α]

theorem widen_of_isTop_left {a : α} (h : isTop a = true) (b : α) : widen a b = a := by
  simp [widen, h]

theorem widen_of_isBottom_right (a : α) {b : α} (h : isBottom b = true) : widen a b = a := by
  simp [widen, h]

variable [LawfulLattice α]

namespace LawfulWidening

theorem of_proper (h : ∀ {a b : α}, IsProper a → IsProper b →
    a ≤ properWiden a b ∧ b ≤ properWiden a b) : LawfulWidening α where
  le_widen a b := by
    refine widen_cases (p := fun w => a ≤ w ∧ b ≤ w) (fun hleft => ⟨le_rfl, ?_⟩)
      (fun hright => ⟨?_, le_rfl⟩) h
    · rcases hleft with hab | hb | ha
      · exact LawfulLattice.ge_of_beq hab
      · exact le_of_isBottom hb
      · exact le_of_isTop ha
    · exact hright.elim le_of_isBottom le_of_isTop

/-- A lattice without a widening of its own widens by joins. -/
theorem of_join (h : ∀ a b : α, widen a b = join a b) : LawfulWidening α where
  le_widen a b := h a b ▸ ⟨LawfulLattice.le_join_left a b, LawfulLattice.le_join_right a b⟩

end LawfulWidening

end Upper

/-! ## Growing and settling -/

section Settling

variable [BEq α] [AbstractLattice α] {p : α → Prop} {a b : α}

/-- Widening `a` by an allowed value changes it to `a'`. -/
def Grows (p : α → Prop) (a' a : α) : Prop := a' ≠ a ∧ ∃ b, p b ∧ widen a b = a'

/-- Widening by allowed values changes a value finitely often. -/
def Settles (p : α → Prop) : Prop := WellFounded (Grows p)

/-- A widening changes nothing, or it makes a value grow. -/
theorem widen_eq_or_grows (hb : p b) : widen a b = a ∨ Grows p (widen a b) a := by
  by_cases h : widen a b = a
  · exact .inl h
  · exact .inr ⟨h, b, hb, rfl⟩

/-- One more component, which is widened while the others move on. -/
theorem pair_eq_or_lex {r : δ → δ → Prop} {x' x : δ} (hb : p b) (hx : x' = x ∨ r x' x) :
    (widen a b, x') = (a, x) ∨ Prod.Lex (Grows p) r (widen a b, x') (a, x) := by
  rcases widen_eq_or_grows (a := a) hb with ha | ha
  · rw [ha]
    rcases hx with rfl | hx
    · exact .inl rfl
    · exact .inr (.right _ hx)
  · exact .inr (.left _ _ ha)

namespace Settles

variable [LawfulLattice α] [LawfulWidening α]

/-- A bottom value gives way to any other one, once. Every value above it moves on along `r`, or is
replaced by a top one and stays. -/
theorem of_proper {r : α → α → Prop} (hr : WellFounded r)
    (h : ∀ {a b : α}, IsProper a → IsProper b → p b →
      properWiden a b = a ∨ r (properWiden a b) a) : Settles p := by
  have acc_of_isTop {a : α} (ha : isTop a = true) : Acc (Grows p) a := by
    refine ⟨_, ?_⟩
    rintro _ ⟨hne, b, -, rfl⟩
    exact absurd (widen_of_isTop_left ha b) hne
  -- Above bottom each step descends along `r`, or makes the value top for good.
  have acc_of_not_bottom : ∀ a : α, isBottom a = false → Acc (Grows p) a := by
    intro a
    induction a using hr.induction with
    | _ a ih =>
      intro ha
      refine ⟨_, ?_⟩
      rintro _ ⟨hne, b, hb, rfl⟩
      have hwiden : isBottom (widen a b) = false :=
        LawfulLattice.isBottom_eq_false_of_le (LawfulWidening.le_widen a b).1 ha
      revert hne hwiden
      refine widen_cases (p := fun w => w ≠ a → isBottom w = false → Acc (Grows p) w)
        (fun _ hne => absurd rfl hne) (fun hright _ _ => ?_) fun hpa hpb hne hwiden => ?_
      · refine hright.elim (fun hbottom => ?_) acc_of_isTop
        rw [ha] at hbottom
        cases hbottom
      · exact ih _ ((h hpa hpb hb).resolve_left hne) hwiden
  refine ⟨fun a => ?_⟩
  cases ha : isBottom a with
  | false => exact acc_of_not_bottom a ha
  | true =>
    refine ⟨_, ?_⟩
    rintro _ ⟨hne, b, -, rfl⟩
    have hb : isBottom b = false := by
      rw [Bool.eq_false_iff]
      exact fun hb => hne (widen_of_isBottom_right a hb)
    exact acc_of_not_bottom _
      (LawfulLattice.isBottom_eq_false_of_le (LawfulWidening.le_widen a b).2 hb)

/-- Values may be followed through what an injective view shows of them. -/
theorem of_view {f : α → δ} (hf : Function.Injective f) {r : δ → δ → Prop} (hr : WellFounded r)
    (h : ∀ {a b : α}, IsProper a → IsProper b → p b →
      f (properWiden a b) = f a ∨ r (f (properWiden a b)) (f a)) : Settles p :=
  of_proper (InvImage.wf f hr) fun ha hb hpb => (h ha hb hpb).imp_left fun heq => hf heq

end Settles

end Settling

/-! ## Sequences of widenings and loops -/

section Loops

variable [BEq α] [AbstractLattice α] {p : α → Prop}

/-- A sequence of widenings is constant from some point on: where it has a value that none of the
sequence grows out of. -/
theorem Settles.eventually_eq (hp : Settles p) {x y : ℕ → α} (hy : ∀ n, p (y n))
    (hx : ∀ n, x (n + 1) = widen (x n) (y n)) : ∃ N, ∀ n, N ≤ n → x n = x N := by
  obtain ⟨_, ⟨N, rfl⟩, hmin⟩ := hp.has_min (Set.range x) ⟨x 0, 0, rfl⟩
  refine ⟨N, fun n hn => ?_⟩
  induction n, hn using Nat.le_induction with
  | base => rfl
  | succ n _ ih =>
    have hstay := hmin (x (n + 1)) ⟨n + 1, rfl⟩
    rw [hx n, ih] at hstay ⊢
    exact (widen_eq_or_grows (hy n)).resolve_right hstay

/-- The heads of a loop: each one is widened by what the entry and the body bring to it. -/
def loopHeads (entry : α) (body : α → α) (start : α) : ℕ → α
  | 0 => start
  | n + 1 =>
    let head := loopHeads entry body start n
    widen head (join entry (body head))

/-- The loop stops at its head number `n`, the first one that covers the head after it. -/
structure LoopStops (entry : α) (body : α → α) (start : α) (n : ℕ) : Prop where
  stable : loopHeads entry body start (n + 1) ≤ loopHeads entry body start n
  first : ∀ m, m < n → ¬ loopHeads entry body start (m + 1) ≤ loopHeads entry body start m

variable [LawfulLattice α] {entry start : α} {body : α → α}

/-- A loop that widens its head stops, as long as only allowed values come to the head. -/
theorem Settles.exists_loopStops (hp : Settles p)
    (hbody : ∀ n, p (join entry (body (loopHeads entry body start n)))) :
    ∃ n, LoopStops entry body start n := by
  classical
  obtain ⟨N, hN⟩ := hp.eventually_eq (x := loopHeads entry body start) hbody fun _ => rfl
  have hstable : ∃ n, loopHeads entry body start (n + 1) ≤ loopHeads entry body start n :=
    ⟨N, (hN (N + 1) (Nat.le_succ N)).le⟩
  exact ⟨Nat.find hstable, Nat.find_spec hstable, fun _ => Nat.find_min hstable⟩

/-- Where the loop stops, the head covers the entry and what the body makes of the head. -/
theorem LoopStops.join_le [LawfulWidening α] {n : ℕ} (h : LoopStops entry body start n) :
    join entry (body (loopHeads entry body start n)) ≤ loopHeads entry body start n :=
  (LawfulWidening.le_widen _ _).2.trans h.stable

end Loops

end Overapprox
