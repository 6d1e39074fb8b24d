import Mathlib.Order.Antisymmetrization
import Overapprox.Lattice.Basic

/-!
# Lattices that obey the lattice laws

The operations of a lattice of abstract values settle easy cases first, by tests for top and bottom
that may overlook parts of a value. So the laws only hold up to mutual `≤`, and only when the tests
fit the order. `OrderedBy` says what is to be shown for this, with a relation that the order turns
out to be; a greatest meet is a property of the single values below it, since a meet may fall to
bottom where some value is lost.

* `OrderedBy.le_iff`: the order is the given relation.
* `OrderedBy.lawful`: the laws of the order and of joins, and that meets are lower bounds.
* `RespectsMeets`: a value stays below the meet of any two values above it.
-/

namespace Overapprox

namespace AbstractLattice

variable {α : Type} [BEq α] [AbstractLattice α]

/-- `a ≤ b`: `b` allows all that `a` allows. -/
scoped instance : LE α := ⟨fun a b => le a b = true⟩

theorem le_def {a b : α} : a ≤ b ↔ le a b = true := Iff.rfl

/-- Whether an operand is neither top nor bottom. -/
def IsProper (a : α) : Prop := isTop a = false ∧ isBottom a = false

/-- What joins and widenings share: an operand for a reason, or a value made of proper operands. -/
theorem upper_cases {a b made : α} {p : α → Prop}
    (left : (a == b) = true ∨ isBottom b = true ∨ isTop a = true → p a)
    (right : isBottom a = true ∨ isTop b = true → p b) (proper : IsProper a → IsProper b → p made) :
    p (if a == b || isBottom b || isTop a then a
      else if isBottom a || isTop b then b else made) := by
  split
  case isTrue h =>
    rw [Bool.or_eq_true, Bool.or_eq_true, or_assoc] at h
    exact left h
  case isFalse h =>
    simp only [Bool.or_eq_true, not_or, Bool.not_eq_true] at h
    split
    case isTrue hmarked => exact right (Bool.or_eq_true_iff.1 hmarked)
    case isFalse hmarked =>
      simp only [Bool.or_eq_true, not_or, Bool.not_eq_true] at hmarked
      exact proper ⟨h.2, hmarked.1⟩ ⟨hmarked.2, h.1.2⟩

/-- A join is one of its operands, for a reason, or the join of proper operands. -/
theorem join_cases {a b : α} {p : α → Prop}
    (left : (a == b) = true ∨ isBottom b = true ∨ isTop a = true → p a)
    (right : isBottom a = true ∨ isTop b = true → p b)
    (proper : IsProper a → IsProper b → p (properJoin a b)) : p (join a b) :=
  upper_cases left right proper

/-- What the joins of proper operands keep is kept by all joins. -/
theorem join_keeps {p : α → Prop}
    (h : ∀ {a b : α}, IsProper a → IsProper b → p a → p b → p (properJoin a b)) {a b : α}
    (ha : p a) (hb : p b) : p (join a b) :=
  join_cases (fun _ => ha) (fun _ => hb) fun hpa hpb => h hpa hpb ha hb

/-- A widening is one of its operands, for a reason, or the widening of proper operands. -/
theorem widen_cases {a b : α} {p : α → Prop}
    (left : (a == b) = true ∨ isBottom b = true ∨ isTop a = true → p a)
    (right : isBottom a = true ∨ isTop b = true → p b)
    (proper : IsProper a → IsProper b → p (properWiden a b)) : p (widen a b) :=
  upper_cases left right proper

/-- What the widenings of proper operands keep is kept by all widenings. -/
theorem widen_keeps {p : α → Prop}
    (h : ∀ {a b : α}, IsProper a → IsProper b → p a → p b → p (properWiden a b)) {a b : α}
    (ha : p a) (hb : p b) : p (widen a b) :=
  widen_cases (fun _ => ha) (fun _ => hb) fun hpa hpb => h hpa hpb ha hb

/-- A meet is one of its operands, for a reason, or the meet of proper operands. -/
theorem meet_cases {a b : α} {p : α → Prop}
    (left : (a == b) = true ∨ isBottom a = true ∨ isTop b = true → p a)
    (right : isBottom b = true ∨ isTop a = true → p b)
    (proper : IsProper a → IsProper b → p (properMeet a b)) : p (meet a b) := by
  unfold meet
  split
  case isTrue h =>
    rw [Bool.or_eq_true, Bool.or_eq_true, or_assoc] at h
    exact left h
  case isFalse h =>
    simp only [Bool.or_eq_true, not_or, Bool.not_eq_true] at h
    split
    case isTrue hmarked => exact right (Bool.or_eq_true_iff.1 hmarked)
    case isFalse hmarked =>
      simp only [Bool.or_eq_true, not_or, Bool.not_eq_true] at hmarked
      exact proper ⟨hmarked.2, h.1.2⟩ ⟨h.2, hmarked.1⟩

end AbstractLattice

open AbstractLattice

/-- A lattice up to mutual `≤`, apart from greatest lower bounds. -/
class LawfulLattice (α : Type) [BEq α] [AbstractLattice α] : Prop where
  isTop_top : isTop (top : α) = true
  isBottom_bottom : isBottom (bottom : α) = true
  isBottom_eq_false {a : α} : isTop a = true → isBottom a = false
  le_refl (a : α) : a ≤ a
  le_trans {a b c : α} : a ≤ b → b ≤ c → a ≤ c
  ge_of_beq {a b : α} : (a == b) = true → b ≤ a
  isTop_of_le {a b : α} : a ≤ b → isTop a = true → isTop b = true
  isBottom_of_le {a b : α} : a ≤ b → isBottom b = true → isBottom a = true
  join_le_iff {a b c : α} : join a b ≤ c ↔ a ≤ c ∧ b ≤ c
  meet_le_left (a b : α) : meet a b ≤ a
  meet_le_right (a b : α) : meet a b ≤ b

namespace LawfulLattice

variable {α : Type} [BEq α] [AbstractLattice α] [LawfulLattice α] {a b : α}

scoped instance : Preorder α where
  le_refl := LawfulLattice.le_refl
  le_trans _ _ _ := LawfulLattice.le_trans

omit [LawfulLattice α] in
/-- Equal values are below each other. -/
theorem le_of_beq (h : (a == b) = true) : a ≤ b := by
  rw [le_def, le, h]
  rfl

theorem le_join_left (a b : α) : a ≤ join a b := (join_le_iff.1 (le_refl _)).1

theorem le_join_right (a b : α) : b ≤ join a b := (join_le_iff.1 (le_refl _)).2

/-- No value is both top and bottom. -/
theorem isTop_eq_false (h : isBottom a = true) : isTop a = false := by
  by_contra ha
  rw [Bool.not_eq_false] at ha
  rw [isBottom_eq_false ha] at h
  cases h

/-- What lies above a value that is not bottom is not bottom either. -/
theorem isBottom_eq_false_of_le (h : a ≤ b) (ha : isBottom a = false) : isBottom b = false := by
  rw [Bool.eq_false_iff] at ha ⊢
  exact mt (isBottom_of_le h) ha

end LawfulLattice

/-! ## Laws from a relation -/

/-- A relation that fits the tests for top and bottom and the operations on proper operands. -/
structure OrderedBy {α : Type} [BEq α] [AbstractLattice α] (R : α → α → Prop) : Prop where
  isTop_top : isTop (top : α) = true
  isBottom_bottom : isBottom (bottom : α) = true
  isBottom_eq_false {a : α} : isTop a = true → isBottom a = false
  refl (a : α) : R a a
  trans {a b c : α} : R a b → R b c → R a c
  of_beq {a b : α} : (a == b) = true → R a b ∧ R b a
  of_isBottom {a : α} (b : α) : isBottom a = true → R a b
  of_isTop (a : α) {b : α} : isTop b = true → R a b
  isTop_of {a b : α} : R a b → isTop a = true → isTop b = true
  isBottom_of {a b : α} : R a b → isBottom b = true → isBottom a = true
  properLe_iff {a b : α} : IsProper a → IsProper b → (properLe a b = true ↔ R a b)
  properJoin_iff {a b : α} (c : α) : IsProper a → IsProper b →
    (R (properJoin a b) c ↔ R a c ∧ R b c)
  properMeet_le {a b : α} : IsProper a → IsProper b →
    R (properMeet a b) a ∧ R (properMeet a b) b

namespace OrderedBy

variable {α : Type} [BEq α] [AbstractLattice α] {R : α → α → Prop} {a b c : α}

/-- The tests for top and bottom agree with the relation, so they may be made first. -/
theorem le_iff (h : OrderedBy R) : a ≤ b ↔ R a b := by
  rw [le_def, le]
  split
  case isTrue heasy =>
    rw [Bool.or_eq_true, Bool.or_eq_true] at heasy
    obtain (hab | ha) | hb := heasy
    · exact iff_of_true rfl (h.of_beq hab).1
    · exact iff_of_true rfl (h.of_isBottom b ha)
    · exact iff_of_true rfl (h.of_isTop a hb)
  case isFalse heasy =>
    simp only [Bool.or_eq_true, not_or, Bool.not_eq_true] at heasy
    obtain ⟨⟨-, ha⟩, hb⟩ := heasy
    split
    case isTrue hmarked =>
      refine iff_of_false Bool.false_ne_true fun hR => ?_
      rcases Bool.or_eq_true_iff.1 hmarked with ha' | hb'
      · rw [h.isTop_of hR ha'] at hb
        cases hb
      · rw [h.isBottom_of hR hb'] at ha
        cases ha
    case isFalse hmarked =>
      simp only [Bool.or_eq_true, not_or, Bool.not_eq_true] at hmarked
      exact h.properLe_iff ⟨hmarked.1, ha⟩ ⟨hb, hmarked.2⟩

/-- A join is least above its operands, in the relation that orders the lattice. -/
theorem join_iff (h : OrderedBy R) : R (join a b) c ↔ R a c ∧ R b c := by
  refine join_cases (p := fun j => R j c ↔ R a c ∧ R b c) (fun hleft => ?_) (fun hright => ?_)
    fun ha hb => h.properJoin_iff c ha hb
  · have hba : R b a := by
      rcases hleft with hab | hb | ha
      · exact (h.of_beq hab).2
      · exact h.of_isBottom a hb
      · exact h.of_isTop b ha
    exact ⟨fun hac => ⟨hac, h.trans hba hac⟩, And.left⟩
  · have hab : R a b := hright.elim (h.of_isBottom b) (h.of_isTop a)
    exact ⟨fun hbc => ⟨h.trans hab hbc, hbc⟩, And.right⟩

/-- A meet is below both of its operands. -/
theorem meet_le (h : OrderedBy R) (a b : α) : R (meet a b) a ∧ R (meet a b) b := by
  refine meet_cases (p := fun m => R m a ∧ R m b) (fun hleft => ⟨h.refl a, ?_⟩)
    (fun hright => ⟨?_, h.refl b⟩) h.properMeet_le
  · rcases hleft with hab | ha | hb
    · exact (h.of_beq hab).1
    · exact h.of_isBottom b ha
    · exact h.of_isTop a hb
  · exact hright.elim (h.of_isBottom a) (h.of_isTop b)

/-- A relation that fits the operations on proper operands gives the laws for all operands. -/
theorem lawful (h : OrderedBy R) : LawfulLattice α where
  isTop_top := h.isTop_top
  isBottom_bottom := h.isBottom_bottom
  isBottom_eq_false := h.isBottom_eq_false
  le_refl a := h.le_iff.2 (h.refl a)
  le_trans hab hbc := h.le_iff.2 (h.trans (h.le_iff.1 hab) (h.le_iff.1 hbc))
  ge_of_beq hab := h.le_iff.2 (h.of_beq hab).2
  isTop_of_le hab := h.isTop_of (h.le_iff.1 hab)
  isBottom_of_le hab := h.isBottom_of (h.le_iff.1 hab)
  join_le_iff := by
    intro a b c
    rw [h.le_iff, h.le_iff, h.le_iff]
    exact h.join_iff
  meet_le_left a b := h.le_iff.2 (h.meet_le a b).1
  meet_le_right a b := h.le_iff.2 (h.meet_le a b).2

/-- Values may be compared through their images in a lawful lattice. -/
theorem of_map {β : Type} [BEq β] [AbstractLattice β] [LawfulLattice α] {f : β → α}
    (top_eq : f top = top) (bottom_eq : f bottom = bottom)
    (isTop_eq : ∀ b, isTop b = isTop (f b)) (isBottom_eq : ∀ b, isBottom b = isBottom (f b))
    (of_beq : ∀ {a b : β}, (a == b) = true → f a ≤ f b ∧ f b ≤ f a)
    (properLe_iff : ∀ {a b : β}, IsProper (f a) → IsProper (f b) →
      (properLe a b = true ↔ f a ≤ f b))
    (properJoin_iff : ∀ {a b : β} (c : β), IsProper (f a) → IsProper (f b) →
      (f (properJoin a b) ≤ f c ↔ f a ≤ f c ∧ f b ≤ f c))
    (properMeet_le : ∀ {a b : β}, IsProper (f a) → IsProper (f b) →
      f (properMeet a b) ≤ f a ∧ f (properMeet a b) ≤ f b) :
    OrderedBy fun a b : β => f a ≤ f b := by
  have hproper {a : β} (ha : IsProper a) : IsProper (f a) :=
    ⟨isTop_eq a ▸ ha.1, isBottom_eq a ▸ ha.2⟩
  -- The laws about proper values are hypotheses; what remains are those about the flags.
  refine ⟨?_, ?_, ?_, fun a => LawfulLattice.le_refl _, LawfulLattice.le_trans, of_beq, ?_, ?_, ?_,
    ?_, fun ha hb => properLe_iff (hproper ha) (hproper hb),
    fun c ha hb => properJoin_iff c (hproper ha) (hproper hb),
    fun ha hb => properMeet_le (hproper ha) (hproper hb)⟩
  · rw [isTop_eq, top_eq]
    exact LawfulLattice.isTop_top
  · rw [isBottom_eq, bottom_eq]
    exact LawfulLattice.isBottom_bottom
  · intro a ha
    rw [isTop_eq] at ha
    rw [isBottom_eq]
    exact LawfulLattice.isBottom_eq_false ha
  · intro a b ha
    rw [isBottom_eq] at ha
    exact le_of_isBottom ha
  · intro a b hb
    rw [isTop_eq] at hb
    exact le_of_isTop hb
  · intro a b hab ha
    rw [isTop_eq] at ha ⊢
    exact LawfulLattice.isTop_of_le hab ha
  · intro a b hab hb
    rw [isBottom_eq] at hb ⊢
    exact LawfulLattice.isBottom_of_le hab hb

end OrderedBy

/-! ## Greatest meets -/

/-- `c` stays below the meet of any two values above it. -/
structure RespectsMeets {α : Type} [BEq α] [AbstractLattice α] (c : α) : Prop where
  le_meet {a b : α} : c ≤ a → c ≤ b → c ≤ meet a b

namespace RespectsMeets

variable {α : Type} [BEq α] [AbstractLattice α] {c : α}

theorem of_isBottom (h : isBottom c = true) : RespectsMeets c :=
  ⟨fun _ _ => le_of_isBottom h⟩

/-- Only the meets of proper values are to be looked at. -/
theorem of_properMeet
    (h : ∀ {a b : α}, IsProper a → IsProper b → c ≤ a → c ≤ b → c ≤ properMeet a b) :
    RespectsMeets c :=
  ⟨fun hca hcb => meet_cases (fun _ => hca) (fun _ => hcb) fun ha hb => h ha hb hca hcb⟩

/-- Nothing but top is above top, so top respects all meets. -/
theorem of_isTop [LawfulLattice α] (h : isTop c = true) : RespectsMeets c := by
  refine of_properMeet fun ha _ hca _ => ?_
  have htop := LawfulLattice.isTop_of_le hca h
  rw [ha.1] at htop
  cases htop

end RespectsMeets

end Overapprox
