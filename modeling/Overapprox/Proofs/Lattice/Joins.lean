import Overapprox.Proofs.Lattice.Lawful
import Overapprox.Verdict

/-!
# Joins of many values

What a step makes of several expressions is joined one by one, beginning with bottom. The join of a
list is the least value above all of its members, and bottom members do not count.

* `isTop_join_iff_of_proper`: the joins that are top.
* `joinOver_le_iff`, `le_joinOver`: the join of a list is least above its members.
* `joinOver_eq_of_forall`: members that are equal as far as they are not bottom are their own join.
* `Verdict.either_eq_join`: verdicts that are allowed together are joined.
-/

namespace Overapprox

open AbstractLattice
open scoped LawfulLattice

variable {α ι : Type} [BEq α] [AbstractLattice α]

/-! ## Joins of two values -/

theorem join_self [ReflBEq α] (a : α) : join a a = a := by
  simp [join]

theorem meet_self [ReflBEq α] (a : α) : meet a a = a := by
  simp [meet]

theorem widen_self [ReflBEq α] (a : α) : widen a a = a := by
  simp [widen]

variable [LawfulLattice α] {a b c x y : α}

/-- Joining something to bottom gives what is joined. -/
theorem join_of_isBottom_left (ha : isBottom a = true) (hb : isBottom b = false) :
    join a b = b := by
  have hab : (a == b) = false := by
    rw [Bool.eq_false_iff]
    intro hab
    rw [LawfulLattice.isBottom_of_le (LawfulLattice.ge_of_beq hab) ha] at hb
    cases hb
  simp [join, hab, hb, ha, LawfulLattice.isTop_eq_false ha]

/-- Joining copies of a value with bottom ones gives this value, or bottom. -/
theorem eq_or_isBottom_join [ReflBEq α] (hx : x = a ∨ isBottom x = true)
    (hy : y = a ∨ isBottom y = true) : join x y = a ∨ isBottom (join x y) = true := by
  rcases hy with rfl | hy
  · rcases hx with rfl | hx
    · exact .inl (join_self x)
    · cases hbottom : isBottom y with
      | true =>
        rw [join_of_isBottom_right hbottom]
        exact .inr hx
      | false => exact .inl (join_of_isBottom_left hx hbottom)
  · rwa [join_of_isBottom_right hy]

/-- Where no join of proper values is top, a join is top for an operand that is. -/
theorem isTop_join_iff_of_proper
    (h : ∀ {a b : α}, IsProper a → IsProper b → isTop (properJoin a b) = false) :
    isTop (join a b) = true ↔ isTop a = true ∨ isTop b = true := by
  constructor
  · refine join_cases (p := fun j => isTop j = true → isTop a = true ∨ isTop b = true)
      (fun _ => .inl) (fun _ => .inr) fun ha hb hj => ?_
    rw [h ha hb] at hj
    cases hj
  · rintro (ha | hb)
    · exact LawfulLattice.isTop_of_le (LawfulLattice.le_join_left a b) ha
    · exact LawfulLattice.isTop_of_le (LawfulLattice.le_join_right a b) hb

/-- What lies below the same values as a join does lies above and below the join. -/
theorem le_join_and_join_le (h : ∀ d, c ≤ d ↔ a ≤ d ∧ b ≤ d) : c ≤ join a b ∧ join a b ≤ c :=
  ⟨(h _).2 (LawfulLattice.join_le_iff.1 le_rfl), LawfulLattice.join_le_iff.2 ((h c).1 le_rfl)⟩

theorem isTop_iff_isTop_join (h : ∀ d, c ≤ d ↔ a ≤ d ∧ b ≤ d) :
    isTop c = true ↔ isTop (join a b) = true := by
  obtain ⟨hle, hge⟩ := le_join_and_join_le h
  exact ⟨LawfulLattice.isTop_of_le hle, LawfulLattice.isTop_of_le hge⟩

/-! ## Joins of lists -/

/-- The join of what a function gives for the members of a list. -/
def joinOver (f : ι → α) (is : List ι) : α := is.foldl (fun a i => join a (f i)) bottom

variable {f : ι → α} {is : List ι}

omit [LawfulLattice α] in
/-- What bottom has, and joins have when both of their operands do, the join of a list has when all
of its members do. -/
theorem joinOver_iff {p : α → Prop} (hbottom : p bottom)
    (hjoin : ∀ {a b : α}, p (join a b) ↔ p a ∧ p b) : p (joinOver f is) ↔ ∀ i ∈ is, p (f i) := by
  have hfold : ∀ (is : List ι) (a : α),
      p (is.foldl (fun a i => join a (f i)) a) ↔ p a ∧ ∀ i ∈ is, p (f i) := by
    intro is
    induction is with
    | nil => simp
    | cons i is ih =>
      intro a
      rw [List.foldl_cons, ih, hjoin, and_assoc, List.forall_mem_cons]
  exact (hfold is bottom).trans (and_iff_right hbottom)

omit [LawfulLattice α] in
/-- What bottom has, and joins keep, the join of a list has when all of its members do. -/
theorem joinOver_keeps {p : α → Prop} (hbottom : p bottom)
    (hjoin : ∀ {a b : α}, p a → p b → p (join a b)) (h : ∀ i ∈ is, p (f i)) : p (joinOver f is) :=
  List.foldlRecOn (motive := p) is _ hbottom fun _ hx i hi => hjoin hx (h i hi)

/-- The join of a list is below what all of its members are below. -/
theorem joinOver_le_iff : joinOver f is ≤ c ↔ ∀ i ∈ is, f i ≤ c :=
  joinOver_iff (p := fun a => a ≤ c) (le_of_isBottom LawfulLattice.isBottom_bottom)
    LawfulLattice.join_le_iff

theorem le_joinOver {i : ι} (hi : i ∈ is) : f i ≤ joinOver f is :=
  joinOver_le_iff.1 le_rfl i hi

theorem isBottom_joinOver (h : ∀ i ∈ is, isBottom (f i) = true) :
    isBottom (joinOver f is) = true := by
  have hle : joinOver f is ≤ bottom := joinOver_le_iff.2 fun i hi => le_of_isBottom (h i hi)
  exact LawfulLattice.isBottom_of_le hle LawfulLattice.isBottom_bottom

theorem eq_or_isBottom_joinOver [ReflBEq α] (h : ∀ i ∈ is, f i = a ∨ isBottom (f i) = true) :
    joinOver f is = a ∨ isBottom (joinOver f is) = true :=
  joinOver_keeps (p := fun x => x = a ∨ isBottom x = true) (.inr LawfulLattice.isBottom_bottom)
    eq_or_isBottom_join h

/-- Where all members are one value or bottom, and some are not bottom, the join is this value. -/
theorem joinOver_eq_of_forall [ReflBEq α] (h : ∀ i ∈ is, f i = a ∨ isBottom (f i) = true)
    {i : ι} (hi : i ∈ is) (ha : f i = a) (hne : isBottom a = false) : joinOver f is = a := by
  refine (eq_or_isBottom_joinOver h).resolve_right fun hbottom => ?_
  rw [← ha, LawfulLattice.isBottom_of_le (le_joinOver hi) hbottom] at hne
  cases hne

omit [LawfulLattice α] in
theorem joinOver_map {κ : Type} (f : ι → α) (g : κ → ι) (ks : List κ) :
    joinOver f (ks.map g) = joinOver (fun k => f (g k)) ks :=
  List.foldl_map

/-! ## Verdicts -/

namespace Verdict

instance : LawfulLattice Verdict where
  isTop_top := rfl
  isBottom_bottom := rfl
  isBottom_eq_false {v} := by cases v <;> decide
  le_refl v := by cases v <;> rfl
  le_trans {u v w} := by
    simp only [le_def]
    cases u <;> cases v <;> cases w <;> decide
  ge_of_beq {v w} := by
    rw [le_def]
    cases v <;> cases w <;> decide
  isTop_of_le {v w} := by
    rw [le_def]
    cases v <;> cases w <;> decide
  isBottom_of_le {v w} := by
    rw [le_def]
    cases v <;> cases w <;> decide
  join_le_iff {u v w} := by
    simp only [le_def]
    cases u <;> cases v <;> cases w <;> decide
  meet_le_left v w := by cases v <;> cases w <;> rfl
  meet_le_right v w := by cases v <;> cases w <;> rfl

/-- What either of two verdicts allows is what their join allows. -/
theorem either_eq_join (v w : Verdict) : v.either w = join v w := by cases v <;> cases w <;> rfl

end Verdict

end Overapprox
