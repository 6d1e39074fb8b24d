import Overapprox.Call.Site
import Overapprox.Proofs.Lattice.Joins
import Overapprox.Proofs.Lattice.States

/-!
# Calls that are resolved through aliases

A call matches a member by name, or through an alias that is recorded for one of the symbols of the
member. A join keeps the records of a symbol for which both of its operands have some, and then the
aliases of either. A symbol for which one operand has no record may stand for anything, so the join
has no record of it either, and a match that rests on the record of the other operand is lost.

* `Call.matchesMember_iff`: a match by name, or through an alias of a symbol.
* `SymbolAliasing.mem_aliases_join`: the aliases that a join records.
* `Call.reaches_join_iff`: the symbols through which a match survives a join.
* `Call.matchesMember_join_iff`: the matches in two aliasings and in their joins.
-/

namespace Overapprox

open AbstractLattice
open scoped LawfulLattice

/-! ## Sets of alternatives -/

namespace Powerset

variable {α : Type} [Ord α] {u v w : Powerset α} {a : α}

theorem not_mem_top : a ∉ (top : Powerset α).toList := List.not_mem_nil

variable [Std.TransOrd α] [BEq α] [Std.LawfulBEqOrd α]

theorem isTop_join_iff : isTop (join v w) = true ↔ isTop v = true ∨ isTop w = true :=
  isTop_join_iff_of_proper fun _ _ => rfl

variable [Std.LawfulEqOrd α]

theorem mem_toList_of_le (h : v ≤ w) (hw : isTop w = false) (ha : a ∈ v.toList) :
    a ∈ w.toList := by
  rw [le_iff_included] at h
  cases h with
  | top => cases hw
  | finite hst => exact OrdSet.subset_iff_mem.1 hst a ha

/-- What has the bounds of a join lists the elements of either set, unless one of them is top. -/
theorem mem_toList_of_join (hu : ∀ x, u ≤ x ↔ v ≤ x ∧ w ≤ x) : a ∈ u.toList ↔
    isTop v = false ∧ isTop w = false ∧ (a ∈ v.toList ∨ a ∈ w.toList) := by
  obtain ⟨hv, hw⟩ := (hu u).1 le_rfl
  have htop : isTop u = true ↔ isTop v = true ∨ isTop w = true :=
    (isTop_iff_isTop_join hu).trans isTop_join_iff
  constructor
  · intro ha
    cases u with
    | top => exact absurd ha not_mem_top
    | finite r =>
      cases v with
      | top => cases htop.2 (.inl rfl)
      | finite s =>
        cases w with
        | top => cases htop.2 (.inr rfl)
        | finite t =>
          have hunion : finite r ≤ finite (s.union t) := by
            refine (hu _).2 ⟨le_iff_included.2 (.finite ?_), le_iff_included.2 (.finite ?_)⟩
            · exact OrdSet.subset_insertAll s t.toList
            · exact OrdSet.subset_insertAll_of_mem s fun _ hb => hb
          exact ⟨rfl, rfl, OrdSet.mem_union.1 (mem_toList_of_le hunion rfl ha)⟩
  · rintro ⟨hvtop, hwtop, ha⟩
    have hutop : isTop u = false := by
      rw [Bool.eq_false_iff, ne_eq, htop, hvtop, hwtop]
      decide
    exact ha.elim (mem_toList_of_le hv hutop) (mem_toList_of_le hw hutop)

end Powerset

/-! ## Recorded aliases -/

namespace SymbolAliasing

variable {a b : SymbolAliasing} {s t : Symbol}

/-- Something is recorded about what may stand in the place of a symbol. -/
def Records (a : SymbolAliasing) (s : Symbol) : Prop := isTop (a.aliases s) = false

theorem aliases_le_aliases (h : a ≤ b) (s : Symbol) : a.aliases s ≤ b.aliases s :=
  Pointwise.get_le_get (orderedBy.le_iff.1 h) s

/-- The aliases of a symbol in a join are least above those in its operands. -/
theorem aliases_join_le_iff {v : Powerset Symbol} :
    (join a b).aliases s ≤ v ↔ a.aliases s ≤ v ∧ b.aliases s ≤ v := by
  constructor
  · intro h
    exact ⟨(aliases_le_aliases (LawfulLattice.le_join_left a b) s).trans h,
      (aliases_le_aliases (LawfulLattice.le_join_right a b) s).trans h⟩
  · intro h
    exact join_cases (p := fun j : SymbolAliasing => j.aliases s ≤ v) (fun _ => h.1) (fun _ => h.2)
      fun _ _ => Pointwise.get_join_le_iff.2 h

/-- A join lists an alias where both operands have records of the symbol, and one of them lists it.
-/
theorem mem_aliases_join : t ∈ ((join a b).aliases s).toList ↔
    a.Records s ∧ b.Records s ∧ (t ∈ (a.aliases s).toList ∨ t ∈ (b.aliases s).toList) :=
  Powerset.mem_toList_of_join fun _ => aliases_join_le_iff

end SymbolAliasing

/-! ## Matches -/

/-- The symbols of a member of a unit. -/
def Symbol.ofMember (qualifier name : String) : List Symbol :=
  [.qualifiedName qualifier name, .qualifier qualifier, .name name]

namespace Call

variable {c : Call} {q n : String} {a b : SymbolAliasing} {s : Symbol}

/-- Whether a call names the member when the second symbol stands for the first, which has to be one
of its kind. -/
def matchesThrough (c : Call) (qualifier name : String) : Symbol → Symbol → Bool
  | .qualifiedName .., .qualifiedName q n => c.matchesName q n
  | .qualifier _, .qualifier q => c.matchesName q name
  | .name _, .name n => c.matchesName qualifier n
  | _, _ => false

/-- A call matches a member of a unit through an alias of a symbol. -/
def Reaches (c : Call) (q n : String) (a : SymbolAliasing) (s : Symbol) : Prop :=
  ∃ t ∈ (a.aliases s).toList, c.matchesThrough q n s t = true

/-- A call matches a member by its own name, or through an alias of one of the symbols of the
member. -/
theorem matchesMember_iff : c.matchesMember q n a = true ↔
    c.matchesName q n = true ∨ ∃ s ∈ Symbol.ofMember q n, c.Reaches q n a s := by
  have hany (s : Symbol) (p : Symbol → Bool) (hp : ∀ t, p t = c.matchesThrough q n s t) :
      (a.aliases s).toList.any p = true ↔ c.Reaches q n a s := by
    rw [List.any_eq_true]
    exact exists_congr fun t => and_congr_right fun _ => by rw [hp]
  unfold matchesMember
  rw [Bool.or_eq_true, Bool.or_eq_true, Bool.or_eq_true,
    hany (.qualifiedName q n) _ fun t => by cases t <;> rfl,
    hany (.qualifier q) _ fun t => by cases t <;> rfl,
    hany (.name n) _ fun t => by cases t <;> rfl]
  simp only [Symbol.ofMember, List.mem_cons, List.not_mem_nil, or_false, exists_eq_or_imp,
    exists_eq_left]
  rw [or_comm, or_assoc]

theorem reaches_join_iff : c.Reaches q n (join a b) s ↔
    a.Records s ∧ b.Records s ∧ (c.Reaches q n a s ∨ c.Reaches q n b s) := by
  constructor
  · rintro ⟨t, ht, hmatch⟩
    obtain ⟨ha, hb, ht⟩ := SymbolAliasing.mem_aliases_join.1 ht
    exact ⟨ha, hb, ht.imp (fun ht => ⟨t, ht, hmatch⟩) fun ht => ⟨t, ht, hmatch⟩⟩
  · rintro ⟨ha, hb, ⟨t, ht, hmatch⟩ | ⟨t, ht, hmatch⟩⟩
    · exact ⟨t, SymbolAliasing.mem_aliases_join.2 ⟨ha, hb, .inl ht⟩, hmatch⟩
    · exact ⟨t, SymbolAliasing.mem_aliases_join.2 ⟨ha, hb, .inr ht⟩, hmatch⟩

/-- A call matches the members that it names or reaches. Joins in either order keep exactly the
matches by name, and those through a symbol of which both aliasings have records, in one of which
the call reaches the member. -/
theorem matchesMember_join_iff (c : Call) (q n : String) (a b : SymbolAliasing) :
    (c.matchesMember q n a = true ↔
      c.matchesName q n = true ∨ ∃ s ∈ Symbol.ofMember q n, c.Reaches q n a s) ∧
    (c.matchesMember q n (join a b) = true ↔
      c.matchesName q n = true ∨ ∃ s ∈ Symbol.ofMember q n,
        a.Records s ∧ b.Records s ∧ (c.Reaches q n a s ∨ c.Reaches q n b s)) ∧
    (c.matchesMember q n (join b a) = true ↔
      c.matchesName q n = true ∨ ∃ s ∈ Symbol.ofMember q n,
        a.Records s ∧ b.Records s ∧ (c.Reaches q n a s ∨ c.Reaches q n b s)) := by
  have hswap (s : Symbol) : c.Reaches q n (join b a) s ↔
      a.Records s ∧ b.Records s ∧ (c.Reaches q n a s ∨ c.Reaches q n b s) := by
    rw [reaches_join_iff, and_left_comm, or_comm (a := c.Reaches q n b s)]
  refine ⟨matchesMember_iff, ?_, ?_⟩
  · simp only [matchesMember_iff, reaches_join_iff]
  · simp only [matchesMember_iff, hswap]

/-- A call of `g` targets `f` as long as the one may stand for the other, which is forgotten in a
join with a branch without aliases. -/
theorem join_forgets_target :
    ∃ (c : Call) (a b : SymbolAliasing), c.matchesMember "A" "f" a = true ∧
      c.matchesMember "A" "f" (join a b) = false ∧ c.matchesMember "A" "f" (join b a) = false :=
  ⟨{ location := .synthetic, target := "g" },
    (∅ : SymbolAliasing).addAlias (.name "f") (.name "g"), ∅, by decide, by decide, by decide⟩

end Call

end Overapprox
