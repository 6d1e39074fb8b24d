import Overapprox.Lattice.Pointwise
import Overapprox.Proofs.Lattice.Lawful
import Overapprox.Proofs.Order.Map

/-!
# Functions into a lattice are ordered pointwise

The order and the operations look at the bindings that are listed, and at the marks first. Read
through `get` they are the pointwise ones. The bottom mark has no keys to be read, so it stands
apart from a table of bottoms.

* `Pointwise.le_iff_within`: the order is the pointwise one, with the mark below everything.
* `Pointwise.get_le_get`: reading is monotone.
* `Pointwise.le_get_meet`: what is below both values of a key is below that of the meet.
* `Pointwise.respectsMeets`: meets are greatest when they are for the listed values.
-/

namespace Overapprox

open AbstractLattice
open scoped LawfulLattice

namespace Pointwise

variable {κ ν : Type} [Ord κ] {f g h : Pointwise κ ν} {k : κ} {v w : ν}

/-! ## Reading -/

theorem table_ne_bottom (m : OrdMap κ ν) : table m ≠ bottom := nofun

/-- Only the bottom function is bottom; one with a bottom value is a table still. -/
theorem isBottom_iff [Std.TransOrd κ] [BEq κ] [BEq ν] [AbstractLattice ν] :
    isBottom f = true ↔ f = bottom := by
  cases f <;> simp [isBottom]

instance [BEq κ] [BEq ν] [ReflBEq κ] [ReflBEq ν] : ReflBEq (Pointwise κ ν) where
  rfl {f} := by
    cases f with
    | top => rfl
    | bottom => rfl
    | table m => exact BEq.refl m

variable [BEq ν] [AbstractLattice ν]

theorem get_of_ne_bottom (hf : f ≠ bottom) :
    f.get k = (f.bindings.find? k).getD AbstractLattice.top := by
  cases f with
  | top => rfl
  | bottom => exact absurd rfl hf
  | table m => rfl

theorem get_of_find? (hv : f.bindings.find? k = some v) : f.get k = v := by
  have hf : f ≠ bottom := by
    rintro rfl
    cases hv
  rw [get_of_ne_bottom hf, hv]
  rfl

theorem get_of_find?_none (hf : f ≠ bottom) (hnone : f.bindings.find? k = none) :
    f.get k = AbstractLattice.top := by
  rw [get_of_ne_bottom hf, hnone]
  rfl

/-- A value that is read is listed or top. -/
theorem get_cases {p : ν → Prop} (hf : f ≠ bottom) (top : p AbstractLattice.top)
    (listed : ∀ v, f.bindings.find? k = some v → p v) : p (f.get k) := by
  cases hv : f.bindings.find? k with
  | none =>
    rw [get_of_find?_none hf hv]
    exact top
  | some v =>
    rw [get_of_find? hv]
    exact listed v hv

variable [Std.TransOrd κ]

/-- What holds of the listed values, of top and of bottom holds of everything that is read. -/
theorem get_of_forall_entries {p : ν → Prop} (top : p AbstractLattice.top)
    (bottom : p AbstractLattice.bottom) (hf : ∀ e ∈ f.entries, p e.2) (k : κ) : p (f.get k) := by
  by_cases hmark : f = .bottom
  · rw [hmark]
    exact bottom
  · exact get_cases hmark top (OrdMap.forall_entries_iff.1 hf k)

/-- Equal keys have the same value. -/
theorem get_congr (f : Pointwise κ ν) {k l : κ} (hkl : compare k l = .eq) : f.get k = f.get l := by
  cases f with
  | top => rfl
  | bottom => rfl
  | table m => rw [get, get, m.find?_congr hkl]

omit [BEq ν] [AbstractLattice ν] in
theorem contains_congr (f : Pointwise κ ν) {k l : κ} (hkl : compare k l = .eq) :
    f.contains k = f.contains l := by
  rw [contains, contains, OrdMap.contains, OrdMap.contains, f.bindings.find?_congr hkl]

omit [BEq ν] [AbstractLattice ν] in
/-- Keys that only one of two functions lists are dropped. -/
theorem find?_zipCommon (op : ν → ν → ν) (f g : Pointwise κ ν) (k : κ) :
    (zipCommon op f g).bindings.find? k =
      (f.bindings.find? k).bind fun v => (g.bindings.find? k).map (op v) := by
  refine OrdMap.find?_filterMap (fun k v => (g.bindings.find? k).map (op v)) f.bindings ?_ k
  intro k l v hkl
  rw [g.bindings.find?_congr hkl]

/-- Where both functions list a key the operation applies, and every other key goes to top. -/
theorem get_zipCommon (op : ν → ν → ν) :
    (∃ v w, f.bindings.find? k = some v ∧ g.bindings.find? k = some w ∧
      (zipCommon op f g).get k = op v w) ∨
    (f.bindings.find? k = none ∨ g.bindings.find? k = none) ∧
      (zipCommon op f g).get k = AbstractLattice.top := by
  rw [get_of_ne_bottom (f := zipCommon op f g) (table_ne_bottom _), find?_zipCommon]
  cases hv : f.bindings.find? k with
  | none => exact .inr ⟨.inl rfl, rfl⟩
  | some v =>
    cases hw : g.bindings.find? k with
    | none => exact .inr ⟨.inr rfl, rfl⟩
    | some w => exact .inl ⟨v, w, rfl, rfl, rfl⟩

/-- Keys that only one of two functions lists keep their value, and common ones are met. -/
theorem find?_meetAll (f g : Pointwise κ ν) (k : κ) :
    (meetAll f g).bindings.find? k =
      ((g.bindings.find? k).map fun w => ((f.bindings.find? k).map (meet · w)).getD w).or
        (f.bindings.find? k) := by
  refine OrdMap.find?_foldl_insert
    (f := fun k w => ((f.bindings.find? k).map (meet · w)).getD w) ?_ f.bindings g.bindings k
  intro k l hkl w
  rw [f.bindings.find?_congr hkl]

/-- A value that a meet lists is listed by one operand only, or the meet of two listed values. -/
theorem find?_meetAll_cases {p : ν → Prop} {u : ν}
    (hu : (meetAll f g).bindings.find? k = some u)
    (left : f.bindings.find? k = some u → p u) (right : g.bindings.find? k = some u → p u)
    (both : ∀ v w, f.bindings.find? k = some v → g.bindings.find? k = some w → p (meet v w)) :
    p u := by
  rw [find?_meetAll] at hu
  cases hw : g.bindings.find? k with
  | none =>
    rw [hw, Option.map_none, Option.none_or] at hu
    exact left hu
  | some w =>
    rw [hw, Option.map_some, Option.some_or, Option.some.injEq] at hu
    cases hv : f.bindings.find? k with
    | none =>
      rw [hv] at hu
      cases hu
      exact right hw
    | some v =>
      rw [hv] at hu
      cases hu
      exact both v w hv hw

/-! ## Listed values -/

section Listed

variable {p : ν → Prop}

omit [BEq ν] [AbstractLattice ν] in
theorem forall_entries_put (hf : ∀ e ∈ f.entries, p e.2) (hv : p v) :
    ∀ e ∈ (f.put k v).entries, p e.2 := by
  refine OrdMap.forall_entries_iff.2 fun l u hu => ?_
  change (f.bindings.insert k v).find? l = some u at hu
  by_cases hl : compare l k = .eq
  · rw [OrdMap.find?_congr _ hl, OrdMap.find?_insert_self] at hu
    exact Option.some.inj hu ▸ hv
  · rw [OrdMap.find?_insert_of_ne _ _ hl] at hu
    exact OrdMap.forall_entries_iff.1 hf l u hu

omit [BEq ν] [AbstractLattice ν] [Std.TransOrd κ] in
theorem forall_entries_forget (hf : ∀ e ∈ f.entries, p e.2) (k : κ) :
    ∀ e ∈ (f.forget k).entries, p e.2 := by
  cases f with
  | top | bottom => exact hf
  | table m => exact fun e he => hf e (List.mem_filter.1 he).1

omit [BEq ν] [AbstractLattice ν] in
/-- What an operation keeps of single values, it keeps of all values of two functions. -/
theorem forall_entries_zipCommon {op : ν → ν → ν} (hf : ∀ e ∈ f.entries, p e.2)
    (hg : ∀ e ∈ g.entries, p e.2) (hop : ∀ {v w}, p v → p w → p (op v w)) :
    ∀ e ∈ (zipCommon op f g).entries, p e.2 := by
  refine OrdMap.forall_entries_iff.2 fun k u hu => ?_
  change (zipCommon op f g).bindings.find? k = some u at hu
  rw [find?_zipCommon, Option.bind_eq_some_iff] at hu
  obtain ⟨v, hv, hu⟩ := hu
  obtain ⟨w, hw, rfl⟩ := Option.map_eq_some_iff.1 hu
  exact hop (OrdMap.forall_entries_iff.1 hf k v hv) (OrdMap.forall_entries_iff.1 hg k w hw)

end Listed

/-! ## The order -/

/-- The pointwise order, in which the bottom mark lies below everything. -/
inductive Within : Pointwise κ ν → Pointwise κ ν → Prop where
  | bottom (g : Pointwise κ ν) : Within bottom g
  | pointwise {f g : Pointwise κ ν} : g ≠ .bottom → (∀ k, f.get k ≤ g.get k) → Within f g

/-- What holds of equal values, of tops and of bottoms holds of the values of equal functions. -/
theorem get_rel_get_of_beq [BEq κ] [Std.LawfulBEqOrd κ] {r : ν → ν → Prop}
    (top : r AbstractLattice.top AbstractLattice.top)
    (bottom : r AbstractLattice.bottom AbstractLattice.bottom)
    (hr : ∀ {v w : ν}, (v == w) = true → r v w) (h : (f == g) = true) (k : κ) :
    r (f.get k) (g.get k) := by
  cases f with
  | top => cases g with
    | top => exact top
    | _ => cases h
  | bottom => cases g with
    | bottom => exact bottom
    | _ => cases h
  | table m => cases g with
    | table n =>
      have hrel := OrdMap.rel_find?_of_beq (m := m) (n := n) h k
      rw [get, get]
      generalize m.find? k = x, n.find? k = y at hrel ⊢
      cases hrel with
      | none => exact top
      | some hvw => exact hr hvw
    | _ => cases h

section TopIsTop

variable [BEq κ] (htop : isTop (AbstractLattice.top : ν) = true)

include htop

/-- A function is top when all of its values are. -/
theorem isTop_iff_of_isTop_top : isTop f = true ↔ f ≠ bottom ∧ ∀ k, isTop (f.get k) = true := by
  cases f with
  | top => exact iff_of_true rfl ⟨nofun, fun _ => htop⟩
  | bottom => exact iff_of_false nofun fun h => h.1 rfl
  | table m =>
    show m.values.all isTop = true ↔ _
    have hlisted : m.values.all isTop = true ↔ ∀ e ∈ m.entries, isTop e.2 = true := by
      simp [OrdMap.values]
    rw [hlisted, OrdMap.forall_entries_iff (p := fun v => isTop v = true)]
    constructor
    · exact fun h => ⟨table_ne_bottom m, fun k =>
        get_cases (p := fun v => isTop v = true) (table_ne_bottom m) htop (h k)⟩
    · rintro ⟨-, h⟩ k v hv
      rw [← get_of_find? (f := table m) hv]
      exact h k

omit [Std.TransOrd κ] [BEq κ] in
theorem le_get_of_listed (hf : f ≠ bottom) {a : ν}
    (h : ∀ v, f.bindings.find? k = some v → a ≤ v) : a ≤ f.get k :=
  get_cases (p := fun v => a ≤ v) hf (le_of_isTop htop) h

/-- Proper functions are compared at all keys, the unlisted ones of the left one included. -/
theorem properLe_iff_of_isTop_top (hg : g ≠ bottom) :
    properLe f g = true ↔ ∀ k, f.get k ≤ g.get k := by
  show g.entries.all (fun e => le (f.get e.1) e.2) = true ↔ _
  rw [List.all_eq_true]
  constructor
  · intro h k
    refine le_get_of_listed htop hg fun w hw => ?_
    obtain ⟨e, he, hke, rfl⟩ := OrdMap.exists_mem_of_find? hw
    rw [get_congr f hke]
    exact h e he
  · intro h e he
    have hle := h e.1
    rwa [get_of_find? (g.bindings.find?_eq_some_of_mem he)] at hle

end TopIsTop

variable [BEq κ] [LawfulLattice ν]

theorem isTop_iff : isTop f = true ↔ f ≠ bottom ∧ ∀ k, isTop (f.get k) = true :=
  isTop_iff_of_isTop_top LawfulLattice.isTop_top

theorem properLe_iff (hg : g ≠ bottom) : properLe f g = true ↔ ∀ k, f.get k ≤ g.get k :=
  properLe_iff_of_isTop_top LawfulLattice.isTop_top hg

theorem top_le_iff {a : ν} : AbstractLattice.top ≤ a ↔ isTop a = true :=
  ⟨fun h => LawfulLattice.isTop_of_le h LawfulLattice.isTop_top, le_of_isTop⟩

omit [BEq κ] in
/-- At every key the combined joins are least above the two values. -/
theorem get_zipCommon_join_le_iff (hf : f ≠ bottom) (hg : g ≠ bottom) {a : ν} :
    (zipCommon join f g).get k ≤ a ↔ f.get k ≤ a ∧ g.get k ≤ a := by
  obtain ⟨v, w, hv, hw, hjoin⟩ | ⟨hnone, htop⟩ := get_zipCommon (f := f) (g := g) (k := k) join
  · rw [hjoin, get_of_find? hv, get_of_find? hw]
    exact LawfulLattice.join_le_iff
  · rw [htop, top_le_iff]
    refine ⟨fun ha => ⟨le_of_isTop ha, le_of_isTop ha⟩, fun h => ?_⟩
    rcases hnone with hnone | hnone
    · exact top_le_iff.1 (get_of_find?_none hf hnone ▸ h.1)
    · exact top_le_iff.1 (get_of_find?_none hg hnone ▸ h.2)

omit [BEq κ] in
theorem get_meetAll_le (hf : f ≠ bottom) (hg : g ≠ bottom) :
    (meetAll f g).get k ≤ f.get k ∧ (meetAll f g).get k ≤ g.get k := by
  have hmeet := find?_meetAll f g k
  cases hw : g.bindings.find? k with
  | none =>
    rw [hw, Option.map_none, Option.none_or] at hmeet
    rw [get_of_find?_none hg hw]
    refine ⟨?_, le_of_isTop LawfulLattice.isTop_top⟩
    rw [get_of_ne_bottom (f := meetAll f g) (table_ne_bottom _), hmeet, get_of_ne_bottom hf]
  | some w =>
    rw [hw, Option.map_some, Option.some_or] at hmeet
    rw [get_of_find? hmeet, get_of_find? hw]
    cases hv : f.bindings.find? k with
    | none =>
      rw [get_of_find?_none hf hv]
      exact ⟨le_of_isTop LawfulLattice.isTop_top, le_rfl⟩
    | some v =>
      rw [get_of_find? hv]
      exact ⟨LawfulLattice.meet_le_left v w, LawfulLattice.meet_le_right v w⟩

omit [BEq κ] in
/-- At every key a meet is greatest below the two values, where meets of values are. -/
theorem le_get_meetAll {a : ν} (ha : RespectsMeets a) (haf : a ≤ f.get k) (hag : a ≤ g.get k) :
    a ≤ (meetAll f g).get k := by
  refine le_get_of_listed LawfulLattice.isTop_top (f := meetAll f g) (table_ne_bottom _) fun u hu => ?_
  refine find?_meetAll_cases (p := fun u => a ≤ u) hu (fun hv => ?_) (fun hw => ?_)
    fun v w hv hw => ?_
  · rwa [get_of_find? hv] at haf
  · rwa [get_of_find? hw] at hag
  · rw [get_of_find? hv] at haf
    rw [get_of_find? hw] at hag
    exact ha.le_meet haf hag

theorem get_le_get_of_beq [Std.LawfulBEqOrd κ] (h : (f == g) = true) (k : κ) :
    f.get k ≤ g.get k ∧ g.get k ≤ f.get k :=
  get_rel_get_of_beq (r := fun v w => v ≤ w ∧ w ≤ v) ⟨le_rfl, le_rfl⟩ ⟨le_rfl, le_rfl⟩
    (fun h => ⟨LawfulLattice.le_of_beq h, LawfulLattice.ge_of_beq h⟩) h k

theorem within_of_beq [Std.LawfulBEqOrd κ] (h : (f == g) = true) : Within f g ∧ Within g f := by
  have hget := get_le_get_of_beq h
  by_cases hg : g = bottom
  · subst hg
    cases f with
    | bottom => exact ⟨.bottom _, .bottom _⟩
    | _ => cases h
  · have hf : f ≠ bottom := by
      rintro rfl
      cases g with
      | bottom => exact hg rfl
      | _ => cases h
    exact ⟨.pointwise hg fun k => (hget k).1, .pointwise hf fun k => (hget k).2⟩

omit [Std.TransOrd κ] [BEq κ] [LawfulLattice ν] in
/-- Functions other than bottom are compared value by value. -/
theorem within_iff_of_ne_bottom (hf : f ≠ bottom) :
    Within f g ↔ g ≠ bottom ∧ ∀ k, f.get k ≤ g.get k := by
  constructor
  · intro h
    cases h with
    | bottom => exact absurd rfl hf
    | pointwise hg h => exact ⟨hg, h⟩
  · exact fun h => .pointwise h.1 h.2

omit [LawfulLattice ν] in
theorem ne_bottom_of_isProper (h : IsProper f) : f ≠ bottom := by
  rintro rfl
  cases h.2

/-- Functions are ordered value by value, with the bottom function below all. -/
theorem orderedBy [Std.LawfulBEqOrd κ] : OrderedBy (Within (κ := κ) (ν := ν)) where
  isTop_top := rfl
  isBottom_bottom := rfl
  isBottom_eq_false {f} h := by
    cases f with
    | bottom => cases h
    | _ => rfl
  refl f := by
    by_cases hf : f = bottom
    · exact hf ▸ .bottom _
    · exact .pointwise hf fun k => le_rfl
  trans hfg hgh := by
    cases hfg with
    | bottom => exact .bottom _
    | pointwise hg hfg => cases hgh with
      | bottom => exact absurd rfl hg
      | pointwise hh hgh => exact .pointwise hh fun k => (hfg k).trans (hgh k)
  of_beq := within_of_beq
  of_isBottom g h := isBottom_iff.1 h ▸ .bottom g
  of_isTop f g h := .pointwise (isTop_iff.1 h).1 fun k => le_of_isTop ((isTop_iff.1 h).2 k)
  isTop_of hfg h := by
    rw [isTop_iff] at h ⊢
    obtain ⟨hg, hle⟩ := (within_iff_of_ne_bottom h.1).1 hfg
    exact ⟨hg, fun k => LawfulLattice.isTop_of_le (hle k) (h.2 k)⟩
  isBottom_of hfg h := by
    cases hfg with
    | bottom => rfl
    | pointwise hg => exact absurd (isBottom_iff.1 h) hg
  properLe_iff hf hg := by
    have hf := ne_bottom_of_isProper hf
    have hg := ne_bottom_of_isProper hg
    rw [properLe_iff hg, within_iff_of_ne_bottom hf]
    exact ⟨fun h => ⟨hg, h⟩, And.right⟩
  properJoin_iff h hf hg := by
    have hf := ne_bottom_of_isProper hf
    have hg := ne_bottom_of_isProper hg
    rw [within_iff_of_ne_bottom hf, within_iff_of_ne_bottom hg, ← and_and_left, ← forall_and]
    -- A join of proper functions is a table, never the bottom mark, so only the values count.
    refine (within_iff_of_ne_bottom (table_ne_bottom _)).trans (and_congr_right fun _ => ?_)
    exact forall_congr' fun k => get_zipCommon_join_le_iff hf hg
  properMeet_le hf hg := by
    have hf := ne_bottom_of_isProper hf
    have hg := ne_bottom_of_isProper hg
    exact ⟨.pointwise hf fun k => (get_meetAll_le hf hg).1,
      .pointwise hg fun k => (get_meetAll_le hf hg).2⟩

variable [Std.LawfulBEqOrd κ]

instance : LawfulLattice (Pointwise κ ν) := orderedBy.lawful

theorem le_iff_within : f ≤ g ↔ Within f g := orderedBy.le_iff

/-- A larger function has larger values. -/
theorem get_le_get (h : f ≤ g) (k : κ) : f.get k ≤ g.get k := by
  cases le_iff_within.1 h with
  | bottom => exact le_of_isBottom LawfulLattice.isBottom_bottom
  | pointwise _ h => exact h k

/-! ## Joins and meets -/

/-- The values of a join are least above those of its operands, bottom functions included. -/
theorem get_join_le_iff {a : ν} : (join f g).get k ≤ a ↔ f.get k ≤ a ∧ g.get k ≤ a := by
  have hleft := get_le_get (LawfulLattice.le_join_left f g) k
  have hright := get_le_get (LawfulLattice.le_join_right f g) k
  refine ⟨fun h => ⟨hleft.trans h, hright.trans h⟩, fun h => ?_⟩
  refine join_cases (p := fun j : Pointwise κ ν => j.get k ≤ a) (fun _ => h.1) (fun _ => h.2)
    fun hf hg => ?_
  exact (get_zipCommon_join_le_iff (ne_bottom_of_isProper hf) (ne_bottom_of_isProper hg)).2 h

omit [LawfulLattice ν] [Std.LawfulBEqOrd κ] in
/-- What is kept by the joins of values holds of the values that a join lists. -/
theorem forall_entries_join {p : ν → Prop} (hf : ∀ e ∈ f.entries, p e.2)
    (hg : ∀ e ∈ g.entries, p e.2) (hjoin : ∀ {v w}, p v → p w → p (join v w)) :
    ∀ e ∈ (join f g).entries, p e.2 :=
  join_keeps (p := fun f : Pointwise κ ν => ∀ e ∈ f.entries, p e.2)
    (fun _ _ hf hg => forall_entries_zipCommon hf hg hjoin) hf hg

omit [LawfulLattice ν] [Std.LawfulBEqOrd κ] in
/-- What is kept by the widenings of values holds of the values that a widening lists. -/
theorem forall_entries_widen {p : ν → Prop} (hf : ∀ e ∈ f.entries, p e.2)
    (hg : ∀ e ∈ g.entries, p e.2) (hwiden : ∀ {v w}, p v → p w → p (widen v w)) :
    ∀ e ∈ (widen f g).entries, p e.2 :=
  widen_keeps (p := fun f : Pointwise κ ν => ∀ e ∈ f.entries, p e.2)
    (fun _ _ hf hg => forall_entries_zipCommon hf hg hwiden) hf hg

omit [Std.LawfulBEqOrd κ] in
/-- The values of a meet are above what lies below both values. -/
theorem le_get_meet {a : ν} (ha : RespectsMeets a) (haf : a ≤ f.get k) (hag : a ≤ g.get k) :
    a ≤ (meet f g).get k :=
  meet_cases (p := fun m : Pointwise κ ν => a ≤ m.get k) (fun _ => haf) (fun _ => hag) fun _ _ =>
    le_get_meetAll ha haf hag

omit [LawfulLattice ν] [Std.LawfulBEqOrd κ] in
/-- What is kept by the meets of values holds of the values that a meet lists. -/
theorem forall_entries_meet {p : ν → Prop} (hf : ∀ e ∈ f.entries, p e.2)
    (hg : ∀ e ∈ g.entries, p e.2) (hmeet : ∀ {v w}, p v → p w → p (meet v w)) :
    ∀ e ∈ (meet f g).entries, p e.2 := by
  refine meet_cases (p := fun m : Pointwise κ ν => ∀ e ∈ m.entries, p e.2) (fun _ => hf)
    (fun _ => hg) fun _ _ => OrdMap.forall_entries_iff.2 fun k u hu => ?_
  have hf := OrdMap.forall_entries_iff.1 hf k
  have hg := OrdMap.forall_entries_iff.1 hg k
  change (meetAll f g).bindings.find? k = some u at hu
  exact find?_meetAll_cases hu (hf u) (hg u) fun v w hv hw => hmeet (hf v hv) (hg w hw)

omit [BEq κ] [Std.LawfulBEqOrd κ] in
theorem respectsMeets_get (h : ∀ e ∈ f.entries, RespectsMeets e.2) (k : κ) :
    RespectsMeets (f.get k) :=
  get_of_forall_entries (.of_isTop LawfulLattice.isTop_top)
    (.of_isBottom LawfulLattice.isBottom_bottom) h k

/-- A function respects meets when its values do. -/
theorem respectsMeets (h : ∀ e ∈ f.entries, RespectsMeets e.2) : RespectsMeets f := by
  by_cases hf : f = bottom
  · exact .of_isBottom (isBottom_iff.2 hf)
  · refine .of_properMeet fun {a b} _ _ hfa hfb =>
      le_iff_within.2 (.pointwise (table_ne_bottom _) fun k => ?_)
    rw [le_iff_within, within_iff_of_ne_bottom hf] at hfa hfb
    exact le_get_meetAll (respectsMeets_get h k) (hfa.2 k) (hfb.2 k)

end Pointwise

end Overapprox
