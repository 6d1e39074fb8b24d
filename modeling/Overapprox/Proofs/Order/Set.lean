import Mathlib.Data.List.Sort
import Overapprox.Order.Set

/-!
# Inclusion of finite sets

A set is known by what it contains. Inclusion is a preorder, unions are least above their operands
and intersections greatest below them.

* `OrdSet.union_subset_iff`, `OrdSet.subset_inter_iff`: the two universal properties.
* `OrdSet.subset_of_beq`: equal sets include each other.
* `OrdSet.eq_of_mem_iff`: sets with the same members are equal.
* `OrdSet.union_eq_or_size_diff_lt`: inside a finite set, unions grow finitely often.
* `OrdSet.subset_iff_mem`, `OrdSet.mem_union`: members of sets whose elements are equal when they
  compare as equal.
-/

namespace Overapprox

namespace OrdSet

variable {α : Type} [Ord α] [Std.TransOrd α] {s t u : OrdSet α}

theorem subset_refl (s : OrdSet α) : s.subset s = true :=
  subset_iff.2 fun _ h => h

theorem subset_trans (hst : s.subset t = true) (htu : t.subset u = true) : s.subset u = true :=
  subset_iff.2 fun a h => subset_iff.1 htu a (subset_iff.1 hst a h)

omit [Std.TransOrd α] in
theorem subset_empty_iff : s.subset .empty = true ↔ s.isEmpty = true := by
  obtain ⟨l, hl⟩ := s
  cases l <;> simp [subset, isEmpty]

theorem empty_subset_of_isEmpty (h : s.isEmpty = true) (t : OrdSet α) : s.subset t = true :=
  subset_trans (subset_empty_iff.2 h) rfl

theorem isEmpty_of_subset (hst : s.subset t = true) (ht : t.isEmpty = true) : s.isEmpty = true :=
  subset_empty_iff.1 (subset_trans hst (subset_empty_iff.2 ht))

/-- A union is the least set above both operands. -/
theorem union_subset_iff :
    (s.union t).subset u = true ↔ s.subset u = true ∧ t.subset u = true := by
  simp only [subset_iff, contains_union, Bool.or_eq_true]
  exact ⟨fun h => ⟨fun a ha => h a (.inl ha), fun a ha => h a (.inr ha)⟩,
    fun h a => Or.rec (h.1 a) (h.2 a)⟩

/-- An intersection is the greatest set below both operands. -/
theorem subset_inter_iff :
    u.subset (s.inter t) = true ↔ u.subset s = true ∧ u.subset t = true := by
  simp only [subset_iff, contains_inter, Bool.and_eq_true]
  exact ⟨fun h => ⟨fun a ha => (h a ha).1, fun a ha => (h a ha).2⟩,
    fun h a ha => ⟨h.1 a ha, h.2 a ha⟩⟩

theorem subset_insertAll (s : OrdSet α) (as : List α) : s.subset (s.insertAll as) = true := by
  rw [subset_iff]
  intro a ha
  rw [contains_insertAll, ha, Bool.true_or]

theorem subset_insertAll_of_mem {as : List α} (s : OrdSet α) (h : ∀ a ∈ t.toList, a ∈ as) :
    t.subset (s.insertAll as) = true := by
  rw [subset, List.all_eq_true]
  intro a ha
  rw [contains_insertAll, Bool.or_eq_true, List.any_eq_true]
  exact .inr ⟨a, h a ha, beq_iff_eq.2 Std.ReflCmp.compare_self⟩

/-- Insertions bring in no other elements than their own. -/
theorem mem_of_mem_insertAll {a : α} :
    ∀ {as : List α} {s : OrdSet α}, a ∈ (s.insertAll as).toList → a ∈ s.toList ∨ a ∈ as
  | [], _, h => .inl h
  | b :: as, s, h => by
    rcases mem_of_mem_insertAll (s := s.insert b) h with h | h
    · rcases eq_or_mem_of_mem_insertInto h with rfl | h
      · exact .inr List.mem_cons_self
      · exact .inl h
    · exact .inr (List.mem_cons_of_mem b h)

theorem mem_of_mem_ofList {as : List α} {a : α} (h : a ∈ (ofList as).toList) : a ∈ as :=
  (mem_of_mem_insertAll h).resolve_left List.not_mem_nil

/-- The order of the elements leaves one list for given members. -/
theorem eq_of_mem_iff (h : ∀ a, a ∈ s.toList ↔ a ∈ t.toList) : s = t := by
  have : Std.Antisymm fun a b : α => compare a b = .lt :=
    ⟨fun _ _ hab hba => nomatch (Std.OrientedCmp.gt_of_lt hab).symm.trans hba⟩
  have : Std.Irrefl fun a b : α => compare a b = .lt :=
    ⟨fun _ haa => nomatch Std.ReflCmp.compare_self.symm.trans haa⟩
  exact eq_of_toList_eq (s.sorted.eq_of_mem_iff t.sorted h)

/-- Equal sets contain the same elements. -/
theorem contains_eq_of_beq [BEq α] [Std.LawfulBEqOrd α] (h : (s == t) = true) (a : α) :
    s.contains a = t.contains a := by
  obtain ⟨l, hl⟩ := s
  obtain ⟨m, hm⟩ := t
  change (l == m) = true at h
  show l.any _ = m.any _
  clear hl hm
  induction l generalizing m with
  | nil => cases m with
    | nil => rfl
    | cons c m => cases h
  | cons b l ih => cases m with
    | nil => cases h
    | cons c m =>
      obtain ⟨hhead, htail⟩ := Bool.and_eq_true_iff.1 h
      have hsame : compare a b = compare a c :=
        compare_congr_right (Std.LawfulBEqOrd.compare_eq_iff_beq.2 hhead) a
      rw [List.any_cons, List.any_cons, hsame, ih m htail]

theorem subset_of_beq [BEq α] [Std.LawfulBEqOrd α] (h : (s == t) = true) :
    s.subset t = true ∧ t.subset s = true := by
  simp only [subset_iff, contains_eq_of_beq h]
  exact ⟨fun _ ha => ha, fun _ ha => ha⟩

theorem insertInto_of_any {a : α} {es : List α} (hs : es.Pairwise fun a b => compare a b = .lt)
    (h : (es.any fun b => compare a b == .eq) = true) : insertInto a es = es := by
  induction es with
  | nil => cases h
  | cons b rest ih =>
    obtain ⟨hb, hrest⟩ := List.pairwise_cons.1 hs
    rw [List.any_cons, Bool.or_eq_true, beq_iff_eq] at h
    rw [insertInto]
    split
    next hab =>
      -- An equal element would come later, but all of those are greater than `a`.
      rw [hab] at h
      obtain ⟨c, hc, hac⟩ := List.any_eq_true.1 (h.resolve_left (by decide))
      rw [Std.TransCmp.lt_trans hab (hb c hc)] at hac
      cases hac
    next => rfl
    next hab =>
      rw [hab] at h
      rw [ih hrest (h.resolve_left (by decide))]

/-- Adding what is already there changes nothing, not even annotations. -/
theorem insertAll_of_contains {as : List α} (h : ∀ a ∈ as, s.contains a = true) :
    s.insertAll as = s := by
  induction as with
  | nil => rfl
  | cons a as ih =>
    have hinsert : s.insert a = s :=
      eq_of_toList_eq (insertInto_of_any s.sorted (h a List.mem_cons_self))
    show (s.insert a).insertAll as = s
    rw [hinsert]
    exact ih fun b hb => h b (List.mem_cons_of_mem a hb)

theorem union_of_subset (h : t.subset s = true) : s.union t = s :=
  insertAll_of_contains (List.all_eq_true.1 h)

/-- A union inside a finite set changes nothing, or leaves less of that set out. -/
theorem union_eq_or_size_diff_lt (htu : t.subset u = true) :
    s.union t = s ∨ (u.diff (s.union t)).size < (u.diff s).size := by
  by_cases hts : t.subset s = true
  · exact .inl (union_of_subset hts)
  · right
    have hmissing : ∃ b ∈ t.toList, s.contains b = false := by
      simpa [subset] using hts
    obtain ⟨b, hb, hbs⟩ := hmissing
    obtain ⟨c, hc, hbc⟩ := contains_iff.1 (List.all_eq_true.1 htu b hb)
    have hleft : (u.diff (s.union t)).toList =
        (u.diff s).toList.filter fun a => !t.contains a := by
      simp [diff, filter, List.filter_filter, Bool.and_comm]
    rw [size, hleft, size, List.length_filter_lt_length_iff_exists]
    have hcs : s.contains c = false := contains_congr s hbc ▸ hbs
    have hct : t.contains c = true :=
      contains_congr t hbc ▸ contains_iff.2 ⟨b, hb, Std.ReflCmp.compare_self⟩
    exact ⟨c, List.mem_filter.2 ⟨hc, by simp [hcs]⟩, by simp [hct]⟩

/-! ## Elements that are equal when they compare as equal -/

section Members

variable [Std.LawfulEqOrd α] {a : α}

omit [Std.TransOrd α] in
/-- Where only equal elements compare as equal, membership is that of the list. -/
theorem contains_iff_mem : s.contains a = true ↔ a ∈ s.toList := by
  simp [contains_iff]

theorem subset_iff_mem : s.subset t = true ↔ ∀ a ∈ s.toList, a ∈ t.toList := by
  simp only [subset_iff, contains_iff_mem]

theorem mem_ofList {as : List α} : a ∈ (ofList as).toList ↔ a ∈ as := by
  rw [← contains_iff_mem, contains_ofList, List.any_eq_true]
  simp

theorem toList_ofList_eq {as bs : List α} (hbs : bs.Pairwise fun a b => compare a b = .lt)
    (h : ∀ a, a ∈ as ↔ a ∈ bs) : (ofList as).toList = bs :=
  congrArg toList (eq_of_mem_iff (t := ⟨bs, hbs⟩) fun a => mem_ofList.trans (h a))

/-- A union lists the elements of either operand. -/
theorem mem_union : a ∈ (s.union t).toList ↔ a ∈ s.toList ∨ a ∈ t.toList := by
  simp only [← contains_iff_mem, contains_union, Bool.or_eq_true]

end Members

end OrdSet

end Overapprox
