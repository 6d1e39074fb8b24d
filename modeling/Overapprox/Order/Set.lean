import Overapprox.Order.Atom

/-!
# Finite sets in order

A finite set is the list of its elements in strictly increasing order. Elements that compare as
equal are the same element: inserting one that is already there keeps the one that was there, with
whatever the order does not see. Which of two equal elements is kept where sets meet depends on
their sizes (`OrdSet.inter`).

* `OrdSet.contains_insert`, `OrdSet.contains_union`, `OrdSet.contains_inter`,
  `OrdSet.contains_diff`: what each operation contains.
* `OrdSet.contains_ofList`: a set built from a list contains the elements of the list.
* `OrdSet.subset_iff`: inclusion is inclusion of what the sets contain.
-/

namespace Overapprox

/-- A finite set, its elements listed in strictly increasing order. -/
structure OrdSet (α : Type) [Ord α] where
  /-- The elements, in increasing order. -/
  toList : List α
  /-- Elements increase strictly, so no two of them compare as equal. -/
  sorted : toList.Pairwise fun a b => compare a b = .lt

namespace OrdSet

variable {α : Type} [Ord α]

/-! ## Elements in a sorted list -/

/-- Adds `a` to a sorted list, unless an equal element is there already. -/
def insertInto (a : α) : List α → List α
  | [] => [a]
  | b :: rest =>
    match compare a b with
    | .lt => a :: b :: rest
    | .eq => b :: rest
    | .gt => b :: insertInto a rest

/-- Insertion brings in no other element than its own. -/
theorem eq_or_mem_of_mem_insertInto {a c : α} :
    ∀ {es : List α}, c ∈ insertInto a es → c = a ∨ c ∈ es
  | [], h => .inl (List.mem_singleton.1 h)
  | b :: rest, h => by
    simp only [insertInto] at h
    split at h
    · exact List.mem_cons.1 h
    · exact .inr h
    · rcases List.mem_cons.1 h with rfl | h
      · exact .inr List.mem_cons_self
      · exact (eq_or_mem_of_mem_insertInto h).imp id (List.mem_cons_of_mem _)

/-- Insertion keeps the elements in order, and with it their uniqueness. -/
theorem sorted_insertInto [Std.TransOrd α] (a : α) :
    ∀ {es : List α}, (es.Pairwise fun a b => compare a b = .lt) →
      (insertInto a es).Pairwise fun a b => compare a b = .lt
  | [], _ => List.pairwise_singleton _ _
  | b :: rest, h => by
    obtain ⟨hb, hrest⟩ := List.pairwise_cons.1 h
    simp only [insertInto]
    split
    next ha =>
      refine List.pairwise_cons.2 ⟨fun c hc => ?_, h⟩
      rcases List.mem_cons.1 hc with rfl | hc
      · exact ha
      · exact Std.TransCmp.lt_trans ha (hb c hc)
    next => exact h
    next ha =>
      refine List.pairwise_cons.2 ⟨fun c hc => ?_, sorted_insertInto a hrest⟩
      rcases eq_or_mem_of_mem_insertInto hc with rfl | hc
      · exact Std.OrientedCmp.lt_of_gt ha
      · exact hb c hc

/-! ## Operations -/

/-- The set without elements. -/
def empty : OrdSet α := ⟨[], .nil⟩

instance : EmptyCollection (OrdSet α) := ⟨empty⟩

instance : Inhabited (OrdSet α) := ⟨empty⟩

/-- Two sets are equal when their elements are. -/
instance [BEq α] : BEq (OrdSet α) := ⟨fun s t => s.toList == t.toList⟩

/-- A set is the list of its elements. -/
theorem eq_of_toList_eq : ∀ {s t : OrdSet α}, s.toList = t.toList → s = t
  | ⟨_, _⟩, ⟨_, _⟩, rfl => rfl

instance [DecidableEq α] : DecidableEq (OrdSet α) := fun s t =>
  decidable_of_iff (s.toList = t.toList) ⟨eq_of_toList_eq, congrArg _⟩

/-- Sets are ordered like the lists of their elements. -/
instance : Ord (OrdSet α) := ⟨compareOn toList⟩

instance [Std.TransOrd α] : Std.TransOrd (OrdSet α) :=
  inferInstanceAs (Std.TransCmp (compareOn toList))

/-- Whether an element compares as equal to `a`. -/
def contains (s : OrdSet α) (a : α) : Bool := s.toList.any fun b => compare a b == .eq

/-- The number of elements. -/
def size (s : OrdSet α) : Nat := s.toList.length

/-- Whether there are no elements. -/
def isEmpty (s : OrdSet α) : Bool := s.toList.isEmpty

/-- The element of a set that has exactly one. -/
def only? (s : OrdSet α) : Option α :=
  match s.toList with
  | [a] => some a
  | _ => none

/-- The least element. -/
def first? (s : OrdSet α) : Option α := s.toList.head?

/-- The greatest element. -/
def last? (s : OrdSet α) : Option α := s.toList.getLast?

/-- The set of one element. -/
def singleton (a : α) : OrdSet α := ⟨[a], List.pairwise_singleton _ _⟩

/-- The elements that satisfy `p`. -/
def filter (s : OrdSet α) (p : α → Bool) : OrdSet α := ⟨s.toList.filter p, s.sorted.filter _⟩

/-- Whether the greatest element of one set is the least of the other. Two such sets share this
element only. -/
def touches (s t : OrdSet α) : Bool :=
  (s.first?.any fun a => t.last?.any fun b => compare a b == .eq) ||
    (s.last?.any fun a => t.first?.any fun b => compare a b == .eq)

/-- From this many times the size on, a set is searched for the elements of the smaller one. -/
def searchFactor : Nat := 16

/-- Whether a common element is taken from `t` and searched for in `s`: `t` is much smaller, and
the ends do not tell already what the sets share. -/
def searchedFor (s t : OrdSet α) : Bool := t.size ≤ s.size / searchFactor && !s.touches t

/-- The elements of both sets. Of two equal elements that of `s` is kept, unless `s` is searched
for the elements of `t`. -/
def inter (s t : OrdSet α) : OrdSet α :=
  if s.searchedFor t then t.filter s.contains else s.filter t.contains

/-- The elements of `s` that `t` does not contain. -/
def diff (s t : OrdSet α) : OrdSet α := s.filter fun a => !t.contains a

/-- Whether `t` contains every element of `s`. -/
def subset (s t : OrdSet α) : Bool := s.toList.all t.contains

variable [Std.TransOrd α]

/-- Adds `a`, unless an equal element is there already. -/
def insert (s : OrdSet α) (a : α) : OrdSet α :=
  ⟨insertInto a s.toList, sorted_insertInto a s.sorted⟩

/-- Inserts the elements of a list one by one. -/
def insertAll (s : OrdSet α) (as : List α) : OrdSet α := as.foldl insert s

/-- The set of the elements of a list. -/
def ofList (as : List α) : OrdSet α := empty.insertAll as

/-- The elements of both sets. Of two equal elements that of `s` is kept. -/
def union (s t : OrdSet α) : OrdSet α := s.insertAll t.toList

/-! ## What a set contains -/

omit [Std.TransOrd α] in
@[simp] theorem contains_empty (a : α) : (empty : OrdSet α).contains a = false := rfl

omit [Std.TransOrd α] in
/-- Membership is up to equality in the order. -/
theorem contains_iff {s : OrdSet α} {a : α} :
    s.contains a = true ↔ ∃ b ∈ s.toList, compare a b = .eq := by
  simp [contains, List.any_eq_true]

theorem contains_congr (s : OrdSet α) {a b : α} (h : compare a b = .eq) :
    s.contains a = s.contains b := by
  simp only [contains, compare_congr_left h]

theorem any_insertInto (a b : α) :
    ∀ es : List α, (insertInto a es).any (fun c => compare b c == .eq)
      = (compare b a == .eq || es.any fun c => compare b c == .eq)
  | [] => rfl
  | c :: rest => by
    simp only [insertInto]
    split
    next => rfl
    next hc =>
      rw [List.any_cons, compare_congr_right hc, ← Bool.or_assoc,
        Bool.or_self]
    next => simp only [List.any_cons, any_insertInto a b rest, Bool.or_left_comm]

/-- The new element and its equals are added, and nothing is lost. -/
@[simp] theorem contains_insert (s : OrdSet α) (a b : α) :
    (s.insert a).contains b = (compare b a == .eq || s.contains b) :=
  any_insertInto a b s.toList

theorem contains_insertAll (b : α) :
    ∀ (as : List α) (s : OrdSet α),
      (s.insertAll as).contains b = (s.contains b || as.any fun a => compare b a == .eq)
  | [], s => (Bool.or_false _).symm
  | a :: rest, s => by
    change ((s.insert a).insertAll rest).contains b = _
    rw [contains_insertAll b rest, contains_insert, List.any_cons,
      Bool.or_comm (compare b a == .eq), Bool.or_assoc]

/-- A set built from a list contains the elements of the list. -/
theorem contains_ofList (as : List α) (b : α) :
    (ofList as).contains b = as.any fun a => compare b a == .eq := by
  simp [ofList, contains_insertAll]

/-- A union contains what either operand contains. -/
@[simp] theorem contains_union (s t : OrdSet α) (a : α) :
    (s.union t).contains a = (s.contains a || t.contains a) :=
  contains_insertAll a t.toList s

omit [Std.TransOrd α] in
/-- A filter keeps the elements that pass, where its test does not tell equal ones apart. -/
theorem contains_filter (s : OrdSet α) {p : α → Bool}
    (hp : ∀ {a b : α}, compare a b = .eq → p a = p b) (a : α) :
    (s.filter p).contains a = (s.contains a && p a) := by
  rw [Bool.eq_iff_iff, Bool.and_eq_true, contains_iff, contains_iff]
  constructor
  · rintro ⟨b, hb, hab⟩
    obtain ⟨hb, hpb⟩ := List.mem_filter.1 hb
    exact ⟨⟨b, hb, hab⟩, hp hab ▸ hpb⟩
  · rintro ⟨⟨b, hb, hab⟩, hpa⟩
    exact ⟨b, List.mem_filter.2 ⟨hb, hp hab ▸ hpa⟩, hab⟩

/-- An intersection contains what both operands contain. -/
@[simp] theorem contains_inter (s t : OrdSet α) (a : α) :
    (s.inter t).contains a = (s.contains a && t.contains a) := by
  rw [inter]
  split
  · rw [contains_filter t (contains_congr s), Bool.and_comm]
  · exact contains_filter s (contains_congr t) a

@[simp] theorem contains_diff (s t : OrdSet α) (a : α) :
    (s.diff t).contains a = (s.contains a && !t.contains a) :=
  contains_filter s (fun h => congrArg (!·) (contains_congr t h)) a

/-- Inclusion is by membership, not by the listed elements. -/
theorem subset_iff {s t : OrdSet α} :
    s.subset t = true ↔ ∀ a, s.contains a = true → t.contains a = true := by
  rw [subset, List.all_eq_true]
  constructor
  · intro h a ha
    obtain ⟨b, hb, hab⟩ := contains_iff.1 ha
    exact contains_congr t hab ▸ h b hb
  · exact fun h a ha => h a (contains_iff.2 ⟨a, ha, Std.ReflCmp.compare_self⟩)

end OrdSet

end Overapprox
