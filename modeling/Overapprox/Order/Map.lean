import Overapprox.Order.Atom

/-!
# Finite maps in key order

A finite map is the list of its bindings in strictly increasing key order. Keys that compare as
equal are the same key: inserting under a key that is already bound replaces the value and keeps
the key that was there.

* `OrdMap.find?_insert_self`, `OrdMap.find?_insert_of_ne`: looking up after an insertion.
* `OrdMap.find?_erase_self`, `OrdMap.find?_erase_of_ne`: looking up after a removal.
* `OrdMap.find?_filterMap`: looking up after a map over the bindings.
* `OrdMap.find?_eq_some_of_mem`: every binding is found under its own key.
-/

namespace Overapprox

/-- A finite map from `κ` to `ν`, its bindings listed in strictly increasing key order. -/
structure OrdMap (κ ν : Type) [Ord κ] where
  /-- The bindings. -/
  entries : List (κ × ν)
  /-- Keys increase strictly, so no two of them compare as equal. -/
  sorted : entries.Pairwise fun a b => compare a.1 b.1 = .lt

namespace OrdMap

variable {κ ν μ : Type} [Ord κ]

/-! ## Bindings in a sorted list -/

/-- Binds `k` to `v` in a sorted list of bindings. -/
def insertInto (k : κ) (v : ν) : List (κ × ν) → List (κ × ν)
  | [] => [(k, v)]
  | (l, w) :: rest =>
    match compare k l with
    | .lt => (k, v) :: (l, w) :: rest
    | .eq => (l, v) :: rest
    | .gt => (l, w) :: insertInto k v rest

/-- The value bound to `k` in a list of bindings. -/
def findIn (k : κ) : List (κ × ν) → Option ν
  | [] => none
  | (l, w) :: rest => if compare k l = .eq then some w else findIn k rest

/-- Insertion brings in no other key than its own. -/
theorem exists_of_mem_insertInto {k : κ} {v : ν} {p : κ × ν} :
    ∀ {es : List (κ × ν)}, p ∈ insertInto k v es → p.1 = k ∨ ∃ q ∈ es, p.1 = q.1
  | [], h => by
    simp only [insertInto, List.mem_singleton] at h
    exact .inl (by rw [h])
  | (l, w) :: rest, h => by
    simp only [insertInto] at h
    split at h
    · rcases List.mem_cons.1 h with rfl | h
      · exact .inl rfl
      · exact .inr ⟨p, h, rfl⟩
    · rcases List.mem_cons.1 h with rfl | h
      · exact .inr ⟨(l, w), List.mem_cons_self, rfl⟩
      · exact .inr ⟨p, List.mem_cons_of_mem _ h, rfl⟩
    · rcases List.mem_cons.1 h with rfl | h
      · exact .inr ⟨(l, w), List.mem_cons_self, rfl⟩
      · rcases exists_of_mem_insertInto h with h | ⟨q, hq, h⟩
        · exact .inl h
        · exact .inr ⟨q, List.mem_cons_of_mem _ hq, h⟩

/-- Insertion keeps the keys in order, and with it their uniqueness. -/
theorem sorted_insertInto [Std.TransOrd κ] (k : κ) (v : ν) :
    ∀ {es : List (κ × ν)}, (es.Pairwise fun a b => compare a.1 b.1 = .lt) →
      (insertInto k v es).Pairwise fun a b => compare a.1 b.1 = .lt
  | [], _ => List.pairwise_singleton _ _
  | (l, w) :: rest, h => by
    obtain ⟨hl, hrest⟩ := List.pairwise_cons.1 h
    simp only [insertInto]
    split
    next hk =>
      refine List.pairwise_cons.2 ⟨fun p hp => ?_, h⟩
      rcases List.mem_cons.1 hp with rfl | hp
      · exact hk
      · exact Std.TransCmp.lt_trans hk (hl p hp)
    next => exact List.pairwise_cons.2 ⟨fun p hp => hl p hp, hrest⟩
    next hk =>
      refine List.pairwise_cons.2 ⟨fun p hp => ?_, sorted_insertInto k v hrest⟩
      rcases exists_of_mem_insertInto hp with hpk | ⟨q, hq, hpq⟩
      · simpa [hpk] using Std.OrientedCmp.lt_of_gt hk
      · simpa [hpq] using hl q hq

/-! ## Operations -/

/-- The map without bindings. -/
def empty : OrdMap κ ν := ⟨[], .nil⟩

instance : EmptyCollection (OrdMap κ ν) := ⟨empty⟩

instance : Inhabited (OrdMap κ ν) := ⟨empty⟩

/-- Two maps are equal when they bind equal keys to equal values. -/
instance [BEq κ] [BEq ν] : BEq (OrdMap κ ν) := ⟨fun a b => a.entries == b.entries⟩

/-- Binds `k` to `v`, keeping the old key when `k` is already bound. -/
def insert [Std.TransOrd κ] (m : OrdMap κ ν) (k : κ) (v : ν) : OrdMap κ ν :=
  ⟨insertInto k v m.entries, sorted_insertInto k v m.sorted⟩

/-- The value bound to `k`. -/
def find? (m : OrdMap κ ν) (k : κ) : Option ν := findIn k m.entries

/-- Whether `k` is bound. -/
def contains (m : OrdMap κ ν) (k : κ) : Bool := (m.find? k).isSome

/-- Removes the binding of `k`. -/
def erase (m : OrdMap κ ν) (k : κ) : OrdMap κ ν :=
  ⟨m.entries.filter fun e => compare k e.1 != .eq, m.sorted.filter _⟩

/-- The keys, in increasing order. -/
def keys (m : OrdMap κ ν) : List κ := m.entries.map (·.1)

/-- The values, in the order of their keys. -/
def values (m : OrdMap κ ν) : List ν := m.entries.map (·.2)

/-- The number of bindings. -/
def size (m : OrdMap κ ν) : Nat := m.entries.length

/-- Whether there are no bindings. -/
def isEmpty (m : OrdMap κ ν) : Bool := m.entries.isEmpty

/-- Inserts the bindings of a list one by one, so the last value of a key counts. -/
def ofList [Std.TransOrd κ] (es : List (κ × ν)) : OrdMap κ ν :=
  es.foldl (fun m e => m.insert e.1 e.2) empty

/-- The new value of a binding, if it is kept. -/
def keepEntry (f : κ → ν → Option μ) (e : κ × ν) : Option (κ × μ) := (f e.1 e.2).map (e.1, ·)

/-- Keeps the bindings for which `f` gives a new value. -/
def filterMap (f : κ → ν → Option μ) (m : OrdMap κ ν) : OrdMap κ μ :=
  ⟨m.entries.filterMap (keepEntry f), by
    refine m.sorted.filterMap _ ?_
    rintro a b hab c hc d hd
    simp only [keepEntry, Option.map_eq_some_iff] at hc hd
    obtain ⟨_, _, rfl⟩ := hc
    obtain ⟨_, _, rfl⟩ := hd
    exact hab⟩

/-! ## Looking up -/

@[simp] theorem find?_empty (k : κ) : (empty : OrdMap κ ν).find? k = none := rfl

theorem findIn_eq_none_of_lt [Std.TransOrd κ] {k : κ} :
    ∀ {es : List (κ × ν)}, (∀ e ∈ es, compare k e.1 = .lt) → findIn k es = none
  | [], _ => rfl
  | e :: rest, h => by
    have he := h e List.mem_cons_self
    simp only [findIn, he, reduceCtorEq, if_false]
    exact findIn_eq_none_of_lt fun e' he' => h e' (List.mem_cons_of_mem _ he')

/-- Looking up equal keys finds the same entry. -/
theorem findIn_congr [Std.TransOrd κ] {k l : κ} (h : compare k l = .eq) :
    ∀ es : List (κ × ν), findIn k es = findIn l es
  | [] => rfl
  | e :: rest => by
    simp only [findIn, compare_congr_left h, findIn_congr h rest]

theorem findIn_insertInto_self [Std.TransOrd κ] (k : κ) (v : ν) :
    ∀ es : List (κ × ν), findIn k (insertInto k v es) = some v
  | [] => by simp [insertInto, findIn, Std.ReflCmp.compare_self]
  | (l, w) :: rest => by
    simp only [insertInto]
    split
    next => simp [findIn, Std.ReflCmp.compare_self]
    next hk => simp [findIn, hk]
    next hk => simp [findIn, hk, findIn_insertInto_self k v rest]

theorem findIn_insertInto_of_ne [Std.TransOrd κ] {k l : κ} (v : ν) (h : compare l k ≠ .eq) :
    ∀ es : List (κ × ν), findIn l (insertInto k v es) = findIn l es
  | [] => by simp [insertInto, findIn, h]
  | (j, w) :: rest => by
    simp only [insertInto]
    split
    next => simp [findIn, h]
    next hk =>
      have hj : compare l j ≠ .eq := by rwa [← compare_congr_right hk]
      simp [findIn, hj]
    next => simp [findIn, findIn_insertInto_of_ne v h rest]

/-- What is inserted is found. -/
theorem find?_insert_self [Std.TransOrd κ] (m : OrdMap κ ν) (k : κ) (v : ν) :
    (m.insert k v).find? k = some v :=
  findIn_insertInto_self k v m.entries

/-- Insertion leaves the other keys alone. -/
theorem find?_insert_of_ne [Std.TransOrd κ] (m : OrdMap κ ν) {k l : κ} (v : ν)
    (h : compare l k ≠ .eq) : (m.insert k v).find? l = m.find? l :=
  findIn_insertInto_of_ne v h m.entries

/-- Keys that compare as equal are bound to the same value. -/
theorem find?_congr [Std.TransOrd κ] (m : OrdMap κ ν) {k l : κ} (h : compare k l = .eq) :
    m.find? k = m.find? l :=
  findIn_congr h m.entries

/-- What is erased is not found any more. -/
theorem find?_erase_self (m : OrdMap κ ν) (k : κ) : (m.erase k).find? k = none := by
  change findIn k (m.entries.filter fun e => compare k e.1 != .eq) = none
  generalize m.entries = es
  induction es with
  | nil => rfl
  | cons e rest ih => by_cases h : compare k e.1 = .eq <;> simp [h, findIn, ih]

theorem find?_erase_of_ne [Std.TransOrd κ] (m : OrdMap κ ν) {k l : κ}
    (h : compare l k ≠ .eq) : (m.erase k).find? l = m.find? l := by
  change findIn l (m.entries.filter fun e => compare k e.1 != .eq) = findIn l m.entries
  generalize m.entries = es
  induction es with
  | nil => rfl
  | cons e rest ih =>
    by_cases he : compare k e.1 = .eq
    · have hl : compare l e.1 ≠ .eq := by rwa [← compare_congr_right he]
      simp [he, findIn, hl, ih]
    · simp [he, findIn, ih]

/-- Every listed entry is found, since keys are unique. -/
theorem find?_eq_some_of_mem [Std.TransOrd κ] (m : OrdMap κ ν) {k : κ} {v : ν}
    (h : (k, v) ∈ m.entries) : m.find? k = some v := by
  have hs := m.sorted
  unfold find?
  generalize m.entries = es at h hs
  induction es with
  | nil => cases h
  | cons e rest ih =>
    obtain ⟨he, hrest⟩ := List.pairwise_cons.1 hs
    rcases List.mem_cons.1 h with rfl | h
    · simp [findIn, Std.ReflCmp.compare_self]
    · have hne : compare k e.1 = .gt := Std.OrientedCmp.gt_of_lt (he _ h)
      simp [findIn, hne, ih h hrest]

/-- A function of the entries can be applied after the lookup, where it does not tell equal keys
apart. -/
theorem find?_filterMap [Std.TransOrd κ] (f : κ → ν → Option μ) (m : OrdMap κ ν)
    (hf : ∀ {k l : κ} {v : ν}, compare k l = .eq → f k v = f l v) (k : κ) :
    (m.filterMap f).find? k = (m.find? k).bind (f k) := by
  have hs := m.sorted
  change findIn k (m.entries.filterMap (keepEntry f)) = (findIn k m.entries).bind (f k)
  generalize m.entries = es at hs
  induction es with
  | nil => rfl
  | cons e rest ih =>
    obtain ⟨he, hrest⟩ := List.pairwise_cons.1 hs
    by_cases hk : compare k e.1 = .eq
    · have hnone : findIn k (rest.filterMap (keepEntry f)) = none := by
        refine findIn_eq_none_of_lt fun d hd => ?_
        obtain ⟨c, hc, hd⟩ := List.mem_filterMap.1 hd
        simp only [keepEntry, Option.map_eq_some_iff] at hd
        obtain ⟨_, _, rfl⟩ := hd
        exact Std.TransCmp.lt_of_eq_of_lt hk (he c hc)
      cases hv : f e.1 e.2 with
      | none => simp [keepEntry, hv, findIn, hk, hnone, hf hk]
      | some w => simp [keepEntry, hv, findIn, hk, hf hk]
    · cases hv : f e.1 e.2 with
      | none => simpa [keepEntry, hv, findIn, hk] using ih hrest
      | some w => simpa [keepEntry, hv, findIn, hk] using ih hrest

end OrdMap

end Overapprox
