import Overapprox.Order.Map

/-!
# Reading finite maps

A map is known by what it finds. Equal maps find equal values under every key, and every binding
that is found is listed under a key that compares as equal to the one that was looked for.

* `OrdMap.exists_mem_of_find?`: what is found is listed.
* `OrdMap.find?_foldl_insert`: looking up after the bindings of a list were inserted.
* `OrdMap.rel_find?_of_beq`: equal maps find equal values.
-/

namespace Overapprox

namespace OrdMap

variable {κ ν μ : Type} [Ord κ]

/-- A map is the list of its entries. -/
theorem eq_of_entries_eq : ∀ {m n : OrdMap κ ν}, m.entries = n.entries → m = n
  | ⟨_, _⟩, ⟨_, _⟩, rfl => rfl

instance [BEq κ] [BEq ν] [ReflBEq κ] [ReflBEq ν] : ReflBEq (OrdMap κ ν) :=
  ⟨BEq.refl (α := List (κ × ν)) _⟩

theorem exists_mem_of_findIn {k : κ} {v : ν} :
    ∀ {es : List (κ × ν)}, findIn k es = some v → ∃ e ∈ es, compare k e.1 = .eq ∧ e.2 = v
  | [], h => by cases h
  | e :: rest, h => by
    unfold findIn at h
    split at h
    · exact ⟨e, List.mem_cons_self, ‹_›, Option.some.inj h⟩
    · obtain ⟨d, hd, hkd⟩ := exists_mem_of_findIn h
      exact ⟨d, List.mem_cons_of_mem _ hd, hkd⟩

/-- What is found for a key is the value of some entry with an equal key. -/
theorem exists_mem_of_find? {m : OrdMap κ ν} {k : κ} {v : ν} (h : m.find? k = some v) :
    ∃ e ∈ m.entries, compare k e.1 = .eq ∧ e.2 = v :=
  exists_mem_of_findIn h

variable [Std.TransOrd κ]

/-- A property of the listed values is one of the values that are found. -/
theorem forall_entries_iff {m : OrdMap κ ν} {p : ν → Prop} :
    (∀ e ∈ m.entries, p e.2) ↔ ∀ k v, m.find? k = some v → p v := by
  constructor
  · intro h k v hv
    obtain ⟨e, he, -, rfl⟩ := exists_mem_of_find? hv
    exact h e he
  · intro h e he
    exact h e.1 e.2 (m.find?_eq_some_of_mem he)

omit [Std.TransOrd κ] in
/-- Values that are computed from keys and values, alike for keys that compare as equal, are found
where those values were. -/
theorem findIn_map {f : κ → ν → μ}
    (hf : ∀ {k l : κ}, compare k l = .eq → ∀ v, f k v = f l v) (k : κ) :
    ∀ es : List (κ × ν), findIn k (es.map fun e => (e.1, f e.1 e.2)) = (findIn k es).map (f k)
  | [] => rfl
  | e :: rest => by
    rw [List.map_cons, findIn, findIn]
    split
    case isTrue hk => rw [Option.map_some, hf hk e.2]
    case isFalse hk => exact findIn_map hf k rest

/-- Entries with different keys are inserted one by one. A key that none of them has keeps its
value. -/
theorem find?_foldl_insertIn (g : κ × ν → μ) (k : κ) :
    ∀ {es : List (κ × ν)} (m : OrdMap κ μ), (es.Pairwise fun a b => compare a.1 b.1 = .lt) →
      (es.foldl (fun m e => m.insert e.1 (g e)) m).find? k =
        (findIn k (es.map fun e => (e.1, g e))).or (m.find? k)
  | [], _, _ => rfl
  | e :: rest, m, hs => by
    obtain ⟨he, hrest⟩ := List.pairwise_cons.1 hs
    rw [List.foldl_cons, find?_foldl_insertIn g k _ hrest, List.map_cons, findIn]
    split
    case isTrue hk =>
      -- The keys that follow are greater, so no later insertion replaces this value.
      have hnone : findIn k (rest.map fun e => (e.1, g e)) = none := by
        refine findIn_eq_none_of_lt fun d hd => ?_
        obtain ⟨c, hc, rfl⟩ := List.mem_map.1 hd
        exact Std.TransCmp.lt_of_eq_of_lt hk (he c hc)
      rw [hnone, Option.none_or, find?_congr _ hk, find?_insert_self, Option.some_or]
    case isFalse hk => rw [find?_insert_of_ne _ _ hk]

/-- Inserting the bindings of a map, their values changed, over another map. -/
theorem find?_foldl_insert {f : κ → ν → μ}
    (hf : ∀ {k l : κ}, compare k l = .eq → ∀ v, f k v = f l v) (m : OrdMap κ μ) (n : OrdMap κ ν)
    (k : κ) :
    (n.entries.foldl (fun m e => m.insert e.1 (f e.1 e.2)) m).find? k =
      ((n.find? k).map (f k)).or (m.find? k) := by
  rw [find?_foldl_insertIn (fun e => f e.1 e.2) k m n.sorted, findIn_map hf]
  rfl

theorem rel_findIn_of_beq [BEq κ] [BEq ν] [Std.LawfulBEqOrd κ] (k : κ) :
    ∀ {es ds : List (κ × ν)}, (es == ds) = true →
      Option.Rel (fun v w => (v == w) = true) (findIn k es) (findIn k ds)
  | [], [], _ => .none
  | [], _ :: _, h => by cases h
  | _ :: _, [], h => by cases h
  | e :: es, d :: ds, h => by
    obtain ⟨hhead, htail⟩ := Bool.and_eq_true_iff.1 h
    obtain ⟨hkey, hvalue⟩ := Bool.and_eq_true_iff.1 hhead
    have hsame : compare k e.1 = compare k d.1 :=
      compare_congr_right (Std.LawfulBEqOrd.compare_eq_iff_beq.2 hkey) k
    rw [findIn, findIn, hsame]
    split
    · exact .some hvalue
    · exact rel_findIn_of_beq k htail

/-- Equal maps find equal values, or none, for the same key. -/
theorem rel_find?_of_beq [BEq κ] [BEq ν] [Std.LawfulBEqOrd κ] {m n : OrdMap κ ν}
    (h : (m == n) = true) (k : κ) :
    Option.Rel (fun v w => (v == w) = true) (m.find? k) (n.find? k) :=
  rel_findIn_of_beq k h

end OrdMap

end Overapprox
