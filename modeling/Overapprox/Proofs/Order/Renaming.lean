import Overapprox.Proofs.Order.Map
import Overapprox.Proofs.Order.Set

/-!
# Renaming keys and elements

What is inserted under pairwise different keys is kept whatever the order of the insertions, so a
renaming that keeps keys apart can be undone. Of several bindings of one key the last one counts.
Maps are sorted by the keys of their bindings, and sets by their elements.

* `OrdMap.ofList_eq_of_perm`, `OrdSet.ofList_eq_of_perm`: the order of insertions does not matter.
* `OrdSet.pairwise_map`, `OrdSet.pairwise_flatMap`: what is made of different elements differs.
* `OrdMap.ofList_rename_undone`, `OrdSet.ofList_rename_undone`: renaming and renaming back.
* `OrdMap.find?_ofList_cases`: what is found after the bindings of a list were inserted.
-/

namespace Overapprox

/-! ## Insertions under different keys -/

section Insertions

variable {κ β σ : Type} [Ord κ] {key : β → κ} {l m : List β}

/-- Two elements under different keys. -/
def KeysDiffer (key : β → κ) (b c : β) : Prop := compare (key b) (key c) ≠ .eq

/-- The elements are in the order of their keys, which are different. -/
def SortedBy (key : β → κ) (l : List β) : Prop :=
  l.Pairwise fun b c => compare (key b) (key c) = .lt

/-- Entries in strict order have different keys. -/
theorem SortedBy.keysDiffer (h : SortedBy key l) : l.Pairwise (KeysDiffer key) :=
  h.imp fun hlt heq => nomatch hlt.symm.trans heq

variable [Std.TransOrd κ]

theorem KeysDiffer.symm {b c : β} (h : KeysDiffer key b c) : KeysDiffer key c b :=
  fun heq => h (Std.OrientedCmp.eq_symm heq)

/-- Lists of the same elements in the order of the same keys are equal. -/
theorem SortedBy.eq_of_perm (hl : SortedBy key l) (hm : SortedBy key m) (h : l.Perm m) : l = m := by
  refine h.eq_of_pairwise (fun b c _ _ hbc hcb => ?_) hl hm
  rw [Std.OrientedCmp.gt_of_lt hcb] at hbc
  cases hbc

/-- Insertions that add elements under new keys add all elements of a list. By induction on the
list; each of its elements is new to those that were inserted before. -/
theorem perm_foldl_insert (elements : σ → List β) {insert : σ → β → σ}
    (hinsert : ∀ s b, (∀ c ∈ elements s, KeysDiffer key b c) →
      (elements (insert s b)).Perm (b :: elements s))
    {s : σ} (hnew : ∀ b ∈ l, ∀ c ∈ elements s, KeysDiffer key b c)
    (h : l.Pairwise (KeysDiffer key)) : (elements (l.foldl insert s)).Perm (l ++ elements s) := by
  induction l generalizing s with
  | nil => exact .refl _
  | cons b rest ih =>
    obtain ⟨hb, hrest⟩ := List.pairwise_cons.1 h
    obtain ⟨hnewb, hnewrest⟩ := List.forall_mem_cons.1 hnew
    have hadded := hinsert s b hnewb
    have hnext : ∀ c ∈ rest, ∀ d ∈ elements (insert s b), KeysDiffer key c d := by
      intro c hc d hd
      rcases List.mem_cons.1 (hadded.mem_iff.1 hd) with rfl | hd
      · exact (hb c hc).symm
      · exact hnewrest c hc d hd
    have hrestAdded : (elements (rest.foldl insert (insert s b))).Perm
        (rest ++ elements (insert s b)) := ih hnext hrest
    exact hrestAdded.trans ((hadded.append_left rest).trans List.perm_middle)

end Insertions

/-! ## Maps -/

namespace OrdMap

variable {κ ν : Type} [Ord κ] {k : κ} {v : ν} {es : List (κ × ν)} {m : OrdMap κ ν}

/-- A new key goes somewhere between the others, and nothing is replaced. -/
theorem perm_insertInto (h : ∀ e ∈ es, compare k e.1 ≠ .eq) :
    (insertInto k v es).Perm ((k, v) :: es) := by
  induction es with
  | nil => exact .refl _
  | cons e rest ih =>
    obtain ⟨he, hrest⟩ := List.forall_mem_cons.1 h
    obtain ⟨l, w⟩ := e
    rw [insertInto]
    split
    next => exact .refl _
    next heq => exact absurd heq he
    next => exact ((ih hrest).cons (l, w)).trans (.swap _ _ _)

variable [Std.TransOrd κ]

/-- A map built from entries with different keys keeps all of them. -/
theorem entries_ofList_perm (h : es.Pairwise (KeysDiffer Prod.fst)) :
    (ofList es).entries.Perm es := by
  have hinsert (m : OrdMap κ ν) (e : κ × ν) (he : ∀ d ∈ m.entries, KeysDiffer Prod.fst e d) :
      (m.insert e.1 e.2).entries.Perm (e :: m.entries) := perm_insertInto he
  have hperm := perm_foldl_insert entries hinsert (s := empty) (fun _ _ _ hd => nomatch hd) h
  rwa [show (empty : OrdMap κ ν).entries = [] from rfl, List.append_nil] at hperm

theorem ofList_eq_of_perm (h : es.Perm m.entries) : ofList es = m := by
  have hsorted : SortedBy Prod.fst m.entries := m.sorted
  have hdiffer := (h.pairwise_iff KeysDiffer.symm).2 hsorted.keysDiffer
  exact eq_of_entries_eq (SortedBy.eq_of_perm (ofList es).sorted hsorted
    ((entries_ofList_perm hdiffer).trans h))

/-- Keys that are renamed to different ones get their names back. -/
theorem ofList_rename_undone (m : OrdMap κ ν) {f : κ → κ} {g : κ → Option κ}
    (hdiffer : ∀ j k, compare (f j) (f k) = .eq → compare j k = .eq)
    (hundo : ∀ k, g (f k) = some k) :
    ofList ((ofList (m.entries.map fun e => (f e.1, e.2))).entries.filterMap fun e =>
      (g e.1).map (·, e.2)) = m := by
  have hsorted : SortedBy Prod.fst m.entries := m.sorted
  have hpairwise : (m.entries.map fun e => (f e.1, e.2)).Pairwise (KeysDiffer Prod.fst) :=
    hsorted.keysDiffer.map _ fun _ _ h heq => h (hdiffer _ _ heq)
  refine ofList_eq_of_perm (((entries_ofList_perm hpairwise).filterMap _).trans (.of_eq ?_))
  have hsome : (fun e : κ × ν => (g e.1).map (·, e.2)) ∘ (fun e => (f e.1, e.2)) = some :=
    funext fun e => congrArg (Option.map (·, e.2)) (hundo e.1)
  rw [List.filterMap_map, hsome, List.filterMap_some]

/-! ### Looking up -/

theorem find?_foldl_insert_cases (k : κ) (es : List (κ × ν)) (m : OrdMap κ ν) :
    (∃ e ∈ es, compare k e.1 = .eq ∧
      (es.foldl (fun m e => m.insert e.1 e.2) m).find? k = some e.2) ∨
    (∀ e ∈ es, compare k e.1 ≠ .eq) ∧
      (es.foldl (fun m e => m.insert e.1 e.2) m).find? k = m.find? k := by
  induction es generalizing m with
  | nil => exact .inr ⟨fun _ he => (nomatch he), rfl⟩
  | cons e rest ih =>
    rw [List.foldl_cons]
    obtain ⟨d, hd, hkd, hfind⟩ | ⟨hrest, hfind⟩ := ih (m.insert e.1 e.2)
    · exact .inl ⟨d, List.mem_cons_of_mem e hd, hkd, hfind⟩
    · by_cases hk : compare k e.1 = .eq
      · refine .inl ⟨e, List.mem_cons_self, hk, hfind.trans ?_⟩
        rw [find?_congr _ hk, find?_insert_self]
      · exact .inr ⟨List.forall_mem_cons.2 ⟨hk, hrest⟩,
          hfind.trans (find?_insert_of_ne m e.2 hk)⟩

/-- What is found in the map of a list is one of the bindings of its key in the list. -/
theorem find?_ofList_cases (k : κ) (es : List (κ × ν)) :
    (∃ e ∈ es, compare k e.1 = .eq ∧ (ofList es).find? k = some e.2) ∨
    (∀ e ∈ es, compare k e.1 ≠ .eq) ∧ (ofList es).find? k = none :=
  find?_foldl_insert_cases k es empty

end OrdMap

/-! ## Sets -/

namespace OrdSet

variable {α : Type} [Ord α] {a : α} {as : List α} {s : OrdSet α}

theorem perm_insertInto (h : ∀ b ∈ as, compare a b ≠ .eq) :
    (insertInto a as).Perm (a :: as) := by
  induction as with
  | nil => exact .refl _
  | cons b rest ih =>
    obtain ⟨hb, hrest⟩ := List.forall_mem_cons.1 h
    rw [insertInto]
    split
    next => exact .refl _
    next heq => exact absurd heq hb
    next => exact ((ih hrest).cons b).trans (.swap _ _ _)

variable [Std.TransOrd α]

/-- A set built from different elements keeps all of them. -/
theorem toList_ofList_perm (h : as.Pairwise (KeysDiffer id)) : (ofList as).toList.Perm as := by
  have hinsert (s : OrdSet α) (a : α) (ha : ∀ b ∈ s.toList, KeysDiffer id a b) :
      (s.insert a).toList.Perm (a :: s.toList) := perm_insertInto ha
  have hperm := perm_foldl_insert toList hinsert (s := empty) (fun _ _ _ hb => nomatch hb) h
  rwa [show (empty : OrdSet α).toList = [] from rfl, List.append_nil] at hperm

theorem ofList_eq_of_perm (h : as.Perm s.toList) : ofList as = s := by
  have hsorted : SortedBy id s.toList := s.sorted
  have hdiffer := (h.pairwise_iff KeysDiffer.symm).2 hsorted.keysDiffer
  exact eq_of_toList_eq (SortedBy.eq_of_perm (ofList as).sorted hsorted
    ((toList_ofList_perm hdiffer).trans h))

variable {β : Type} [Ord β] (s : OrdSet α)

omit [Std.TransOrd α] in
/-- Renaming that tells elements apart keeps them apart. -/
theorem pairwise_map {f : α → β} (hf : ∀ a b, compare (f a) (f b) = .eq → compare a b = .eq) :
    (s.toList.map f).Pairwise (KeysDiffer id) :=
  have hsorted : SortedBy id s.toList := s.sorted
  hsorted.keysDiffer.map f fun a b hab heq => hab (hf a b heq)

omit [Std.TransOrd α] in
/-- Lists of different elements stay apart when their elements tell which list they are from. -/
theorem pairwise_flatMap {f : α → List β}
    (hparts : ∀ a ∈ s.toList, (f a).Pairwise (KeysDiffer id))
    (hapart : ∀ a b, ∀ x ∈ f a, ∀ y ∈ f b, compare x y = .eq → compare a b = .eq) :
    (s.toList.flatMap f).Pairwise (KeysDiffer id) :=
  have hsorted : SortedBy id s.toList := s.sorted
  List.pairwise_flatMap.2 ⟨hparts, hsorted.keysDiffer.imp fun hab x hx y hy heq =>
    hab (hapart _ _ x hx y hy heq)⟩

/-- Elements that are renamed to different ones get their names back. -/
theorem ofList_rename_undone {f : α → α} {g : α → Option α}
    (hdiffer : ∀ a b, compare (f a) (f b) = .eq → compare a b = .eq)
    (hundo : ∀ a, g (f a) = some a) :
    ofList ((ofList (s.toList.map f)).toList.filterMap g) = s := by
  refine ofList_eq_of_perm
    (((toList_ofList_perm (s.pairwise_map hdiffer)).filterMap g).trans (.of_eq ?_))
  rw [List.filterMap_map, show g ∘ f = some from funext hundo, List.filterMap_some]

end OrdSet

end Overapprox
