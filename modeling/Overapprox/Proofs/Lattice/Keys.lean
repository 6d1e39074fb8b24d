import Overapprox.Env.Value
import Overapprox.Proofs.Lattice.Lawful

/-!
# Listed keys

A map or function lists the keys of what it was made from, each with the annotations that it had
there: an insertion keeps a key that compares as equal, and a new key is the one that was inserted.

* `OrdMap.mem_keys_insert`, `OrdMap.mem_keys_foldl_insert`: insertions.
* `Pointwise.mem_keys_join`, `Pointwise.mem_keys_meet`, `Pointwise.mem_keys_widen`: operations on
  two functions.
* `Pointwise.mem_keys_renameKeys`: renaming.
-/

namespace Overapprox

open AbstractLattice

/-! ## Maps -/

namespace OrdMap

variable {κ ν μ : Type} [Ord κ] {j k : κ}

theorem mem_keys_of_mem {m : OrdMap κ ν} {e : κ × ν} (h : e ∈ m.entries) : e.1 ∈ m.keys :=
  List.mem_map_of_mem h

/-- Changing and dropping entries brings in no keys. -/
theorem mem_keys_filterMap {f : κ → ν → Option μ} {m : OrdMap κ ν} (h : j ∈ (m.filterMap f).keys) :
    j ∈ m.keys := by
  obtain ⟨e, he, rfl⟩ := List.mem_map.1 h
  obtain ⟨d, hd, he⟩ := List.mem_filterMap.1 he
  obtain ⟨v, -, rfl⟩ := Option.map_eq_some_iff.1 he
  exact mem_keys_of_mem hd

variable [Std.TransOrd κ]

theorem mem_keys_insert {m : OrdMap κ ν} {v : ν} (h : j ∈ (m.insert k v).keys) :
    j = k ∨ j ∈ m.keys := by
  obtain ⟨e, he, rfl⟩ := List.mem_map.1 h
  refine (exists_of_mem_insertInto he).imp_right ?_
  rintro ⟨d, hd, hkey⟩
  rw [hkey]
  exact mem_keys_of_mem hd

/-- A fold of insertions brings in the keys of the inserted entries only. -/
theorem mem_keys_foldl_insert {g : κ × ν → μ} :
    ∀ (es : List (κ × ν)) {m : OrdMap κ μ},
      j ∈ (es.foldl (fun m e => m.insert e.1 (g e)) m).keys → (∃ e ∈ es, e.1 = j) ∨ j ∈ m.keys
  | [], _, h => .inr h
  | e :: rest, m, h => by
    rcases mem_keys_foldl_insert rest h with ⟨d, hd, rfl⟩ | h
    · exact .inl ⟨d, List.mem_cons_of_mem e hd, rfl⟩
    · exact (mem_keys_insert h).imp_left fun heq => ⟨e, List.mem_cons_self, heq.symm⟩

end OrdMap

/-! ## Functions -/

namespace Pointwise

variable {κ ν : Type} [Ord κ] {f g : Pointwise κ ν} {j k : κ}

theorem mem_keys_forget (h : j ∈ (f.forget k).keys) : j ∈ f.keys := by
  cases f with
  | top | bottom => exact h
  | table m =>
    obtain ⟨e, he, rfl⟩ := List.mem_map.1 h
    exact OrdMap.mem_keys_of_mem (List.mem_filter.1 he).1

variable [Std.TransOrd κ]

theorem mem_keys_put {v : ν} (h : j ∈ (f.put k v).keys) : j = k ∨ j ∈ f.keys :=
  OrdMap.mem_keys_insert h

/-- Every key after a renaming is the new name of one before it. -/
theorem mem_keys_renameKeys {rename : κ → Option κ} (h : j ∈ (f.renameKeys rename).keys) :
    ∃ k ∈ f.keys, rename k = some j := by
  cases f with
  | top | bottom => cases h
  | table m =>
    obtain ⟨e, he, rfl⟩ | h := OrdMap.mem_keys_foldl_insert _ h
    · obtain ⟨d, hd, he⟩ := List.mem_filterMap.1 he
      obtain ⟨k, hk, rfl⟩ := Option.map_eq_some_iff.1 he
      exact ⟨d.1, OrdMap.mem_keys_of_mem hd, hk⟩
    · cases h

variable [BEq κ] [BEq ν] [AbstractLattice ν]

theorem mem_keys_join (h : j ∈ (join f g).keys) : j ∈ f.keys ∨ j ∈ g.keys := by
  revert h
  exact join_cases (p := fun u : Pointwise κ ν => j ∈ u.keys → j ∈ f.keys ∨ j ∈ g.keys)
    (fun _ => .inl) (fun _ => .inr) fun _ _ h => .inl (OrdMap.mem_keys_filterMap h)

theorem mem_keys_widen (h : j ∈ (widen f g).keys) : j ∈ f.keys ∨ j ∈ g.keys := by
  revert h
  exact widen_cases (p := fun u : Pointwise κ ν => j ∈ u.keys → j ∈ f.keys ∨ j ∈ g.keys)
    (fun _ => .inl) (fun _ => .inr) fun _ _ h => .inl (OrdMap.mem_keys_filterMap h)

/-- A meet lists keys of either operand, since a key that only one of them lists keeps its value. -/
theorem mem_keys_meet (h : j ∈ (meet f g).keys) : j ∈ f.keys ∨ j ∈ g.keys := by
  revert h
  refine meet_cases (p := fun u : Pointwise κ ν => j ∈ u.keys → j ∈ f.keys ∨ j ∈ g.keys)
    (fun _ => .inl) (fun _ => .inr) fun _ _ h => ?_
  obtain ⟨e, he, rfl⟩ | h := OrdMap.mem_keys_foldl_insert _ h
  · exact .inr (OrdMap.mem_keys_of_mem he)
  · exact .inl h

end Pointwise

/-! ## Environments -/

namespace ValueEnv

variable {δ : Type}

/-- The identifiers that are listed, with the annotations that they were listed with. -/
def keys (env : ValueEnv δ) : List Identifier := env.function.keys

theorem mem_keys_forget {env : ValueEnv δ} {x y : Identifier} (h : y ∈ (env.forget x).keys) :
    y ∈ env.keys :=
  Pointwise.mem_keys_forget h

/-- What is bound after a return was bound before it, perhaps under a hidden name. -/
theorem mem_keys_popScope {env : ValueEnv δ} {token : ScopeToken} {y : Identifier}
    (h : y ∈ (env.popScope token).keys) : ∃ x ∈ env.keys, x.popScope? token = some y :=
  Pointwise.mem_keys_renameKeys h

theorem mem_keys_pushScope {env : ValueEnv δ} {token : ScopeToken} {y : Identifier}
    (h : y ∈ (env.pushScope token).keys) : ∃ x ∈ env.keys, x.pushScope token = y := by
  change y ∈ (env.function.renameKeys fun x => some (x.pushScope token)).keys at h
  obtain ⟨x, hx, heq⟩ := Pointwise.mem_keys_renameKeys h
  exact ⟨x, hx, Option.some.inj heq⟩

variable [BEq δ] [ValueDomain δ] {a b env : ValueEnv δ} {x y : Identifier} {v : δ}

theorem mem_keys_join (h : y ∈ (join a b).keys) : y ∈ a.keys ∨ y ∈ b.keys := by
  revert h
  exact join_cases (p := fun u : ValueEnv δ => y ∈ u.keys → y ∈ a.keys ∨ y ∈ b.keys)
    (fun _ => .inl) (fun _ => .inr) fun _ _ => Pointwise.mem_keys_join

theorem mem_keys_widen (h : y ∈ (widen a b).keys) : y ∈ a.keys ∨ y ∈ b.keys := by
  revert h
  exact widen_cases (p := fun u : ValueEnv δ => y ∈ u.keys → y ∈ a.keys ∨ y ∈ b.keys)
    (fun _ => .inl) (fun _ => .inr) fun _ _ => Pointwise.mem_keys_widen

theorem mem_keys_ofFunction {f : Pointwise Identifier δ} (h : y ∈ (ofFunction f).keys) :
    y ∈ f.keys := by
  unfold ofFunction at h
  split at h
  · cases h
  · exact h

/-- Whether or not a meet falls to bottom, it binds no identifier that neither operand binds. -/
theorem mem_keys_meet (h : y ∈ (meet a b).keys) : y ∈ a.keys ∨ y ∈ b.keys := by
  revert h
  exact meet_cases (p := fun u : ValueEnv δ => y ∈ u.keys → y ∈ a.keys ∨ y ∈ b.keys)
    (fun _ => .inl) (fun _ => .inr) fun _ _ h => Pointwise.mem_keys_meet (mem_keys_ofFunction h)

/-- Binding an identifier brings in no other. -/
theorem mem_keys_bind (h : y ∈ (env.bind x v).keys) : y = x ∨ y ∈ env.keys := by
  unfold bind at h
  generalize (if x.isWeak && env.function.contains x then join (env.get x) v else v) = u at h
  dsimp only at h
  split at h
  · cases h
  · exact Pointwise.mem_keys_put h

/-- Only an identifier that the domain tracks is listed by an assignment. -/
theorem mem_keys_assign {opts : Options} {e : ValueExpr} (h : y ∈ (env.assign opts x e).keys) :
    y = x ∧ ValueDomain.tracks δ x = true ∨ y ∈ env.keys := by
  unfold assign at h
  split at h
  case isTrue => exact .inr h
  case isFalse hfollowed =>
    simp only [Bool.or_eq_true, not_or, Bool.not_eq_true, Bool.not_eq_false'] at hfollowed
    exact (mem_keys_bind h).imp_left fun heq => ⟨heq, hfollowed.1.2⟩

end ValueEnv

end Overapprox
