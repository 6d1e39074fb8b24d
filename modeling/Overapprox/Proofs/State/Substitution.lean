import Overapprox.Heap.Scripted
import Overapprox.Proofs.Concrete.Expression
import Overapprox.Proofs.State.Transfer

/-!
# Substitutions move values

A replacement reads all of its sources before it drops or writes anything, so sources and targets
may overlap. What is read afterwards is described by an update of functions from identifiers to
values, and a substitution by the updates of its replacements in turn. As long as nothing is bound
to bottom the result is no other environment than the described one, so a substitution may be made
in parts.

* `Replacement.move`, `Substitution.move`: the values after a replacement and a substitution.
* `ValueEnv.get_replaceAll`: what is read after a substitution.
* `ValueEnv.substitute_append`: a substitution in two parts.
* `Composite.transfer_of_check_error`: no transfer follows an inconsistent substitution.
* `ValueEnv.substitute_moves_values`: all of this together.
-/

namespace Overapprox

open AbstractLattice
open scoped LawfulLattice

/-! ## Repeated writes -/

namespace Pointwise

variable {κ ν : Type} [Ord κ] [Std.TransOrd κ] [BEq ν] [AbstractLattice ν] {f : Pointwise κ ν}

/-- The operation gives a key the value `u` and keeps the values of the others. -/
structure Writes (op : Pointwise κ ν → κ → Pointwise κ ν) (u : ν) : Prop where
  ne_bottom {f : Pointwise κ ν} (hf : f ≠ bottom) (k : κ) : op f k ≠ bottom
  get {f : Pointwise κ ν} (hf : f ≠ bottom) (k l : κ) :
    (op f k).get l = if compare l k == .eq then u else f.get l

theorem writes_forget : Writes (κ := κ) (ν := ν) forget AbstractLattice.top where
  ne_bottom {f} hf k := by
    cases f with
    | bottom => exact absurd rfl hf
    | top | table => nofun
  get {f} hf k l := by
    split
    case isTrue h => exact (get_congr _ (eq_of_beq h)).trans (get_forget_self k hf)
    case isFalse h => exact get_forget_of_ne f fun heq => h (beq_iff_eq.2 heq)

theorem writes_put (u : ν) : Writes (κ := κ) (fun f k => f.put k u) u where
  ne_bottom _ _ := table_ne_bottom _
  get {f} hf k l := by
    split
    case isTrue h => exact (get_congr _ (eq_of_beq h)).trans (get_put_self f k u)
    case isFalse h => exact get_put_of_ne u (fun heq => h (beq_iff_eq.2 heq)) hf

omit [Std.TransOrd κ] in
theorem Writes.foldl {op : Pointwise κ ν → κ → Pointwise κ ν} {u : ν} (hop : Writes op u)
    (hf : f ≠ bottom) (ks : List κ) : ks.foldl op f ≠ bottom ∧
      ∀ l, (ks.foldl op f).get l = if ks.any (compare l · == .eq) then u else f.get l := by
  induction ks generalizing f with
  | nil => exact ⟨hf, fun _ => rfl⟩
  | cons k ks ih =>
    obtain ⟨hne, hget⟩ := ih (hop.ne_bottom hf k)
    refine ⟨hne, fun l => ?_⟩
    rw [List.foldl_cons, hget, hop.get hf, List.any_cons]
    cases compare l k == .eq <;> simp

end Pointwise

/-! ## Moved values -/

section Move

variable {δ : Type} [BEq δ] [AbstractLattice δ]

/-- The values after a replacement: the targets get the join of the values of the sources, and the
other sources any value. -/
def Replacement.move (r : Replacement) (values : Identifier → δ) (id : Identifier) : δ :=
  if r.targets.contains id then joinOver values r.sources.toList
  else if r.sources.contains id then top
  else values id

/-- The values after the replacements of a substitution in turn. -/
def Substitution.move (s : Substitution) (values : Identifier → δ) : Identifier → δ :=
  s.foldl (fun values r => r.move values) values

variable [LawfulLattice δ] {values : Identifier → δ}

theorem Replacement.isBottom_move {r : Replacement} (hr : r.sources.isEmpty = false)
    (h : ∀ id, isBottom (values id) = false) (id : Identifier) :
    isBottom (r.move values id) = false := by
  unfold Replacement.move
  split
  · obtain ⟨source, hsource⟩ := List.exists_mem_of_ne_nil _ (List.isEmpty_eq_false_iff.1 hr)
    exact LawfulLattice.isBottom_eq_false_of_le (le_joinOver hsource) (h source)
  · split
    · exact LawfulLattice.isBottom_eq_false LawfulLattice.isTop_top
    · exact h id

theorem Substitution.isBottom_move {s : Substitution} (hs : ∀ r ∈ s, r.sources.isEmpty = false)
    (h : ∀ id, isBottom (values id) = false) (id : Identifier) :
    isBottom (s.move values id) = false :=
  List.foldlRecOn (motive := fun values : Identifier → δ => ∀ id, isBottom (values id) = false)
    s _ h (fun _ h r hr => r.isBottom_move (hs r hr) h) id

end Move

/-! ## Consistency -/

namespace Substitution

variable {s t : Substitution}

/-- A substitution is accepted when both of its parts are, and the first error counts. -/
theorem check_append : check (s ++ t) = (check s).bind fun _ => check t := by
  induction s with
  | nil => rfl
  | cons r s ih =>
    show r.check.bind (fun _ => check (s ++ t)) = (r.check.bind fun _ => check s).bind _
    rw [ih]
    cases r.check <;> rfl

theorem exists_check_eq_error (h : ∃ r ∈ s, r.sources.isEmpty = true) :
    ∃ r ∈ s, r.sources.isEmpty = true ∧ check s = .error (.withoutSources r.targets) := by
  induction s with
  | nil => simp at h
  | cons r s ih =>
    cases hr : r.sources.isEmpty with
    | true => exact ⟨r, List.mem_cons_self, hr, by simp [check, Replacement.check, hr]; rfl⟩
    | false =>
      have hcheck : check (r :: s) = check s := by simp [check, Replacement.check, hr]; rfl
      have hrest : ∃ q ∈ s, q.sources.isEmpty = true := by simpa [hr] using h
      obtain ⟨q, hq, hempty, herror⟩ := ih hrest
      exact ⟨q, List.mem_cons_of_mem r hq, hempty, hcheck.trans herror⟩

end Substitution

/-! ## Environments -/

namespace ValueEnv

section

variable {δ : Type} [BEq δ] [ValueDomain δ] {f : Pointwise Identifier δ}

/-- Replacing in a function moves its values, key by key. -/
theorem get_replace (hf : f ≠ .bottom) (r : Replacement) :
    replace f r ≠ .bottom ∧ (replace f r).get = r.move f.get := by
  obtain ⟨hne, hforget⟩ := Pointwise.writes_forget.foldl hf r.forgotten.toList
  obtain ⟨hreplaced, hput⟩ :=
    (Pointwise.writes_put (joinOver f.get r.sources.toList)).foldl hne r.targets.toList
  refine ⟨hreplaced, funext fun id => (hput id).trans ?_⟩
  have hforgotten : r.forgotten.toList.any (compare id · == .eq) =
      (r.sources.contains id && !r.targets.contains id) := OrdSet.contains_diff _ _ _
  rw [hforget, hforgotten, Replacement.move]
  show (if r.targets.contains id = true then _ else _) = _
  cases r.targets.contains id <;> cases r.sources.contains id <;> rfl

/-- A whole substitution moves the values one replacement after the other. -/
theorem get_replaceAll (hf : f ≠ .bottom) (s : Substitution) :
    replaceAll f s ≠ .bottom ∧ (replaceAll f s).get = Substitution.move s f.get := by
  induction s generalizing f with
  | nil => exact ⟨hf, rfl⟩
  | cons r s ih =>
    obtain ⟨hne, hget⟩ := get_replace hf r
    obtain ⟨hreplaced, hmoved⟩ := ih hne
    exact ⟨hreplaced, hmoved.trans (congrArg (Substitution.move s) hget)⟩

end

variable {δ : Type} [BEq δ] [ValueDomain δ] [LawfulLattice δ] {env : ValueEnv δ}
  {s t : Substitution}

theorem forall_isBottom_get_iff :
    (∀ id, isBottom (env.get id) = false) ↔ isBottom env = false ∧ env.BindsNoBottom := by
  refine ⟨fun h => ⟨?_, fun e he => ?_⟩, fun h => h.2.isBottom_get h.1⟩
  · refine Bool.eq_false_iff.2 fun hbottom => ?_
    have hmark : env.function = .bottom := Pointwise.isBottom_iff.1 hbottom
    have hget : isBottom (env.function.get (intVar "")) = false := h (intVar "")
    rw [hmark] at hget
    exact Bool.eq_false_iff.1 hget LawfulLattice.isBottom_bottom
  · rw [← Pointwise.get_of_find? (env.function.bindings.find?_eq_some_of_mem he)]
    exact h e.1

theorem isBottom_get_replaceAll (h : ∀ id, isBottom (env.get id) = false)
    (hs : ∀ r ∈ s, r.sources.isEmpty = false) (id : Identifier) :
    isBottom ((replaceAll env.function s).get id) = false := by
  rw [(get_replaceAll (function_ne_bottom (forall_isBottom_get_iff.1 h).1) s).2]
  exact Substitution.isBottom_move hs h id

/-- Where nothing is bound to bottom, a consistent substitution binds nothing to bottom, so there is
nothing to normalize afterwards. -/
theorem substitute_eq (h : ∀ id, isBottom (env.get id) = false) :
    env.substitute s = s.check.map fun _ => ⟨replaceAll env.function s⟩ := by
  unfold substitute
  rw [(forall_isBottom_get_iff.1 h).1]
  cases hcheck : s.check with
  | error err => rfl
  | ok _ =>
    -- Rebuilding the environment would make it bottom if one of the values were.
    have hkept : ofFunction (replaceAll env.function s) = ⟨replaceAll env.function s⟩ :=
      ofFunction_eq_of_forall_le fun id =>
        ⟨_, isBottom_get_replaceAll h (Substitution.check_eq_ok_iff.1 hcheck) id, le_rfl⟩
    exact congrArg Except.ok hkept

/-- Substitutions may be made one after the other, or as one. -/
theorem substitute_append (h : ∀ id, isBottom (env.get id) = false) :
    env.substitute (s ++ t) = (env.substitute s).bind (·.substitute t) := by
  rw [substitute_eq h, substitute_eq h, Substitution.check_append]
  cases hcheck : s.check with
  | error err => rfl
  | ok _ =>
    have hs := isBottom_get_replaceAll h (Substitution.check_eq_ok_iff.1 hcheck)
    have hrest : (⟨replaceAll env.function s⟩ : ValueEnv δ).substitute t = _ := substitute_eq hs
    rw [replaceAll_append]
    exact hrest.symm

/-- A substitution fails exactly when some replacement has no sources. -/
theorem exists_substitute_eq_error_iff (h : ∀ id, isBottom (env.get id) = false) :
    (∃ err, env.substitute s = .error err) ↔ ∃ r ∈ s, r.sources.isEmpty = true := by
  rw [substitute_eq h]
  constructor
  · rintro ⟨err, herror⟩
    by_contra hs
    have hcheck : s.check = .ok () := Substitution.check_eq_ok_iff.2 fun r hr =>
      Bool.eq_false_iff.2 fun hempty => hs ⟨r, hr, hempty⟩
    rw [hcheck] at herror
    cases herror
  · intro hs
    obtain ⟨r, -, -, herror⟩ := Substitution.exists_check_eq_error hs
    exact ⟨_, by rw [herror]; rfl⟩

theorem exists_substitute_eq_ok (h : ∀ id, isBottom (env.get id) = false)
    (hs : ∀ r ∈ s, r.sources.isEmpty = false) :
    ∃ env', env.substitute s = .ok env' ∧ ∀ id, env'.get id = s.move env.get id := by
  refine ⟨⟨replaceAll env.function s⟩, ?_, fun id => ?_⟩
  · rw [substitute_eq h, Substitution.check_eq_ok_iff.2 hs]
    rfl
  · exact congrFun (get_replaceAll (function_ne_bottom (forall_isBottom_get_iff.1 h).1) s).2 id

end ValueEnv

/-! ## Composite states -/

namespace Composite

variable {η : Type} [BEq η] [HeapDomain η]

/-- The substitution is checked before the values and the types are looked at, so it does not
matter whether these are bottom. -/
theorem transfer_of_check_error (c : Composite η) {update : HeapUpdate η} {e : SymExpr}
    {choices : Choices} (h : HeapDomain.rewrite update.heap e = .ok choices)
    {err : AnalysisError} (hcheck : update.substitution.check = .error err)
    (step : ValueEnv Interval → TypeEnv → ValueExpr → ValueEnv Interval × TypeEnv) :
    c.transfer update e step = .error err := by
  have hne : update.substitution.isEmpty = false := by
    refine Bool.eq_false_iff.2 fun hempty => ?_
    rw [List.isEmpty_iff.1 hempty] at hcheck
    cases hcheck
  simp [transfer, substitute, h, hne, hcheck, bind, Except.bind]

end Composite

/-- Where nothing is bottom, a substitution fails exactly when a replacement has no source, and
otherwise it moves the values as described. It may be made in parts. A composite state refuses a
replacement without sources also where it is bottom. -/
theorem ValueEnv.substitute_moves_values {env : ValueEnv Interval} (hne : isBottom env = false)
    (hbound : env.BindsNoBottom) (s t : Substitution) {η : Type} [BEq η] [HeapDomain η]
    (c : Composite η) (update : HeapUpdate η) (e : SymExpr)
    (step : ValueEnv Interval → TypeEnv → ValueExpr → ValueEnv Interval × TypeEnv) :
    ((∃ err, env.substitute s = .error err) ↔ ∃ r ∈ s, r.sources.isEmpty = true) ∧
      ((∀ r ∈ s, r.sources.isEmpty = false) →
        ∃ env', env.substitute s = .ok env' ∧ ∀ id, env'.get id = s.move env.get id) ∧
      env.substitute (s ++ t) = (env.substitute s).bind (·.substitute t) ∧
      ((∃ choices, HeapDomain.rewrite update.heap e = .ok choices) →
        (∃ r ∈ update.substitution, r.sources.isEmpty = true) →
        ∃ r ∈ update.substitution, r.sources.isEmpty = true ∧
          c.transfer update e step = .error (.withoutSources r.targets)) := by
  have h := forall_isBottom_get_iff.2 ⟨hne, hbound⟩
  refine ⟨exists_substitute_eq_error_iff h, exists_substitute_eq_ok h, substitute_append h, ?_⟩
  rintro ⟨choices, hrewrite⟩ hs
  obtain ⟨r, hr, hempty, herror⟩ := Substitution.exists_check_eq_error hs
  exact ⟨r, hr, hempty, c.transfer_of_check_error hrewrite herror step⟩

/-- Moving `x` and `y` to `y` and then `y` to `x` leaves the join of both in `x`. A bottom state
refuses to move nothing to `y`. -/
theorem ValueEnv.substitute_moves_values_of_chain :
    (∃ env', (((∅ : ValueEnv Interval).put (intVar "x") (.singleton 1)).put (intVar "y")
        (.singleton 2)).substitute
          ([⟨.ofList [intVar "x", intVar "y"], .singleton (intVar "y")⟩] ++
            [⟨.singleton (intVar "y"), .singleton (intVar "x")⟩]) = .ok env' ∧
      env'.get (intVar "x") = .ofBounds (.finite 1) (.finite 2) ∧
      env'.get (intVar "y") = top) ∧
    (bottom : Composite (ScriptedHeap {
        assign := [⟨.empty, .singleton (intVar "y")⟩] })).assign {} (intVar "x")
        (.ofIdentifier (intVar "x")) = .error (.withoutSources (.singleton (intVar "y"))) := by
  have hne : isBottom (((∅ : ValueEnv Interval).put (intVar "x") (.singleton 1)).put (intVar "y")
    (.singleton 2)) = false := rfl
  have hbound : (((∅ : ValueEnv Interval).put (intVar "x") (.singleton 1)).put (intVar "y")
    (.singleton 2)).BindsNoBottom := by decide
  obtain ⟨-, hmoves, -, hfails⟩ := substitute_moves_values hne hbound
    ([⟨.ofList [intVar "x", intVar "y"], .singleton (intVar "y")⟩] ++
      [⟨.singleton (intVar "y"), .singleton (intVar "x")⟩]) []
    (bottom : Composite (ScriptedHeap { assign := [⟨.empty, .singleton (intVar "y")⟩] }))
    (HeapDomain.assign ScriptedHeap.bottom (intVar "x") (.ofIdentifier (intVar "x")))
    (.ofIdentifier (intVar "x")) (Composite.assignStep {} (intVar "x"))
  constructor
  · obtain ⟨env', hok, hget⟩ := hmoves (by decide)
    exact ⟨env', hok, (hget _).trans (by decide), (hget _).trans (by decide)⟩
  · obtain ⟨r, hr, -, herror⟩ := hfails ⟨_, rfl⟩ (by decide)
    obtain rfl := List.mem_singleton.1 hr
    exact herror

end Overapprox
