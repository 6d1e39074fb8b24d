import Overapprox.Proofs.Env.Reachable
import Overapprox.Proofs.Heap.Rewriting
import Overapprox.Proofs.Lattice.Lifting
import Overapprox.Proofs.State.Substitution

/-!
# Unreachable type environments

Whether a type environment is unreachable shows in its bindings alone. The types of the last
expression are kept beside the bindings, so whatever takes the bindings away has to take them away
as well. Everything but a meet does so. A meet finds that some identifier has no type left only
after it has met the types of the last expressions, and these stay as they are.

* `ValueEnv.isBottom_meet_iff`: a meet is bottom where some identifier has no value left.
* `TypeEnv.isCanonical_run`, `TypeEnv.isCanonical_join`, `TypeEnv.isCanonical_widen`: what never
  leaves types behind.
* `TypeEnv.isCanonical_meet_iff`: when a meet leaves none behind.
* `TypeEnv.Derivation.canonical_iff_clearsStack`: which environments are canonical.
-/

namespace Overapprox

open AbstractLattice
open scoped LawfulLattice

/-! ## Meets -/

theorem LawfulLattice.le_meet_of_isTop_left {α : Type} [BEq α] [AbstractLattice α]
    [LawfulLattice α] {a : α} (h : isTop a = true) (b : α) : b ≤ meet a b := by
  refine meet_cases (p := fun m => b ≤ m) (fun _ => le_of_isTop h) (fun _ => le_rfl) fun ha _ => ?_
  rw [ha.1] at h
  cases h

/-- A meet with top is bottom exactly where the other operand is. -/
theorem LawfulLattice.isBottom_meet_of_isTop_left {α : Type} [BEq α] [AbstractLattice α]
    [LawfulLattice α] {a : α} (h : isTop a = true) (b : α) :
    isBottom (meet a b) = isBottom b := by
  rw [Bool.eq_iff_iff]
  exact ⟨isBottom_of_le (le_meet_of_isTop_left h b), isBottom_of_le (meet_le_right a b)⟩

namespace ValueEnv

variable {δ : Type} [BEq δ] [ValueDomain δ] [LawfulLattice δ] {env a b : ValueEnv δ}
  {id : Identifier} {v : δ}

/-- Where an identifier has a value, something is left of the environment. -/
theorem isBottom_eq_false_of_get (h : isBottom (env.get id) = false) : isBottom env = false := by
  refine Bool.eq_false_iff.2 fun hbottom => Bool.eq_false_iff.1 h ?_
  show isBottom (env.function.get id) = true
  rw [Pointwise.isBottom_iff.1 hbottom]
  exact LawfulLattice.isBottom_bottom

/-- Where all identifiers have a value in both environments, the meet keeps every one of them.
Otherwise an identifier that has one in the meet has one in common. -/
theorem isBottom_meet_iff (hδ : ∀ v : δ, RespectsMeets v) (ha : a.BindsNoBottom)
    (hb : b.BindsNoBottom) :
    isBottom (meet a b) = true ↔ ∃ id, isBottom (meet (a.get id) (b.get id)) = true := by
  constructor
  · intro hbottom
    by_contra hnone
    simp only [not_exists, Bool.not_eq_true] at hnone
    have hleft : isBottom a = false := isBottom_eq_false_of_get
      (LawfulLattice.isBottom_eq_false_of_le (LawfulLattice.meet_le_left _ _) (hnone (intVar "")))
    have hright : isBottom b = false := isBottom_eq_false_of_get
      (LawfulLattice.isBottom_eq_false_of_le (LawfulLattice.meet_le_right _ _) (hnone (intVar "")))
    -- A meet that leaves every identifier a value is not made bottom when it is rebuilt.
    refine Bool.eq_false_iff.1 ?_ hbottom
    refine meet_cases (p := fun m : ValueEnv δ => isBottom m = false) (fun _ => hleft)
      (fun _ => hright) fun _ _ => ?_
    have hle (id : Identifier) :
        meet (a.get id) (b.get id) ≤ (meet a.function b.function).get id :=
      Pointwise.le_get_meet (hδ _) (LawfulLattice.meet_le_left _ _)
        (LawfulLattice.meet_le_right _ _)
    show isBottom (ofFunction (meet a.function b.function)) = false
    rw [ofFunction_eq_of_forall_le fun id => ⟨_, hnone id, hle id⟩]
    exact isBottom_eq_false_of_get
      (LawfulLattice.isBottom_eq_false_of_le (hle (intVar "")) (hnone (intVar "")))
  · rintro ⟨id, hid⟩
    by_contra hne
    rw [Bool.not_eq_true] at hne
    have hget := (bindsNoBottom_meet ha hb).isBottom_get hne id
    have hle : (meet a b).get id ≤ meet (a.get id) (b.get id) :=
      (hδ _).le_meet (get_le_get (LawfulLattice.meet_le_left a b) id)
        (get_le_get (LawfulLattice.meet_le_right a b) id)
    rw [LawfulLattice.isBottom_of_le hle hid] at hget
    cases hget

/-! ## Bindings -/

/-- What is bound may be joined with an older value, which does not make it bottom. -/
theorem bind_cases (env : ValueEnv δ) (id : Identifier) (v : δ) :
    isBottom v = true ∧ env.bind id v = bottom ∨
      ∃ u, isBottom u = false ∧ env.bind id v = env.put id u := by
  have hbound : isBottom (if id.isWeak && env.function.contains id then join (env.get id) v
      else v) = true → isBottom v = true := by
    split
    · exact LawfulLattice.isBottom_of_le (LawfulLattice.le_join_right _ v)
    · exact fun h => h
  unfold bind
  generalize (if id.isWeak && env.function.contains id then join (env.get id) v else v) = u
    at hbound ⊢
  cases hu : isBottom u with
  | true => exact .inl ⟨hbound hu, if_pos hu⟩
  | false => exact .inr ⟨u, hu, if_neg (Bool.eq_false_iff.1 hu)⟩

theorem bindsNoBottom_widen [LawfulWidening δ] (ha : a.BindsNoBottom) (hb : b.BindsNoBottom) :
    (widen a b).BindsNoBottom :=
  widen_keeps (p := BindsNoBottom) (fun _ _ ha hb =>
    Pointwise.forall_entries_widen (p := fun v : δ => isBottom v = false) ha hb
      fun {v w} hv _ => LawfulLattice.isBottom_eq_false_of_le (LawfulWidening.le_widen v w).1 hv)
    ha hb

/-- A consistent substitution leaves every identifier a value, so the result is only bottom where
there was none before. -/
theorem substitute_cases (h : env.BindsNoBottom) {s : Substitution}
    (hrun : env.substitute s = .ok a) :
    a.BindsNoBottom ∧ isBottom a = isBottom env := by
  cases hne : isBottom env with
  | true =>
    rw [substitute, if_pos hne] at hrun
    cases hrun
    exact ⟨h, hne⟩
  | false =>
    have hvalues := forall_isBottom_get_iff.2 ⟨hne, h⟩
    rw [substitute_eq hvalues] at hrun
    cases hcheck : s.check with
    | error =>
      rw [hcheck] at hrun
      cases hrun
    | ok =>
      rw [hcheck] at hrun
      cases hrun
      have hafter := isBottom_get_replaceAll hvalues (Substitution.check_eq_ok_iff.1 hcheck)
      have hboth : isBottom (⟨replaceAll env.function s⟩ : ValueEnv δ) = false ∧ _ :=
        forall_isBottom_get_iff.1 hafter
      exact ⟨hboth.2, hboth.1⟩

end ValueEnv

theorem InferredTypes.eq_bottom_of_isBottom {v : InferredTypes} (h : isBottom v = true) :
    v = bottom := by
  cases v with
  | top => cases h
  | types s =>
    obtain ⟨ts, hts⟩ := s
    cases List.isEmpty_iff.1 h
    rfl

/-! ## Canonical environments -/

namespace TypeEnv

variable {opts : Options} {t u : TypeEnv}

/-- An environment that is unreachable is the bottom one. -/
def IsCanonical (t : TypeEnv) : Prop := isBottom t = true → t = bottom

/-- A type environment is canonical when nothing is left on the stack where nothing is left of the
bindings. -/
theorem isCanonical_iff : t.IsCanonical ↔ (isBottom t.env = true → isBottom t.stack = true) := by
  constructor
  · intro h hbottom
    rw [h hbottom]
    rfl
  · intro h hbottom
    obtain ⟨env, stack⟩ := t
    have henv : env = bottom := ValueEnv.eq_of_isBottom hbottom rfl
    have hstack : stack = bottom := InferredTypes.eq_bottom_of_isBottom (h hbottom)
    rw [henv, hstack]
    rfl

/-- Nothing is inferred for an expression that is evaluated in an unreachable environment. -/
theorem IsCanonical.runtimeTypes_step (h : t.IsCanonical) (hbottom : isBottom t = true)
    (opts : Options) (e : ValueExpr) : (t.step opts e).runtimeTypes = .empty := by
  rw [h hbottom]
  rfl

theorem isCanonical_of_not_isBottom (h : isBottom t = false) : t.IsCanonical :=
  fun hbottom => absurd hbottom (Bool.eq_false_iff.1 h)

/-- The environment after a transfer. -/
def run (opts : Options) (t : TypeEnv) : ValueEnv.Transfer → Outcome TypeEnv
  | .assign id e => .ok (t.assign opts id e)
  | .step e => .ok (t.step opts e)
  | .assume e => .ok (t.assume opts e)
  | .forget id => .ok (t.forget id)
  | .pushScope token => .ok (t.pushScope token)
  | .popScope token => .ok (t.popScope token)
  | .substitute s => t.substitute s

/-- A transfer takes everything away, or it leaves a value to every identifier that had one and
does not look at the types of the last expression where there are no values. -/
theorem run_cases (h : t.env.BindsNoBottom) {c : ValueEnv.Transfer}
    (hrun : t.run opts c = .ok u) :
    u = bottom ∨ u.env.BindsNoBottom ∧ isBottom u.env = isBottom t.env ∧
      (isBottom t.env = true → u.stack = t.stack) := by
  cases c with
  | assign id e =>
    cases hrun
    unfold assign
    split
    case isTrue => exact .inr ⟨h, rfl, fun _ => rfl⟩
    case isFalse hne =>
      obtain ⟨hv, hbind⟩ | ⟨v, hv, hbind⟩ :=
        ValueEnv.bind_cases t.env id (ValueDomain.eval opts t.env e)
      · left
        dsimp only
        -- The expression has no type, so the bindings and the stack become bottom together.
        rw [hbind, InferredTypes.eq_bottom_of_isBottom hv]
        rfl
      · right
        dsimp only
        rw [hbind]
        have hbottom : isBottom t.env = false := Bool.eq_false_iff.2 hne
        exact ⟨ValueEnv.bindsNoBottom_put h hv id, hbottom.symm, fun htrue => absurd htrue hne⟩
  | step e =>
    cases hrun
    unfold step
    split
    case isTrue => exact .inr ⟨h, rfl, fun _ => rfl⟩
    case isFalse hne => exact .inr ⟨h, rfl, fun htrue => absurd htrue hne⟩
  | assume e =>
    cases hrun
    rcases satisfies_cases opts t e with hopen | hnone
    · rw [assume_of_unknown hopen]
      exact .inr ⟨h, rfl, fun _ => rfl⟩
    · exact .inl (if_pos (ValueEnv.isBottom_assume (.inr hnone)))
  | forget id =>
    cases hrun
    have hbound := Pointwise.forall_entries_forget (p := fun v => isBottom v = false) h id
    exact .inr ⟨hbound, t.env.isBottom_forget id, fun _ => rfl⟩
  | pushScope token =>
    cases hrun
    have hbound := Pointwise.forall_entries_renameKeys (p := fun v => isBottom v = false) h
      fun id => some (id.pushScope token)
    exact .inr ⟨hbound, t.env.isBottom_pushScope token, fun _ => rfl⟩
  | popScope token =>
    cases hrun
    have hbound := Pointwise.forall_entries_renameKeys (p := fun v => isBottom v = false) h
      (Identifier.popScope? token)
    exact .inr ⟨hbound, t.env.isBottom_popScope token, fun _ => rfl⟩
  | substitute s =>
    obtain ⟨env, henv, hmade⟩ := Outcome.exists_of_bind hrun
    cases hmade
    obtain ⟨hbound, hbottom⟩ := ValueEnv.substitute_cases h henv
    exact .inr ⟨hbound, hbottom, fun _ => rfl⟩

theorem bindsNoBottom_run (h : t.env.BindsNoBottom) {c : ValueEnv.Transfer}
    (hrun : t.run opts c = .ok u) : u.env.BindsNoBottom := by
  rcases run_cases h hrun with rfl | hkept
  · exact ValueEnv.bindsNoBottom_bottom
  · exact hkept.1

/-- A transfer keeps a type environment canonical: where it leaves no bindings, it clears the stack.
-/
theorem isCanonical_run (hbound : t.env.BindsNoBottom) (h : t.IsCanonical) {c : ValueEnv.Transfer}
    (hrun : t.run opts c = .ok u) : u.IsCanonical := by
  rcases run_cases hbound hrun with rfl | ⟨-, hsame, hstack⟩
  · exact fun _ => rfl
  · rw [isCanonical_iff] at h ⊢
    intro hbottom
    rw [hsame] at hbottom
    rw [hstack hbottom]
    exact h hbottom

/-! ### Combinations -/

theorem bindsNoBottom_join (ht : t.env.BindsNoBottom) (hu : u.env.BindsNoBottom) :
    (join t u).env.BindsNoBottom :=
  join_keeps (p := fun t : TypeEnv => t.env.BindsNoBottom)
    (fun _ _ => ValueEnv.bindsNoBottom_join) ht hu

theorem bindsNoBottom_widen (ht : t.env.BindsNoBottom) (hu : u.env.BindsNoBottom) :
    (widen t u).env.BindsNoBottom :=
  widen_keeps (p := fun t : TypeEnv => t.env.BindsNoBottom)
    (fun _ _ => ValueEnv.bindsNoBottom_widen) ht hu

theorem bindsNoBottom_meet (ht : t.env.BindsNoBottom) (hu : u.env.BindsNoBottom) :
    (meet t u).env.BindsNoBottom :=
  meet_cases (p := fun t : TypeEnv => t.env.BindsNoBottom) (fun _ => ht) (fun _ => hu)
    fun _ _ => ValueEnv.bindsNoBottom_meet ht hu

/-- A join is made only of environments that are reachable, and the bindings of either of them lie
below its bindings. -/
theorem isCanonical_join (ht : t.IsCanonical) (hu : u.IsCanonical) : (join t u).IsCanonical := by
  refine join_keeps (fun {t u} hpt _ _ _ => isCanonical_of_not_isBottom ?_) ht hu
  have hjoin : isBottom (join t.env u.env) = false :=
    LawfulLattice.isBottom_eq_false_of_le (LawfulLattice.le_join_left t.env u.env) hpt.2
  exact hjoin

theorem isCanonical_widen (ht : t.IsCanonical) (hu : u.IsCanonical) :
    (widen t u).IsCanonical := by
  refine widen_keeps (fun {t u} hpt _ _ _ => isCanonical_of_not_isBottom ?_) ht hu
  have hwiden : isBottom (widen t.env u.env) = false :=
    LawfulLattice.isBottom_eq_false_of_le (LawfulWidening.le_widen t.env u.env).1 hpt.2
  exact hwiden

/-- Of canonical environments the bindings and the types are met apart, also where one of the
environments is returned early. -/
theorem isBottom_meet (ht : t.IsCanonical) (hu : u.IsCanonical) :
    isBottom (meet t u).env = isBottom (meet t.env u.env) ∧
      isBottom (meet t u).stack = isBottom (meet t.stack u.stack) := by
  rw [isCanonical_iff] at ht hu
  refine meet_cases (p := fun m : TypeEnv => isBottom m.env = isBottom (meet t.env u.env) ∧
    isBottom m.stack = isBottom (meet t.stack u.stack)) ?_ ?_ fun _ _ => ⟨rfl, rfl⟩
  -- The left environment is returned early where both are equal, it is bottom or the other is top;
  -- in each case both parts of the meet are those of the left environment.
  · rintro (hsame | hbottom | htop)
    · obtain ⟨henv, hstack⟩ := Bool.and_eq_true_iff.1 hsame
      rw [meet_eq_left (.inl henv), meet_eq_left (.inl hstack)]
      exact ⟨rfl, rfl⟩
    · have henv : isBottom t.env = true := hbottom
      have hstack := ht henv
      rw [meet_of_isBottom_left henv, meet_of_isBottom_left hstack]
      exact ⟨rfl, rfl⟩
    · obtain ⟨henv, hstack⟩ := (isTop_iff u).1 htop
      rw [meet_of_isTop_right henv, meet_of_isTop_right hstack]
      exact ⟨rfl, rfl⟩
  · rintro (hbottom | htop)
    · have hstack := hu hbottom
      have hmeet := LawfulLattice.isBottom_of_le (LawfulLattice.meet_le_right t.env u.env) hbottom
      have hmeet' := LawfulLattice.isBottom_of_le (LawfulLattice.meet_le_right t.stack u.stack) hstack
      exact ⟨Eq.trans hbottom hmeet.symm, hstack.trans hmeet'.symm⟩
    · obtain ⟨henv, hstack⟩ := (isTop_iff t).1 htop
      rw [LawfulLattice.isBottom_meet_of_isTop_left henv,
        LawfulLattice.isBottom_meet_of_isTop_left hstack]
      exact ⟨rfl, rfl⟩

/-- Where the environments have no type of some identifier in common, they have none of their last
expressions in common either. -/
def ClearsStack (t u : TypeEnv) : Prop :=
  ∀ id, isBottom (meet (t.get id) (u.get id)) = true → isBottom (meet t.stack u.stack) = true

/-- A meet of canonical environments is canonical exactly when it clears the stack along with the
bindings. -/
theorem isCanonical_meet_iff (ht : t.IsCanonical) (hu : u.IsCanonical)
    (htbound : t.env.BindsNoBottom) (hubound : u.env.BindsNoBottom) :
    (meet t u).IsCanonical ↔ ClearsStack t u := by
  obtain ⟨henv, hstack⟩ := isBottom_meet ht hu
  rw [isCanonical_iff, henv, hstack,
    ValueEnv.isBottom_meet_iff InferredTypes.respectsMeets htbound hubound]
  exact forall_exists_index

/-! ## Derivations -/

/-- How an environment is derived from the empty, the top and the bottom one. -/
inductive Derivation where
  | empty
  | top
  | bottom
  | run (opts : Options) (c : ValueEnv.Transfer) (d : Derivation)
  | join (l r : Derivation)
  | meet (l r : Derivation)
  | widen (l r : Derivation)

namespace Derivation

/-- The environment that is derived. A transfer that fails leaves it as it was. -/
def env : Derivation → TypeEnv
  | empty => ∅
  | top => AbstractLattice.top
  | bottom => AbstractLattice.bottom
  | run opts c d => (d.env.run opts c).toOption.getD d.env
  | join l r => AbstractLattice.join l.env r.env
  | meet l r => AbstractLattice.meet l.env r.env
  | widen l r => AbstractLattice.widen l.env r.env

/-- A property of the derivations of all the environments on the way, the last one included. -/
def All (p : Derivation → Prop) : Derivation → Prop
  | run opts c d => p (run opts c d) ∧ d.All p
  | join l r => p (join l r) ∧ l.All p ∧ r.All p
  | meet l r => p (meet l r) ∧ l.All p ∧ r.All p
  | widen l r => p (widen l r) ∧ l.All p ∧ r.All p
  | d => p d

/-- A last meet takes the types of the last expressions away with the bindings. -/
def ClearsStack : Derivation → Prop
  | meet l r => l.env.ClearsStack r.env
  | _ => True

/-- Whether the last environment is a meet. -/
def isMeet : Derivation → Bool
  | meet _ _ => true
  | _ => false

/-- The derivations that the last one is made of. -/
def operands : Derivation → List Derivation
  | run _ _ d => [d]
  | join l r => [l, r]
  | meet l r => [l, r]
  | widen l r => [l, r]
  | _ => []

variable {p q : Derivation → Prop} {d : Derivation}

/-- What holds of all environments on the way holds of the last one. -/
theorem All.last (h : d.All p) : p d := by
  cases d with
  | empty | top | bottom => exact h
  | run | join | meet | widen => exact h.1

theorem All.imp (h : ∀ d, p d → q d) (hd : d.All p) : d.All q := by
  induction d with
  | empty | top | bottom => exact h _ hd
  | run opts c d ih => exact ⟨h _ hd.1, ih hd.2⟩
  | join l r ihl ihr => exact ⟨h _ hd.1, ihl hd.2.1, ihr hd.2.2⟩
  | meet l r ihl ihr => exact ⟨h _ hd.1, ihl hd.2.1, ihr hd.2.2⟩
  | widen l r ihl ihr => exact ⟨h _ hd.1, ihl hd.2.1, ihr hd.2.2⟩

/-- Two properties hold all the way together if they agree wherever the first one held before. -/
theorem all_congr (h : ∀ d, (∀ c ∈ d.operands, p c) → (p d ↔ q d)) (d : Derivation) :
    d.All p ↔ d.All q := by
  have hpair {l r : Derivation} (hl : l.All p) (hr : r.All p) : ∀ c ∈ [l, r], p c :=
    List.forall_mem_cons.2 ⟨hl.last, List.forall_mem_singleton.2 hr.last⟩
  induction d with
  | empty | top | bottom => exact h _ nofun
  | run opts c d ih =>
    have hlast := and_congr_left fun hd : d.All p =>
      h (run opts c d) (List.forall_mem_singleton.2 hd.last)
    exact hlast.trans (and_congr_right fun _ => ih)
  | join l r ihl ihr =>
    have hlast := and_congr_left fun hlr : l.All p ∧ r.All p => h (join l r) (hpair hlr.1 hlr.2)
    exact hlast.trans (and_congr_right fun _ => and_congr ihl ihr)
  | meet l r ihl ihr =>
    have hlast := and_congr_left fun hlr : l.All p ∧ r.All p => h (meet l r) (hpair hlr.1 hlr.2)
    exact hlast.trans (and_congr_right fun _ => and_congr ihl ihr)
  | widen l r ihl ihr =>
    have hlast := and_congr_left fun hlr : l.All p ∧ r.All p => h (widen l r) (hpair hlr.1 hlr.2)
    exact hlast.trans (and_congr_right fun _ => and_congr ihl ihr)

theorem run_env_cases {r : TypeEnv → Prop} (opts : Options) (c : ValueEnv.Transfer)
    (kept : r d.env) (ran : ∀ {t}, d.env.run opts c = .ok t → r t) : r (run opts c d).env := by
  rw [env]
  cases hrun : d.env.run opts c with
  | error => exact kept
  | ok t => exact ran hrun

/-- No environment of types on the way binds an identifier to bottom. -/
theorem bindsNoBottom_env (d : Derivation) : d.env.env.BindsNoBottom := by
  induction d with
  | empty | top | bottom => exact fun _ he => nomatch he
  | run opts c d ih =>
    exact run_env_cases (r := fun t => t.env.BindsNoBottom) opts c ih (bindsNoBottom_run ih)
  | join l r ihl ihr => exact bindsNoBottom_join ihl ihr
  | meet l r ihl ihr => exact bindsNoBottom_meet ihl ihr
  | widen l r ihl ihr => exact bindsNoBottom_widen ihl ihr

/-- What is made of canonical environments is canonical, unless it is a meet that leaves types
behind. -/
theorem isCanonical_env_iff (h : ∀ c ∈ d.operands, c.env.IsCanonical) :
    d.env.IsCanonical ↔ d.ClearsStack := by
  have hpair {l r : Derivation} (hlr : ∀ c ∈ [l, r], c.env.IsCanonical) :
      l.env.IsCanonical ∧ r.env.IsCanonical :=
    ⟨hlr l List.mem_cons_self, hlr r (List.mem_cons_of_mem _ List.mem_cons_self)⟩
  cases d with
  | empty | top => exact iff_of_true (fun hbottom => nomatch hbottom) trivial
  | bottom => exact iff_of_true (fun _ => rfl) trivial
  | run opts c d =>
    have hd : d.env.IsCanonical := h d List.mem_cons_self
    exact iff_of_true (run_env_cases opts c hd (isCanonical_run d.bindsNoBottom_env hd)) trivial
  | join l r =>
    obtain ⟨hl, hr⟩ := hpair h
    exact iff_of_true (isCanonical_join hl hr) trivial
  | meet l r =>
    obtain ⟨hl, hr⟩ := hpair h
    exact isCanonical_meet_iff hl hr l.bindsNoBottom_env r.bindsNoBottom_env
  | widen l r =>
    obtain ⟨hl, hr⟩ := hpair h
    exact iff_of_true (isCanonical_widen hl hr) trivial

/-- Only a meet can leave types of the last expression where no bindings are left. -/
theorem clearsStack_of_not_isMeet (h : d.isMeet = false) : d.ClearsStack := by
  cases d with
  | meet => cases h
  | _ => trivial

/-- The environments on the way are canonical exactly when every meet that leaves an identifier
without types leaves the last expression without types as well. So they are canonical where nothing
is met, and no types are inferred in an unreachable environment. -/
theorem canonical_iff_clearsStack (d : Derivation) :
    (d.All (fun t => t.env.IsCanonical) ↔ d.All ClearsStack) ∧
      (d.All (fun t => t.isMeet = false) → isBottom d.env = true →
        d.env = AbstractLattice.bottom ∧
          ∀ opts e, (d.env.step opts e).runtimeTypes = .empty) := by
  have hiff : d.All (fun t => t.env.IsCanonical) ↔ d.All ClearsStack :=
    all_congr (fun _ => isCanonical_env_iff) d
  refine ⟨hiff, fun hmeets hbottom => ?_⟩
  have hclears : d.All ClearsStack := hmeets.imp fun _ => clearsStack_of_not_isMeet
  have hcanonical : d.env.IsCanonical := (hiff.2 hclears).last
  exact ⟨hcanonical hbottom, hcanonical.runtimeTypes_step hbottom⟩

/-- The number one. -/
def one : ValueExpr := .const (.int 1) { type := .int32 }

/-- No value is the negation of a number, so there is nothing to assign. -/
theorem canonical_iff_clearsStack_of_no_value :
    (run {} (.assign (intVar "x") (.unary .not one { type := .bool })) empty).env =
        AbstractLattice.bottom ∧
      ∀ opts e, ((run {} (.assign (intVar "x") (.unary .not one { type := .bool })) empty).env.step
        opts e).runtimeTypes = .empty :=
  (canonical_iff_clearsStack _).2 ⟨rfl, rfl⟩ rfl

/-- A number in one environment and a truth value in the other one, after both of which a number was
evaluated. -/
def numberMeetsTruth : Derivation :=
  meet (run {} (.assign (intVar "x") one) empty)
    (run {} (.step one) (run {} (.assign (intVar "x") (.const (.bool true) { type := .bool })) empty))

/-- The meet is unreachable, but the types of the numbers are still inferred in it. -/
theorem meet_keeps_stale_types :
    isBottom numberMeetsTruth.env = true ∧ numberMeetsTruth.env ≠ AbstractLattice.bottom ∧
      ∀ e, (numberMeetsTruth.env.step {} e).runtimeTypes = .singleton .int32 := by
  refine ⟨rfl, fun h => ?_, fun _ => rfl⟩
  have hstack : isBottom numberMeetsTruth.env.stack = true := by rw [h]; rfl
  cases hstack

end Derivation

end TypeEnv

end Overapprox
