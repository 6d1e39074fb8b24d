import Overapprox.Proofs.Lattice.Domains
import Overapprox.Proofs.Lattice.Pointwise
import Overapprox.Proofs.Order.Identity
import Overapprox.State.Store

/-!
# Analysis states form a lattice

Environments, composite states, analysis states and stores test for top and bottom in their own
ways: a type environment by its bindings alone, an analysis state by its composite state alone. The
order is componentwise apart from what the tests overlook. A meet of environments falls to bottom
where an identifier loses its value, so it is greatest below its operands as far as no binding below
them is bottom.

* `TypeEnv.orderedBy`, `Composite.orderedBy`, `State.orderedBy`: the orders of the levels.
* `ValueEnv.respectsMeets`, `State.respectsMeets`, `Store.respectsMeets`: the greatest meets.
* `state_isLattice_and_store_isLattice`: the laws of states and stores.
-/

namespace Overapprox

open AbstractLattice
open scoped LawfulLattice

/-! ## Value environments -/

namespace ValueEnv

variable {δ : Type} [BEq δ]

instance [ReflBEq δ] : ReflBEq (ValueEnv δ) := ⟨BEq.refl (α := Pointwise Identifier δ) _⟩

variable [AbstractLattice δ]

/-- No identifier is bound to bottom. -/
def BindsNoBottom (env : ValueEnv δ) : Prop :=
  ∀ e ∈ env.function.entries, isBottom e.2 = false

instance (env : ValueEnv δ) : Decidable env.BindsNoBottom :=
  inferInstanceAs (Decidable (∀ e ∈ env.function.entries, isBottom e.2 = false))

theorem function_ne_bottom {env : ValueEnv δ} (hne : isBottom env = false) :
    env.function ≠ .bottom := by
  intro hf
  have hbottom : isBottom env.function = true := Pointwise.isBottom_iff.2 hf
  exact Bool.eq_false_iff.1 hne hbottom

/-- What joins keep of single values, a join keeps of all bindings. -/
theorem forall_entries_join {p : δ → Prop} {a b : ValueEnv δ}
    (ha : ∀ e ∈ a.function.entries, p e.2) (hb : ∀ e ∈ b.function.entries, p e.2)
    (hjoin : ∀ {v w}, p v → p w → p (join v w)) : ∀ e ∈ (join a b).function.entries, p e.2 :=
  join_keeps (p := fun env : ValueEnv δ => ∀ e ∈ env.function.entries, p e.2)
    (fun _ _ ha hb => Pointwise.forall_entries_join ha hb hjoin) ha hb

/-- A binding to bottom makes the environment bottom, which binds nothing. -/
theorem forall_entries_ofFunction {p : δ → Prop} {f : Pointwise Identifier δ}
    (h : ∀ e ∈ f.entries, isBottom e.2 = false → p e.2) :
    ∀ e ∈ (ofFunction f).function.entries, p e.2 := by
  unfold ofFunction
  split
  case isTrue => exact fun _ he => nomatch he
  case isFalse hany =>
    refine fun e he => h e he ?_
    rw [List.any_eq_true] at hany
    exact Bool.eq_false_iff.2 fun hbottom => hany ⟨e, he, hbottom⟩

theorem bindsNoBottom_bottom : (bottom : ValueEnv δ).BindsNoBottom := fun _ he => nomatch he

theorem bindsNoBottom_put {env : ValueEnv δ} {v : δ} (h : env.BindsNoBottom)
    (hv : isBottom v = false) (id : Identifier) : (env.put id v).BindsNoBottom :=
  Pointwise.forall_entries_put (p := fun v => isBottom v = false) h hv

/-- A meet leaves no bottom binding, whatever its operands have in common. -/
theorem bindsNoBottom_meet {a b : ValueEnv δ} (ha : a.BindsNoBottom) (hb : b.BindsNoBottom) :
    (meet a b).BindsNoBottom :=
  meet_cases (p := fun m : ValueEnv δ => m.BindsNoBottom) (fun _ => ha) (fun _ => hb)
    fun _ _ => forall_entries_ofFunction (p := fun v => isBottom v = false) fun _ _ hne => hne

variable [LawfulLattice δ]

theorem bindsNoBottom_join {a b : ValueEnv δ} (ha : a.BindsNoBottom) (hb : b.BindsNoBottom) :
    (join a b).BindsNoBottom :=
  forall_entries_join (p := fun v => isBottom v = false) ha hb fun {v w} hv _ =>
    LawfulLattice.isBottom_eq_false_of_le (LawfulLattice.le_join_left v w) hv

/-- An environment made of a function is below it: it is the function, or bottom. -/
theorem function_ofFunction_le (f : Pointwise Identifier δ) : (ofFunction f).function ≤ f := by
  unfold ofFunction
  split
  · exact le_of_isBottom rfl
  · exact le_rfl

/-- Environments are ordered like the functions that they hold. -/
theorem orderedBy : OrderedBy fun a b : ValueEnv δ => a.function ≤ b.function := by
  refine .of_map rfl rfl (fun _ => rfl) (fun _ => rfl)
    (fun h => ⟨LawfulLattice.le_of_beq h, LawfulLattice.ge_of_beq h⟩) (fun _ _ => Iff.rfl)
    (fun _ _ _ => LawfulLattice.join_le_iff) fun {a b} _ _ => ?_
  have hle := function_ofFunction_le (meet a.function b.function)
  exact ⟨hle.trans (LawfulLattice.meet_le_left _ _),
    hle.trans (LawfulLattice.meet_le_right _ _)⟩

instance : LawfulLattice (ValueEnv δ) := orderedBy.lawful

theorem le_iff {a b : ValueEnv δ} : a ≤ b ↔ a.function ≤ b.function := orderedBy.le_iff

theorem get_le_get {a b : ValueEnv δ} (h : a ≤ b) (id : Identifier) : a.get id ≤ b.get id :=
  Pointwise.get_le_get (le_iff.1 h) id

/-- Environments are compared identifier by identifier, unless the larger one is bottom. -/
theorem le_of_get_le {a b : ValueEnv δ} (hb : isBottom b = false)
    (h : ∀ id, a.get id ≤ b.get id) : a ≤ b :=
  le_iff.2 (Pointwise.le_iff_within.2 (.pointwise (function_ne_bottom hb) h))

/-- The values of a join are least above those of its operands. -/
theorem get_join_le_iff {a b : ValueEnv δ} {id : Identifier} {v : δ} :
    (join a b).get id ≤ v ↔ a.get id ≤ v ∧ b.get id ≤ v := by
  refine ⟨fun h => ⟨(get_le_get (LawfulLattice.le_join_left a b) id).trans h,
    (get_le_get (LawfulLattice.le_join_right a b) id).trans h⟩, fun h => ?_⟩
  exact join_cases (p := fun j : ValueEnv δ => j.get id ≤ v) (fun _ => h.1) (fun _ => h.2)
    fun _ _ => Pointwise.get_join_le_iff.2 h

/-- Where every value of a function has something other than bottom below it, the environment of
the function keeps it. -/
theorem ofFunction_eq_of_forall_le {f : Pointwise Identifier δ}
    (h : ∀ id, ∃ v, isBottom v = false ∧ v ≤ f.get id) : ofFunction f = ⟨f⟩ := by
  rw [ofFunction, if_neg]
  rw [List.any_eq_true]
  rintro ⟨e, he, hbottom⟩
  obtain ⟨v, hv, hle⟩ := h e.1
  rw [Pointwise.get_of_find? (f.bindings.find?_eq_some_of_mem he)] at hle
  rw [LawfulLattice.isBottom_of_le hle hbottom] at hv
  cases hv

/-- An environment without bottom bindings has no bottom values, unless it is bottom itself. -/
theorem BindsNoBottom.isBottom_get {env : ValueEnv δ} (h : env.BindsNoBottom)
    (hne : isBottom env = false) (id : Identifier) : isBottom (env.get id) = false := by
  have hf := function_ne_bottom hne
  have htop : isBottom (top : δ) = false :=
    LawfulLattice.isBottom_eq_false LawfulLattice.isTop_top
  exact Pointwise.get_cases (p := fun v => isBottom v = false) hf htop
    (OrdMap.forall_entries_iff (p := fun v => isBottom v = false).1 h id)

/-- Environments without bottom bindings respect meets. With one, the meet of two larger
environments could fall to bottom. -/
theorem respectsMeets (hδ : ∀ v : δ, RespectsMeets v) {env : ValueEnv δ}
    (h : env.BindsNoBottom) : RespectsMeets env := by
  cases hne : isBottom env with
  | true => exact .of_isBottom hne
  | false =>
    refine .of_properMeet fun {a b} _ _ ha hb => ?_
    rw [le_iff] at ha hb ⊢
    have hle := (Pointwise.respectsMeets fun e _ => hδ e.2).le_meet ha hb
    have hkeep : ofFunction (meet a.function b.function) = ⟨meet a.function b.function⟩ :=
      ofFunction_eq_of_forall_le fun id =>
        ⟨env.get id, h.isBottom_get hne id, Pointwise.get_le_get hle id⟩
    show env.function ≤ (ofFunction (meet a.function b.function)).function
    rw [hkeep]
    exact hle

end ValueEnv

/-! ## Type environments -/

namespace TypeEnv

instance : ReflBEq TypeEnv where
  rfl {t} := Bool.and_eq_true_iff.2 ⟨BEq.refl t.env, BEq.refl t.stack⟩

theorem isTop_iff (t : TypeEnv) : isTop t = true ↔ isTop t.env = true ∧ isTop t.stack = true :=
  Bool.and_eq_true_iff

/-- Type environments are ordered by their bindings and by the type of the last expression, which
does not count below bottom. -/
theorem orderedBy : OrderedBy fun a b : TypeEnv =>
    isBottom a.env = false → a.env ≤ b.env ∧ a.stack ≤ b.stack where
  isTop_top := rfl
  isBottom_bottom := rfl
  isBottom_eq_false {a} h :=
    LawfulLattice.isBottom_eq_false (a := a.env) ((isTop_iff a).1 h).1
  refl _ _ := ⟨le_rfl, le_rfl⟩
  trans hab hbc ha := by
    obtain ⟨henv, hstack⟩ := hab ha
    obtain ⟨henv', hstack'⟩ := hbc (LawfulLattice.isBottom_eq_false_of_le henv ha)
    exact ⟨henv.trans henv', hstack.trans hstack'⟩
  of_beq h := by
    obtain ⟨henv, hstack⟩ := Bool.and_eq_true_iff.1 h
    exact ⟨fun _ => ⟨LawfulLattice.le_of_beq henv, LawfulLattice.le_of_beq hstack⟩,
      fun _ => ⟨LawfulLattice.ge_of_beq henv, LawfulLattice.ge_of_beq hstack⟩⟩
  of_isBottom _ h ha := absurd h (Bool.eq_false_iff.1 ha)
  of_isTop _ b h _ := by
    obtain ⟨henv, hstack⟩ := (isTop_iff b).1 h
    exact ⟨le_of_isTop henv, le_of_isTop hstack⟩
  isTop_of {a b} hab h := by
    rw [isTop_iff] at h ⊢
    obtain ⟨henv, hstack⟩ := hab (LawfulLattice.isBottom_eq_false h.1)
    exact ⟨LawfulLattice.isTop_of_le henv h.1, LawfulLattice.isTop_of_le hstack h.2⟩
  isBottom_of {a b} hab h := by
    rw [isBottom_iff] at h ⊢
    by_contra ha
    rw [Bool.not_eq_true] at ha
    rw [LawfulLattice.isBottom_of_le (hab ha).1 h] at ha
    cases ha
  properLe_iff {a b} ha _ := by
    have hne : isBottom a.env = false := ha.2
    rw [forall_prop_of_true hne]
    exact Bool.and_eq_true_iff
  properJoin_iff {a b} c ha hb := by
    have hne : isBottom a.env = false := ha.2
    -- The order looks at the stacks only below an environment with values, so the join has to have
    -- some before its stack may be compared.
    have hjoin : isBottom (join a.env b.env) = false :=
      LawfulLattice.isBottom_eq_false_of_le (LawfulLattice.le_join_left a.env b.env) hne
    rw [forall_prop_of_true hne, forall_prop_of_true (show isBottom b.env = false from hb.2),
      and_and_and_comm, ← LawfulLattice.join_le_iff, ← LawfulLattice.join_le_iff]
    exact forall_prop_of_true hjoin
  properMeet_le _ _ :=
    ⟨fun _ => ⟨LawfulLattice.meet_le_left _ _, LawfulLattice.meet_le_left _ _⟩,
      fun _ => ⟨LawfulLattice.meet_le_right _ _, LawfulLattice.meet_le_right _ _⟩⟩

instance : LawfulLattice TypeEnv := orderedBy.lawful

theorem respectsMeets {t : TypeEnv} (h : t.env.BindsNoBottom) : RespectsMeets t := by
  refine .of_properMeet fun hx hy ha hb => ?_
  rw [orderedBy.le_iff] at ha hb ⊢
  intro hne
  obtain ⟨henv, hstack⟩ := ha hne
  obtain ⟨henv', hstack'⟩ := hb hne
  have he := ValueEnv.respectsMeets InferredTypes.respectsMeets h
  have hs := InferredTypes.respectsMeets t.stack
  exact ⟨he.le_meet henv henv', hs.le_meet hstack hstack'⟩

end TypeEnv

/-! ## Composite states -/

namespace Composite

variable {η : Type} [BEq η] [AbstractLattice η]

theorem isTop_iff (s : Composite η) : isTop s = true ↔
    (isTop s.heap = true ∧ isTop s.values = true) ∧ isTop s.types = true := by
  show (isTop s.heap && isTop s.values && isTop s.types) = true ↔ _
  rw [Bool.and_eq_true, Bool.and_eq_true]

variable [LawfulLattice η]

/-- Composite states are ordered part by part. -/
theorem orderedBy : OrderedBy fun a b : Composite η =>
    (a.heap ≤ b.heap ∧ a.values ≤ b.values) ∧ a.types ≤ b.types where
  isTop_top := (isTop_iff _).2 ⟨⟨LawfulLattice.isTop_top, rfl⟩, rfl⟩
  isBottom_bottom := (isBottom_iff _).2 ⟨⟨LawfulLattice.isBottom_bottom, rfl⟩, rfl⟩
  isBottom_eq_false {a} h := by
    have hheap := LawfulLattice.isBottom_eq_false ((isTop_iff a).1 h).1.1
    rw [Bool.eq_false_iff] at hheap ⊢
    exact fun hbottom => hheap ((isBottom_iff a).1 hbottom).1.1
  refl _ := ⟨⟨le_rfl, le_rfl⟩, le_rfl⟩
  trans hab hbc := by
    obtain ⟨⟨hheap, hvalues⟩, htypes⟩ := hab
    obtain ⟨⟨hheap', hvalues'⟩, htypes'⟩ := hbc
    exact ⟨⟨hheap.trans hheap', hvalues.trans hvalues'⟩, htypes.trans htypes'⟩
  of_beq h := by
    obtain ⟨hpair, htypes⟩ := Bool.and_eq_true_iff.1 h
    obtain ⟨hheap, hvalues⟩ := Bool.and_eq_true_iff.1 hpair
    constructor
    · exact ⟨⟨LawfulLattice.le_of_beq hheap, LawfulLattice.le_of_beq hvalues⟩,
        LawfulLattice.le_of_beq htypes⟩
    · exact ⟨⟨LawfulLattice.ge_of_beq hheap, LawfulLattice.ge_of_beq hvalues⟩,
        LawfulLattice.ge_of_beq htypes⟩
  of_isBottom {a} _ h := by
    obtain ⟨⟨hheap, hvalues⟩, htypes⟩ := (isBottom_iff a).1 h
    exact ⟨⟨le_of_isBottom hheap, le_of_isBottom hvalues⟩, le_of_isBottom htypes⟩
  of_isTop _ b h := by
    obtain ⟨⟨hheap, hvalues⟩, htypes⟩ := (isTop_iff b).1 h
    exact ⟨⟨le_of_isTop hheap, le_of_isTop hvalues⟩, le_of_isTop htypes⟩
  isTop_of {a b} hab h := by
    obtain ⟨⟨hheap, hvalues⟩, htypes⟩ := hab
    rw [isTop_iff] at h ⊢
    exact ⟨⟨LawfulLattice.isTop_of_le hheap h.1.1, LawfulLattice.isTop_of_le hvalues h.1.2⟩,
      LawfulLattice.isTop_of_le htypes h.2⟩
  isBottom_of {a b} hab h := by
    obtain ⟨⟨hheap, hvalues⟩, htypes⟩ := hab
    rw [isBottom_iff] at h ⊢
    exact ⟨⟨LawfulLattice.isBottom_of_le hheap h.1.1,
      LawfulLattice.isBottom_of_le hvalues h.1.2⟩, LawfulLattice.isBottom_of_le htypes h.2⟩
  properLe_iff {a b} _ _ := by
    show (le a.heap b.heap && le a.values b.values && le a.types b.types) = true ↔ _
    rw [Bool.and_eq_true, Bool.and_eq_true]
    rfl
  properJoin_iff {a b} c _ _ := by
    rw [and_and_and_comm, and_and_and_comm (a := a.heap ≤ c.heap), ← LawfulLattice.join_le_iff,
      ← LawfulLattice.join_le_iff, ← LawfulLattice.join_le_iff]
    rfl
  properMeet_le _ _ := by
    constructor
    · exact ⟨⟨LawfulLattice.meet_le_left _ _, LawfulLattice.meet_le_left _ _⟩,
        LawfulLattice.meet_le_left _ _⟩
    · exact ⟨⟨LawfulLattice.meet_le_right _ _, LawfulLattice.meet_le_right _ _⟩,
        LawfulLattice.meet_le_right _ _⟩

instance : LawfulLattice (Composite η) := orderedBy.lawful

/-- A composite state respects meets when its parts do. -/
theorem respectsMeets {s : Composite η} (hheap : RespectsMeets s.heap)
    (hvalues : s.values.BindsNoBottom) (htypes : s.types.env.BindsNoBottom) :
    RespectsMeets s := by
  refine .of_properMeet fun _ _ ha hb => ?_
  rw [orderedBy.le_iff] at ha hb ⊢
  obtain ⟨⟨haheap, havalues⟩, hatypes⟩ := ha
  obtain ⟨⟨hbheap, hbvalues⟩, hbtypes⟩ := hb
  have hv := ValueEnv.respectsMeets Interval.respectsMeets hvalues
  have ht := TypeEnv.respectsMeets htypes
  exact ⟨⟨hheap.le_meet haheap hbheap, hv.le_meet havalues hbvalues⟩,
    ht.le_meet hatypes hbtypes⟩

end Composite

/-! ## Analysis states -/

namespace SymbolAliasing

theorem orderedBy : OrderedBy fun a b : SymbolAliasing => a.function ≤ b.function :=
  .of_map rfl rfl (fun _ => rfl) (fun _ => rfl)
    (fun h => ⟨LawfulLattice.le_of_beq h, LawfulLattice.ge_of_beq h⟩) (fun _ _ => Iff.rfl)
    (fun _ _ _ => LawfulLattice.join_le_iff)
    fun _ _ => ⟨LawfulLattice.meet_le_left _ _, LawfulLattice.meet_le_right _ _⟩

instance : LawfulLattice SymbolAliasing := orderedBy.lawful

theorem respectsMeets (a : SymbolAliasing) : RespectsMeets a := by
  refine .of_properMeet fun _ _ hb hc => ?_
  rw [orderedBy.le_iff] at hb hc ⊢
  exact (Pointwise.respectsMeets fun e _ => Powerset.respectsMeets e.2).le_meet hb hc

end SymbolAliasing

namespace State

variable {η : Type} [BEq η] [AbstractLattice η]

theorem isTop_iff (s : State η) : isTop s = isTop s.composite := rfl

variable [LawfulLattice η]

/-- Top and bottom are recognized by the composite part, so stacks and aliases only count between.
-/
theorem orderedBy : OrderedBy fun a b : State η =>
    isBottom a.composite = false → isTop b.composite = false →
      (a.composite ≤ b.composite ∧ a.stack ≤ b.stack) ∧ a.aliasing ≤ b.aliasing where
  isTop_top := LawfulLattice.isTop_top (α := Composite η)
  isBottom_bottom := LawfulLattice.isBottom_bottom (α := Composite η)
  isBottom_eq_false {a} h := LawfulLattice.isBottom_eq_false (a := a.composite) h
  refl _ _ _ := ⟨⟨le_rfl, le_rfl⟩, le_rfl⟩
  trans {a b c} hab hbc ha hc := by
    -- A middle state that is top would make the last one top.
    have hb : isTop b.composite = false := by
      by_contra htop
      rw [Bool.not_eq_false] at htop
      have hne := LawfulLattice.isBottom_eq_false htop
      rw [LawfulLattice.isTop_of_le (hbc hne hc).1.1 htop] at hc
      cases hc
    obtain ⟨⟨hcomposite, hstack⟩, haliasing⟩ := hab ha hb
    have hne := LawfulLattice.isBottom_eq_false_of_le hcomposite ha
    obtain ⟨⟨hcomposite', hstack'⟩, haliasing'⟩ := hbc hne hc
    exact ⟨⟨hcomposite.trans hcomposite', hstack.trans hstack'⟩, haliasing.trans haliasing'⟩
  of_beq h := by
    obtain ⟨hpair, hstack⟩ := Bool.and_eq_true_iff.1 h
    obtain ⟨hcomposite, haliasing⟩ := Bool.and_eq_true_iff.1 hpair
    constructor
    · intro _ _
      exact ⟨⟨LawfulLattice.le_of_beq hcomposite, LawfulLattice.le_of_beq hstack⟩,
        LawfulLattice.le_of_beq haliasing⟩
    · intro _ _
      exact ⟨⟨LawfulLattice.ge_of_beq hcomposite, LawfulLattice.ge_of_beq hstack⟩,
        LawfulLattice.ge_of_beq haliasing⟩
  of_isBottom _ h ha := absurd h (Bool.eq_false_iff.1 ha)
  of_isTop _ _ h _ hb := absurd h (Bool.eq_false_iff.1 hb)
  isTop_of {a b} hab h := by
    rw [isTop_iff] at h ⊢
    by_contra hb
    rw [Bool.not_eq_true] at hb
    have hle := (hab (LawfulLattice.isBottom_eq_false h) hb).1.1
    rw [LawfulLattice.isTop_of_le hle h] at hb
    cases hb
  isBottom_of {a b} hab h := by
    rw [isBottom_iff] at h ⊢
    by_contra ha
    rw [Bool.not_eq_true] at ha
    have hle := (hab ha (LawfulLattice.isTop_eq_false h)).1.1
    rw [LawfulLattice.isBottom_of_le hle h] at ha
    cases ha
  properLe_iff {a b} ha hb := by
    rw [forall_prop_of_true (show isBottom a.composite = false from ha.2),
      forall_prop_of_true (show isTop b.composite = false from hb.1)]
    show (le a.composite b.composite && le a.stack b.stack && le a.aliasing b.aliasing) = true ↔ _
    rw [Bool.and_eq_true, Bool.and_eq_true]
    rfl
  properJoin_iff {a b} c ha hb := by
    have hne : isBottom a.composite = false := ha.2
    have hjoin : isBottom (join a.composite b.composite) = false :=
      LawfulLattice.isBottom_eq_false_of_le (LawfulLattice.le_join_left _ b.composite) hne
    rw [forall_prop_of_true hne, forall_prop_of_true (show isBottom b.composite = false from hb.2),
      ← forall_and]
    refine (forall_prop_of_true hjoin).trans (forall_congr' fun _ => ?_)
    rw [and_and_and_comm, and_and_and_comm (a := a.composite ≤ c.composite),
      ← LawfulLattice.join_le_iff, ← LawfulLattice.join_le_iff, ← LawfulLattice.join_le_iff]
    rfl
  properMeet_le _ _ := by
    constructor
    · intro _ _
      exact ⟨⟨LawfulLattice.meet_le_left _ _, LawfulLattice.meet_le_left _ _⟩,
        LawfulLattice.meet_le_left _ _⟩
    · intro _ _
      exact ⟨⟨LawfulLattice.meet_le_right _ _, LawfulLattice.meet_le_right _ _⟩,
        LawfulLattice.meet_le_right _ _⟩

instance : LawfulLattice (State η) := orderedBy.lawful

/-- No environment of the state binds an identifier to bottom. -/
def BindsNoBottom (s : State η) : Prop :=
  s.composite.values.BindsNoBottom ∧ s.composite.types.env.BindsNoBottom

/-- A state without bottom bindings respects meets, where the heaps do. -/
theorem respectsMeets (hη : ∀ h : η, RespectsMeets h) {s : State η} (hs : s.BindsNoBottom) :
    RespectsMeets s := by
  refine .of_properMeet fun {a b} ha hb hsa hsb => ?_
  rw [orderedBy.le_iff] at hsa hsb ⊢
  intro hne _
  obtain ⟨⟨hcomposite, hstack⟩, haliasing⟩ := hsa hne ha.1
  obtain ⟨⟨hcomposite', hstack'⟩, haliasing'⟩ := hsb hne hb.1
  have hc := Composite.respectsMeets (hη s.composite.heap) hs.1 hs.2
  have ht := Powerset.respectsMeets s.stack
  have ha := SymbolAliasing.respectsMeets s.aliasing
  exact ⟨⟨hc.le_meet hcomposite hcomposite', ht.le_meet hstack hstack'⟩,
    ha.le_meet haliasing haliasing'⟩

end State

/-! ## Stores -/

namespace Store

variable {η : Type} [BEq η] [AbstractLattice η] [LawfulLattice η]

theorem orderedBy : OrderedBy fun a b : Store η => a.function ≤ b.function :=
  .of_map rfl rfl (fun _ => rfl) (fun _ => rfl)
    (fun h => ⟨LawfulLattice.le_of_beq h, LawfulLattice.ge_of_beq h⟩) (fun _ _ => Iff.rfl)
    (fun _ _ _ => LawfulLattice.join_le_iff)
    fun _ _ => ⟨LawfulLattice.meet_le_left _ _, LawfulLattice.meet_le_right _ _⟩

instance : LawfulLattice (Store η) := orderedBy.lawful

/-- No environment of a stored state binds an identifier to bottom. -/
def BindsNoBottom (s : Store η) : Prop :=
  ∀ e ∈ s.function.entries, e.2.BindsNoBottom

/-- A store respects meets when no state in it has a bottom binding. -/
theorem respectsMeets (hη : ∀ h : η, RespectsMeets h) {s : Store η} (hs : s.BindsNoBottom) :
    RespectsMeets s := by
  refine .of_properMeet fun _ _ ha hb => ?_
  rw [orderedBy.le_iff] at ha hb ⊢
  exact (Pointwise.respectsMeets fun e he => State.respectsMeets hη (hs e he)).le_meet ha hb

end Store

/-! ## The laws -/

/-- The laws of a lattice up to mutual `≤`. Meets are greatest above the values with a property. -/
structure IsLattice (α : Type) [BEq α] [AbstractLattice α] (p : α → Prop) : Prop where
  le_refl : ∀ a : α, a ≤ a
  le_trans : ∀ a b c : α, a ≤ b → b ≤ c → a ≤ c
  le_join_left : ∀ a b : α, a ≤ join a b
  le_join_right : ∀ a b : α, b ≤ join a b
  join_le : ∀ a b c : α, a ≤ c → b ≤ c → join a b ≤ c
  meet_le_left : ∀ a b : α, meet a b ≤ a
  meet_le_right : ∀ a b : α, meet a b ≤ b
  le_meet : ∀ a b c : α, p c → c ≤ a → c ≤ b → c ≤ meet a b
  le_top : ∀ a : α, a ≤ top
  bottom_le : ∀ a : α, bottom ≤ a

/-- The laws of a lawful lattice, with greatest meets where values respect them. -/
theorem IsLattice.of_lawful {α : Type} [BEq α] [AbstractLattice α] [LawfulLattice α]
    {p : α → Prop} (h : ∀ c : α, p c → RespectsMeets c) : IsLattice α p where
  le_refl := LawfulLattice.le_refl
  le_trans _ _ _ := LawfulLattice.le_trans
  le_join_left := LawfulLattice.le_join_left
  le_join_right := LawfulLattice.le_join_right
  join_le _ _ _ ha hb := LawfulLattice.join_le_iff.2 ⟨ha, hb⟩
  meet_le_left := LawfulLattice.meet_le_left
  meet_le_right := LawfulLattice.meet_le_right
  le_meet _ _ c hc := (h c hc).le_meet
  le_top _ := le_of_isTop LawfulLattice.isTop_top
  bottom_le _ := le_of_isBottom LawfulLattice.isBottom_bottom

/-- Analysis states over summary heaps and stores of them obey the lattice laws. -/
theorem state_isLattice_and_store_isLattice :
    IsLattice (State SummaryHeap) State.BindsNoBottom ∧
      IsLattice (Store SummaryHeap) Store.BindsNoBottom :=
  ⟨.of_lawful fun _ => State.respectsMeets SummaryHeap.respectsMeets,
    .of_lawful fun _ => Store.respectsMeets SummaryHeap.respectsMeets⟩

end Overapprox
