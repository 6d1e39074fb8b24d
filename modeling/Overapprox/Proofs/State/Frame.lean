import Overapprox.Proofs.Concrete.Expression
import Overapprox.Proofs.Env.Frame
import Overapprox.Proofs.State.Assignment
import Overapprox.Proofs.State.Condition

/-!
# What transfers of composite states change

A transfer joins what it makes of each value expression that the expression at hand may denote, and
each of these leaves the identifiers alone that the transfer is not about. The heap of type
summaries gains the types that are allocated anywhere in an expression, and loses none.

* `SummaryHeap.mem_allocatedBy_iff`: the allocations of an expression are those of its parts.
* `Composite.Knows.assign`, `Composite.Knows.step`, `Composite.Knows.assume`: what is known of an
  identifier stays known.
* `Composite.transfers_change_only`: all that the three transfers of a state change.
-/

namespace Overapprox

open AbstractLattice

/-! ## Allocations -/

/-- The expressions at the nodes of an expression, itself included. -/
inductive SymExpr.PartOf (p : SymExpr) : SymExpr → Prop where
  | refl : PartOf p p
  | unary {e : SymExpr} (op : UnaryOp) (a : Annotation) : PartOf p e → PartOf p (.unary op e a)
  | left {l : SymExpr} (op : BinaryOp) (r : SymExpr) (a : Annotation) :
    PartOf p l → PartOf p (.binary op l r a)
  | right {r : SymExpr} (op : BinaryOp) (l : SymExpr) (a : Annotation) :
    PartOf p r → PartOf p (.binary op l r a)
  | first {l : SymExpr} (op : TernaryOp) (m r : SymExpr) (a : Annotation) :
    PartOf p l → PartOf p (.ternary op l m r a)
  | second {m : SymExpr} (op : TernaryOp) (l r : SymExpr) (a : Annotation) :
    PartOf p m → PartOf p (.ternary op l m r a)
  | third {r : SymExpr} (op : TernaryOp) (l m : SymExpr) (a : Annotation) :
    PartOf p r → PartOf p (.ternary op l m r a)
  | container {c : SymExpr} (e : SymExpr) (a : Annotation) : PartOf p c → PartOf p (.child c e a)
  | child {e : SymExpr} (c : SymExpr) (a : Annotation) : PartOf p e → PartOf p (.child c e a)
  | ref {e : SymExpr} (a : Annotation) : PartOf p e → PartOf p (.ref e a)
  | deref {e : SymExpr} (a : Annotation) : PartOf p e → PartOf p (.deref e a)

/-- Some part of an expression allocates an instance of an in-memory type of this name. -/
def SymExpr.Allocates (e : SymExpr) (n : String) : Prop :=
  ∃ a t, (SymExpr.alloc a).PartOf e ∧ t ∈ a.runtimeTypes.toList ∧ t.isInMemory = true ∧ t.text = n

theorem SymExpr.Allocates.of_part {p e : SymExpr} {n : String} (h : p.Allocates n)
    (hpart : ∀ q : SymExpr, q.PartOf p → q.PartOf e) : e.Allocates n := by
  obtain ⟨a, t, ha, ht⟩ := h
  exact ⟨a, t, hpart _ ha, ht⟩

namespace SummaryHeap

theorem mem_allocatedBy_alloc {a : Annotation} {n : String} :
    n ∈ allocatedBy (.alloc a) ↔
      ∃ t, t ∈ a.runtimeTypes.toList ∧ t.isInMemory = true ∧ t.text = n := by
  simp [allocatedBy, and_assoc]

theorem mem_allocatedBy_of_partOf {p e : SymExpr} (h : p.PartOf e) {n : String}
    (hn : n ∈ allocatedBy p) : n ∈ allocatedBy e := by
  induction h with
  | refl => exact hn
  | unary _ _ _ ih | ref _ _ ih | deref _ _ ih => exact ih
  | left _ _ _ _ ih | container _ _ _ ih => exact List.mem_append_left _ ih
  | right _ _ _ _ ih | child _ _ _ ih | third _ _ _ _ _ ih => exact List.mem_append_right _ ih
  | first _ _ _ _ _ ih => exact List.mem_append_left _ (List.mem_append_left _ ih)
  | second _ _ _ _ _ ih => exact List.mem_append_left _ (List.mem_append_right _ ih)

/-- By induction on the expression; an allocation itself is its only part. -/
theorem allocates_of_mem_allocatedBy {e : SymExpr} {n : String} (h : n ∈ allocatedBy e) :
    e.Allocates n := by
  induction e with
  | const | ident | any | skip => cases h
  | unary op e a ih => exact (ih h).of_part fun _ => .unary op a
  | binary op l r a ihl ihr =>
    rcases List.mem_append.1 h with h | h
    · exact (ihl h).of_part fun _ => .left op r a
    · exact (ihr h).of_part fun _ => .right op l a
  | ternary op l m r a ihl ihm ihr =>
    rcases List.mem_append.1 h with h | h
    · rcases List.mem_append.1 h with h | h
      · exact (ihl h).of_part fun _ => .first op m r a
      · exact (ihm h).of_part fun _ => .second op l r a
    · exact (ihr h).of_part fun _ => .third op l m a
  | child c e a ihc ihe =>
    rcases List.mem_append.1 h with h | h
    · exact (ihc h).of_part fun _ => .container e a
    · exact (ihe h).of_part fun _ => .child c a
  | alloc a =>
    obtain ⟨t, ht⟩ := mem_allocatedBy_alloc.1 h
    exact ⟨a, t, .refl, ht⟩
  | ref e a ih => exact (ih h).of_part fun _ => .ref a
  | deref e a ih => exact (ih h).of_part fun _ => .deref a

/-- The names that an expression allocates are those of the allocations in it. -/
theorem mem_allocatedBy_iff {e : SymExpr} {n : String} : n ∈ allocatedBy e ↔ e.Allocates n := by
  refine ⟨allocates_of_mem_allocatedBy, ?_⟩
  rintro ⟨a, t, hpart, ht⟩
  exact mem_allocatedBy_of_partOf hpart (mem_allocatedBy_alloc.2 ⟨t, ht⟩)

/-- A heap of names becomes the heap of these names and of those that an expression allocates. -/
def GainsFrom (h : SummaryHeap) (e : SymExpr) (h' : SummaryHeap) : Prop :=
  ∀ names, h = allocated names → ∃ names', h' = allocated names' ∧
    ∀ n, names'.contains n = true ↔ names.contains n = true ∨ e.Allocates n

/-- A heap of names gains exactly those that the expression allocates. -/
theorem gainsFrom_allocate (h : SummaryHeap) (e : SymExpr) : h.GainsFrom e (h.allocate e) := by
  rintro names rfl
  refine ⟨names.insertAll (allocatedBy e), rfl, fun n => ?_⟩
  rw [OrdSet.contains_insertAll, Bool.or_eq_true, ← mem_allocatedBy_iff, List.any_eq_true]
  simp only [beq_iff_eq, Std.LawfulEqOrd.compare_eq_iff_eq, exists_eq_right']

end SummaryHeap

/-! ## Transfers -/

theorem ValueEnv.joinOver_const {δ ι : Type} [BEq δ] [ReflBEq δ] [ValueDomain δ] [LawfulLattice δ]
    (env : ValueEnv δ) {is : List ι} (hne : is ≠ []) : joinOver (fun _ => env) is = env := by
  obtain ⟨i, hi⟩ := List.exists_mem_of_ne_nil is hne
  cases hbottom : isBottom env with
  | false => exact joinOver_eq_of_forall (fun _ _ => .inl rfl) hi rfl hbottom
  | true =>
    exact (eq_or_isBottom_joinOver (a := env) fun _ _ => .inl rfl).elim id fun h =>
      eq_of_isBottom h hbottom

namespace TypeEnv

variable {opts : Options} {t : TypeEnv}

/-- An evaluation changes the type on the stack, not those of the identifiers. -/
theorem env_step (opts : Options) (t : TypeEnv) (e : ValueExpr) : (t.step opts e).env = t.env := by
  rw [step]
  split <;> rfl

/-- Type environments with the same bindings are joined to one with these bindings. -/
theorem env_joinOver {ι : Type} {f : ι → TypeEnv} {is : List ι} (hne : is ≠ [])
    (h : ∀ i ∈ is, (f i).env = t.env) : (joinOver f is).env = t.env := by
  obtain ⟨i, hi⟩ := List.exists_mem_of_ne_nil is hne
  have hcases : isBottom (joinOver f is).env = true ∨ (joinOver f is).env = t.env := by
    refine joinOver_keeps (p := fun u : TypeEnv => isBottom u.env = true ∨ u.env = t.env) (.inl rfl)
      (fun ha hb => ?_) fun i hi => .inr (h i hi)
    refine join_keeps (p := fun u : TypeEnv => isBottom u.env = true ∨ u.env = t.env)
      (fun _ _ ha hb => ?_) ha hb
    exact (eq_or_isBottom_join ha.symm hb.symm).symm
  refine hcases.elim (fun hbottom => ?_) fun heq => heq
  have hmember : isBottom (f i) = true := LawfulLattice.isBottom_of_le (le_joinOver hi) hbottom
  rw [isBottom_iff, h i hi] at hmember
  exact ValueEnv.eq_of_isBottom hbottom hmember

end TypeEnv

namespace Composite

variable {opts : Options} {s s' : Composite SummaryHeap} {x y : Identifier} {e : SymExpr}
  {v : Interval} {ts : InferredTypes} {choices : Choices}

/-- An identifier has an interval and types, unless there are no values or no types. -/
structure Knows (s : Composite SummaryHeap) (x : Identifier) (v : Interval) (ts : InferredTypes) :
    Prop where
  values : s.values.Retains x v
  types : s.types.env.Retains x ts

theorem knows_get (s : Composite SummaryHeap) (x : Identifier) :
    s.Knows x (s.values.get x) (s.types.get x) :=
  ⟨s.values.retains_get x, s.types.env.retains_get x⟩

theorem Knows.assignStep {c : ValueExpr} (h : s.Knows y v ts) (hy : compare y x ≠ .eq) :
    (assignStep opts x s.values s.types c).1.Retains y v := by
  rw [Composite.assignStep]
  dsimp only
  split
  · exact h.values.assign hy
  · refine h.values.assign ?_
    rwa [compare_congr_right (x.compare_withRuntimeTypes _)]

/-- An assignment leaves what is known about every other identifier. -/
theorem Knows.assign (h : s.Knows y v ts) (hy : compare y x ≠ .eq)
    (hassign : s.assign opts x e = .ok s') : s'.Knows y v ts := by
  obtain ⟨choices, hrewrite⟩ := s.exists_rewrite e
  rw [assign_eq hrewrite] at hassign
  cases hassign
  split
  · exact ⟨h.values, h.types⟩
  · exact ⟨.joinOver fun c _ => h.assignStep hy,
      TypeEnv.retains_joinOver fun c _ => TypeEnv.retains_assign h.types hy⟩

theorem step_eq (h : s.rewrite e = .ok choices) :
    s.step opts e = .ok
      (if choices.isEmpty then ⟨s.heap.allocate e, s.values, s.types⟩
      else ⟨s.heap.allocate e, joinOver (fun _ => s.values) choices.toList,
        joinOver (s.types.step opts) choices.toList⟩) :=
  transfer_of_rewrite s rfl h _

theorem toList_ne_nil (h : choices.isEmpty = false) : choices.toList ≠ [] := by
  intro hnil
  rw [Powerset.isEmpty, OrdSet.isEmpty, show choices.elements.toList = [] from hnil] at h
  cases h

/-- An evaluation changes no bindings, neither values nor types. -/
theorem step_bindings (hstep : s.step opts e = .ok s') :
    s'.values = s.values ∧ s'.types.env = s.types.env := by
  obtain ⟨choices, hrewrite⟩ := s.exists_rewrite e
  rw [step_eq hrewrite] at hstep
  cases hstep
  split
  case isTrue => exact ⟨rfl, rfl⟩
  case isFalse hchoices =>
    have hne := toList_ne_nil (Bool.eq_false_iff.2 hchoices)
    exact ⟨s.values.joinOver_const hne, TypeEnv.env_joinOver hne fun c _ => s.types.env_step opts c⟩

theorem Knows.step (h : s.Knows y v ts) (hstep : s.step opts e = .ok s') : s'.Knows y v ts := by
  obtain ⟨hvalues, htypes⟩ := step_bindings hstep
  exact ⟨hvalues ▸ h.values, htypes ▸ h.types⟩

theorem retains_types_assume (h : s.types.env.Retains y ts) (hassume : s.assume opts e = .ok s') :
    s'.types.env.Retains y ts := by
  obtain ⟨choices, hrewrite⟩ := s.exists_rewrite e
  rw [assume_eq hrewrite] at hassume
  cases hassume
  split
  · exact h
  · exact TypeEnv.retains_joinOver fun c _ => TypeEnv.retains_assume h c

theorem mentions_annotateInferred (types : TypeEnv) (c : ValueExpr) (y : Identifier) :
    (annotateInferred opts types c).mentions y = c.mentions y := by
  rw [annotateInferred, annotate]
  split
  · rfl
  · exact c.mentions_withRuntimeTypes y _

/-- A condition leaves what is known about an identifier that none of its rewritings reads. -/
theorem Knows.assume (h : s.Knows y v ts) (hrewrite : s.rewrite e = .ok choices)
    (hreads : ∀ c ∈ choices.toList, c.mentions y = false) (hassume : s.assume opts e = .ok s') :
    s'.Knows y v ts := by
  refine ⟨?_, retains_types_assume h.types hassume⟩
  rw [assume_eq hrewrite] at hassume
  cases hassume
  split
  · exact h.values
  · refine .joinOver fun c hc => h.values.assume ?_
    obtain ⟨d, hd, rfl⟩ := List.mem_map.1 hc
    rw [mentions_annotateInferred]
    exact hreads d hd

theorem heap_assign (hassign : s.assign opts x e = .ok s') : s'.heap = s.heap.allocate e := by
  obtain ⟨choices, hrewrite⟩ := s.exists_rewrite e
  rw [assign_eq hrewrite] at hassign
  cases hassign
  split <;> rfl

theorem heap_step (hstep : s.step opts e = .ok s') : s'.heap = s.heap.allocate e := by
  obtain ⟨choices, hrewrite⟩ := s.exists_rewrite e
  rw [step_eq hrewrite] at hstep
  cases hstep
  split <;> rfl

/-- A condition allocates nothing. -/
theorem heap_assume (hassume : s.assume opts e = .ok s') : s'.heap = s.heap := by
  obtain ⟨choices, hrewrite⟩ := s.exists_rewrite e
  rw [assume_eq hrewrite] at hassume
  cases hassume
  split <;> rfl

/-- The transfers of a state always succeed. An assignment leaves the values and the types of all
other identifiers as they are, unless nothing is left of these components. An evaluation leaves all
values and all types of identifiers. A condition leaves all types and the values of the identifiers
that it reads in none of its rewritings, with the same exception. The heap gains what the expression
allocates, but for a condition. -/
theorem transfers_change_only (opts : Options) (s : Composite SummaryHeap) (e : SymExpr) :
    (∀ x, ∃ s', s.assign opts x e = .ok s' ∧ s.heap.GainsFrom e s'.heap ∧
      ∀ y, (y == x) = false → s'.Knows y (s.values.get y) (s.types.get y)) ∧
    (∃ s', s.step opts e = .ok s' ∧ s.heap.GainsFrom e s'.heap ∧
      s'.values = s.values ∧ s'.types.env = s.types.env) ∧
    (∃ choices s', s.rewrite e = .ok choices ∧ s.assume opts e = .ok s' ∧ s'.heap = s.heap ∧
      ∀ y, s'.types.env.Retains y (s.types.get y) ∧
        ((∀ c ∈ choices.toList, c.mentions y = false) →
          s'.values.Retains y (s.values.get y))) := by
  obtain ⟨choices, hrewrite⟩ : ∃ choices, s.rewrite e = .ok choices := Summary.exists_rewrite e
  refine ⟨fun x => ⟨_, assign_eq hrewrite, ?_, fun y hy => ?_⟩, ⟨_, step_eq hrewrite, ?_, ?_⟩,
    choices, _, hrewrite, assume_eq hrewrite, heap_assume (assume_eq hrewrite), fun y => ⟨?_, ?_⟩⟩
  · rw [heap_assign (assign_eq hrewrite)]
    exact s.heap.gainsFrom_allocate e
  · refine (s.knows_get y).assign (fun heq => ?_) (assign_eq hrewrite)
    rw [Std.LawfulBEqOrd.compare_eq_iff_beq.1 heq] at hy
    cases hy
  · rw [heap_step (step_eq hrewrite)]
    exact s.heap.gainsFrom_allocate e
  · exact step_bindings (step_eq hrewrite)
  · exact retains_types_assume (s.types.env.retains_get y) (assume_eq hrewrite)
  · intro hreads
    exact ((s.knows_get y).assume hrewrite hreads (assume_eq hrewrite)).values

/-- The assignment of a fresh unit to `x` leaves `y` alone and records the unit. -/
theorem transfers_change_only_fresh_unit :
    ∃ s', (binding (intVar "y") (.singleton 3)).assign {} (intVar "x")
        (.alloc { type := .unit "A" }) = .ok s' ∧
      s'.values.get (intVar "y") = .singleton 3 ∧ s'.heap.names.contains "A" = true := by
  obtain ⟨s', hassign, hheap, hother⟩ := (transfers_change_only {}
    (binding (intVar "y") (.singleton 3)) (.alloc { type := .unit "A" })).1 (intVar "x")
  obtain ⟨names, hnames, hcontains⟩ := hheap _ rfl
  refine ⟨s', hassign, (hother (intVar "y") rfl).values.get_eq ?_, ?_⟩
  · cases hassign
    rfl
  · rw [hnames]
    exact (hcontains "A").2 (.inr (SummaryHeap.mem_allocatedBy_iff.1 (by decide)))

end Composite

end Overapprox
