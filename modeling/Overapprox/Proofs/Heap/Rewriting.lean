import Overapprox.Heap.Scripted
import Overapprox.Heap.Summary
import Overapprox.Proofs.Order.Identity
import Overapprox.Proofs.Order.Renaming

/-!
# What rewriting does away from the heap

However the heap expressions are resolved, an expression without any is rewritten to itself alone,
with all of its annotations, and an operator to every combination of what its operands are
rewritten to. A set of expressions drops an element that is equal to an earlier one, annotations
apart; no two combinations are, so all of them are in the result as they were built.

* `Rewriter.rewrite_ofValue`: rewriting undoes the embedding of the value expressions.
* `Rewriter.Combines`: the combinations of results of operands.
* `Rewriter.mem_rewrite_iff`, `Rewriter.contains_rewrite_iff`: an operator is rewritten to these.
* `SummaryHeap.allocate_ofValue`: a value expression allocates nothing.
* `Rewriter.rewrite_structural`: all of it together.
-/

namespace Overapprox

/-! ## Different operands -/

namespace ValueExpr

variable {e f l l' m m' r r' : ValueExpr} {a : Annotation}

theorem compare_unary {op : UnaryOp} :
    compare (unary op e a) (unary op f a) = .eq ↔ compare e f = .eq := by
  simp only [Std.LawfulBEqOrd.compare_eq_iff_beq]
  show (op == op && e.same f && a.type == a.type) = true ↔ e.same f = true
  simp

/-- Compounds with one operator are equal when their operands are. -/
theorem compare_binary {op : BinaryOp} :
    compare (binary op l r a) (binary op l' r' a) = .eq ↔
      compare l l' = .eq ∧ compare r r' = .eq := by
  simp only [Std.LawfulBEqOrd.compare_eq_iff_beq]
  show (op == op && l.same l' && r.same r' && a.type == a.type) = true ↔
    l.same l' = true ∧ r.same r' = true
  simp

theorem compare_ternary {op : TernaryOp} :
    compare (ternary op l m r a) (ternary op l' m' r' a) = .eq ↔
      compare l l' = .eq ∧ compare m m' = .eq ∧ compare r r' = .eq := by
  simp only [Std.LawfulBEqOrd.compare_eq_iff_beq]
  show (op == op && l.same l' && m.same m' && r.same r' && a.type == a.type) = true ↔
    l.same l' = true ∧ m.same m' = true ∧ r.same r' = true
  simp [and_assoc]

variable (a)

theorem keysDiffer_unary (op : UnaryOp) (es : OrdSet ValueExpr) :
    (es.toList.map (unary op · a)).Pairwise (KeysDiffer id) :=
  es.pairwise_map fun _ _ => compare_unary.1

/-- Combining two sets of operands gives no result twice. -/
theorem keysDiffer_binary (op : BinaryOp) (ls rs : OrdSet ValueExpr) :
    (ls.toList.flatMap fun l => rs.toList.map (binary op l · a)).Pairwise (KeysDiffer id) := by
  refine ls.pairwise_flatMap (fun l _ => ?_) fun l l' => ?_
  · exact rs.pairwise_map fun _ _ heq => (compare_binary.1 heq).2
  · simp only [List.forall_mem_map]
    exact fun _ _ _ _ heq => (compare_binary.1 heq).1

theorem keysDiffer_ternary (op : TernaryOp) (ls ms rs : OrdSet ValueExpr) :
    (ls.toList.flatMap fun l => ms.toList.flatMap fun m =>
      rs.toList.map (ternary op l m · a)).Pairwise (KeysDiffer id) := by
  refine ls.pairwise_flatMap (fun l _ => ms.pairwise_flatMap (fun m _ => ?_) fun m m' => ?_)
    fun l l' => ?_
  · exact rs.pairwise_map fun _ _ heq => (compare_ternary.1 heq).2.2
  · simp only [List.forall_mem_map]
    exact fun _ _ _ _ heq => (compare_ternary.1 heq).2.1
  · simp only [List.forall_mem_flatMap, List.forall_mem_map]
    exact fun _ _ _ _ _ _ _ _ heq => (compare_ternary.1 heq).1

end ValueExpr

/-- Whether the root of an expression is an operator. -/
def SymExpr.isOperator : SymExpr → Bool
  | unary .. | binary .. | ternary .. => true
  | _ => false

namespace Rewriter

/-! ## Expressions without heap expressions -/

/-- By induction on the expression; every operand has one result, so every set has one element. -/
theorem rewrite_ofValue (rw : Rewriter) (v : ValueExpr) :
    rw.rewrite (.ofValue v) = .ok (.singleton v) := by
  induction v with
  | const | ident | any | skip => rfl
  | unary _ _ _ ih =>
    rw [SymExpr.ofValue, rewrite, ih]
    rfl
  | binary _ _ _ _ ihl ihr =>
    rw [SymExpr.ofValue, rewrite, ihl, ihr]
    rfl
  | ternary _ _ _ _ _ ihl ihm ihr =>
    rw [SymExpr.ofValue, rewrite, ihl, ihm, ihr]
    rfl

/-! ## Operators -/

/-- An operator applied to one result of each operand, with the annotations of the root. -/
inductive Combines (rw : Rewriter) : SymExpr → ValueExpr → Prop where
  | unary {e : SymExpr} {es : Choices} {c : ValueExpr} (op : UnaryOp) (a : Annotation) :
    rw.rewrite e = .ok es → c ∈ es.toList → Combines rw (.unary op e a) (.unary op c a)
  | binary {l r : SymExpr} {ls rs : Choices} {c d : ValueExpr} (op : BinaryOp) (a : Annotation) :
    rw.rewrite l = .ok ls → rw.rewrite r = .ok rs → c ∈ ls.toList → d ∈ rs.toList →
      Combines rw (.binary op l r a) (.binary op c d a)
  | ternary {l m r : SymExpr} {ls ms rs : Choices} {c d d' : ValueExpr} (op : TernaryOp)
    (a : Annotation) : rw.rewrite l = .ok ls → rw.rewrite m = .ok ms → rw.rewrite r = .ok rs →
      c ∈ ls.toList → d ∈ ms.toList → d' ∈ rs.toList →
        Combines rw (.ternary op l m r a) (.ternary op c d d' a)

variable {rw : Rewriter} {e : SymExpr} {res : Choices} {v : ValueExpr}

theorem Combines.note_eq (h : rw.Combines e v) : v.note = e.note := by
  cases h <;> rfl

/-- The set of an operator is made of a list of different combinations. -/
theorem exists_combinations (he : e.isOperator = true) (h : rw.rewrite e = .ok res) :
    ∃ vs, res = .ofList vs ∧ vs.Pairwise (KeysDiffer id) ∧ ∀ v, v ∈ vs ↔ rw.Combines e v := by
  cases e with
  | unary op e a =>
    rw [rewrite] at h
    obtain ⟨es, hes, h⟩ := Outcome.exists_of_bind h
    cases h
    refine ⟨_, rfl, ValueExpr.keysDiffer_unary a op es.elements, fun v => ?_⟩
    rw [List.mem_map]
    constructor
    · rintro ⟨c, hc, rfl⟩
      exact .unary op a hes hc
    -- A combination brings its own rewriting of the operand, which is the one at hand.
    · rintro ⟨-, -, hes', hc⟩
      cases hes.symm.trans hes'
      exact ⟨_, hc, rfl⟩
  | binary op l r a =>
    rw [rewrite] at h
    obtain ⟨ls, hls, h⟩ := Outcome.exists_of_bind h
    obtain ⟨rs, hrs, h⟩ := Outcome.exists_of_bind h
    cases h
    refine ⟨_, rfl, ValueExpr.keysDiffer_binary a op ls.elements rs.elements, fun v => ?_⟩
    simp only [List.mem_flatMap, List.mem_map]
    constructor
    · rintro ⟨c, hc, d, hd, rfl⟩
      exact .binary op a hls hrs hc hd
    · rintro (_ | ⟨-, -, hls', hrs', hc, hd⟩)
      cases hls.symm.trans hls'
      cases hrs.symm.trans hrs'
      exact ⟨_, hc, _, hd, rfl⟩
  | ternary op l m r a =>
    rw [rewrite] at h
    obtain ⟨ls, hls, h⟩ := Outcome.exists_of_bind h
    obtain ⟨ms, hms, h⟩ := Outcome.exists_of_bind h
    obtain ⟨rs, hrs, h⟩ := Outcome.exists_of_bind h
    cases h
    refine ⟨_, rfl, ValueExpr.keysDiffer_ternary a op ls.elements ms.elements rs.elements,
      fun v => ?_⟩
    simp only [List.mem_flatMap, List.mem_map]
    constructor
    · rintro ⟨c, hc, d, hd, d', hd', rfl⟩
      exact .ternary op a hls hms hrs hc hd hd'
    · rintro (_ | _ | ⟨-, -, hls', hms', hrs', hc, hd, hd'⟩)
      cases hls.symm.trans hls'
      cases hms.symm.trans hms'
      cases hrs.symm.trans hrs'
      exact ⟨_, hc, _, hd, _, hd', rfl⟩
  | _ => cases he

/-- Different combinations are all listed as they were built. -/
theorem mem_rewrite_iff (he : e.isOperator = true) (h : rw.rewrite e = .ok res) :
    v ∈ res.toList ↔ rw.Combines e v := by
  obtain ⟨vs, rfl, hdiffer, hvs⟩ := exists_combinations he h
  exact (OrdSet.toList_ofList_perm hdiffer).mem_iff.trans (hvs v)

/-- An operator is rewritten to all combinations of what its operands are rewritten to. -/
theorem contains_rewrite_iff (he : e.isOperator = true) (h : rw.rewrite e = .ok res) :
    res.contains v = true ↔ ∃ w, rw.Combines e w ∧ (v == w) = true := by
  obtain ⟨vs, rfl, -, hvs⟩ := exists_combinations he h
  show (OrdSet.ofList vs).contains v = true ↔ _
  simp only [OrdSet.contains_ofList, List.any_eq_true, beq_iff_eq, hvs,
    Std.LawfulBEqOrd.compare_eq_iff_beq]

end Rewriter

/-! ## Summary heaps -/

namespace SummaryHeap

theorem allocatedBy_ofValue (v : ValueExpr) : allocatedBy (.ofValue v) = [] := by
  induction v with
  | const | ident | any | skip => rfl
  | unary _ _ _ ih => exact ih
  | binary _ _ _ _ ihl ihr => rw [SymExpr.ofValue, allocatedBy, ihl, ihr, List.append_nil]
  | ternary _ _ _ _ _ ihl ihm ihr =>
    rw [SymExpr.ofValue, allocatedBy, ihl, ihm, ihr, List.append_nil, List.append_nil]

/-- Expressions that are resolved already allocate nothing. -/
theorem allocate_ofValue (h : SummaryHeap) (v : ValueExpr) : h.allocate (.ofValue v) = h := by
  cases h with
  | top | bottom => rfl
  | allocated names =>
    rw [allocate, allocatedBy_ofValue]
    rfl

end SummaryHeap

namespace Rewriter

/-- For every rewriter: an expression without heap expressions is rewritten to itself, annotations
included. An operator whose rewriting succeeds is rewritten to the combinations of what the sets of
its operands list, all annotated like the root, and contains what equals one of these; a set of
everything lists nothing. And transfers with expressions without heap expressions neither change a
summary heap nor ask for a substitution. -/
theorem rewrite_structural (rw : Rewriter) :
    (∀ v, rw.rewrite (.ofValue v) = .ok (.singleton v)) ∧
    (∀ e res, e.isOperator = true → rw.rewrite e = .ok res →
      (∀ v, v ∈ res.toList ↔ rw.Combines e v) ∧
      (∀ v ∈ res.toList, v.note = e.note) ∧
      ∀ v, res.contains v = true ↔ ∃ w, rw.Combines e w ∧ (v == w) = true) ∧
    ∀ (h : SummaryHeap) (id : Identifier) (v : ValueExpr),
      HeapDomain.assign h id (.ofValue v) = { heap := h } ∧
      HeapDomain.step h (.ofValue v) = { heap := h } ∧
      HeapDomain.assume h (.ofValue v) = { heap := h } := by
  refine ⟨rw.rewrite_ofValue, fun e res he hres => ⟨fun v => mem_rewrite_iff he hres,
    fun v hv => ((mem_rewrite_iff he hres).1 hv).note_eq,
    fun v => contains_rewrite_iff he hres⟩, fun h id v => ?_⟩
  have hupdate : HeapUpdate.mk (h.allocate (.ofValue v)) [] = { heap := h } := by
    rw [h.allocate_ofValue v]
  exact ⟨hupdate, hupdate, rfl⟩

/-- A script by which an allocation of `A` may be `x` or `y`. -/
def eitherVariable : Script where
  choices := [("A", [.ofIdentifier (.var "x" ⟨.int32, none, .synthetic⟩),
    .ofIdentifier (.var "y" ⟨.int32, none, .synthetic⟩)])]

/-- The sum of two allocations of `A`. -/
def sumOfAllocations : SymExpr :=
  .binary .add (.alloc ⟨.unit "A", none, .synthetic⟩) (.alloc ⟨.unit "A", none, .synthetic⟩)
    ⟨.int32, none, .synthetic⟩

/-- The sum of two allocations that may each be one of two variables is one of four sums. -/
theorem rewrite_structural_of_two_choices :
    ∃ res, (ScriptedHeap.rewriter eitherVariable).rewrite sumOfAllocations = .ok res ∧
      res.size = 4 ∧ ∀ v ∈ res.toList, v.note = sumOfAllocations.note :=
  ⟨_, rfl, by decide, ((rewrite_structural (ScriptedHeap.rewriter eitherVariable)).2.1
    sumOfAllocations _ rfl rfl).2.1⟩

end Rewriter

end Overapprox
